import LucenePlusPlus.Base64

/-!
When `Base64` decodes what it has encoded, and when it stays within the array that it decodes into. That array is large enough
after it has grown once, or twice when three characters are left over.
-/

namespace LucenePlusPlus
namespace Base64
open WChar (ofChar)
open FastCharStream (NUL)

theorem push_of_lt {size : Int} {written : List UInt8} (hlt : written.length < size) (byte : UInt8) :
    push { size, written } byte = .ok { size, written := written ++ [byte] } := by
  rw [push]
  dsimp only
  rw [if_neg (not_le.mpr hlt)]
  exact if_pos hlt

theorem foldlM_push_of_le {size : Int} {written bytes : List UInt8} (hle : (written.length + bytes.length : Int) ≤ size) :
    bytes.foldlM push { size, written } = .ok { size, written := written ++ bytes } := by
  induction bytes generalizing written with
  | nil =>
      rw [List.append_nil]
      rfl
  | cons byte bytes ih =>
      rw [List.length_cons] at hle
      rw [List.foldlM_cons, push_of_lt (by omega)]
      refine (ih ?_).trans (by rw [List.append_assoc, List.singleton_append])
      rw [List.length_append, List.length_singleton]
      push_cast at hle ⊢
      omega

theorem push_full {size : Nat} {written : List UInt8} (hfull : written.length = size) (byte : UInt8) :
    push { size, written } byte = (grow size >>= fun grown =>
      if (size : Int) < grown then .ok { size := grown, written := written ++ [byte] } else .error .outOfBounds) := by
  rw [push]
  dsimp only
  rw [hfull, if_pos (le_refl (size : Int))]
  rfl

theorem foldlM_push_of_lt {size : Nat} {written bytes : List UInt8} (hle : written.length ≤ size)
    (hlt : size < written.length + bytes.length) :
    bytes.foldlM push { size, written } = (grow size >>= fun grown =>
      if (size : Int) < grown then
        (bytes.drop (size - written.length + 1)).foldlM push
          { size := grown, written := written ++ bytes.take (size - written.length + 1) }
      else .error .outOfBounds) := by
  have hroom : size - written.length < bytes.length := by omega
  have hsplit : bytes = bytes.take (size - written.length) ++
      bytes[size - written.length] :: bytes.drop (size - written.length + 1) := by
    rw [← List.drop_eq_getElem_cons hroom, List.take_append_drop]
  have hfits : (bytes.take (size - written.length)).length = size - written.length := List.length_take_of_le hroom.le
  have htake : bytes.take (size - written.length + 1) = bytes.take (size - written.length) ++ [bytes[size - written.length]] :=
    List.take_succ_eq_append_getElem hroom
  conv_lhs => rw [hsplit]
  rw [List.foldlM_append, foldlM_push_of_le (by rw [hfits]; omega)]
  show ((bytes[size - written.length] :: bytes.drop (size - written.length + 1)).foldlM push _) = _
  rw [List.foldlM_cons, push_full (by rw [List.length_append, hfits]; omega), htake, List.append_assoc]
  cases grow size with
  | error fault => rfl
  | ok grown =>
      show ((if (size : Int) < grown then _ else _) >>= _) = (if (size : Int) < grown then _ else _)
      split <;> rfl

theorem grow_natCast {size : Nat} (hlt : size * 3 / 2 < 2 ^ 31) : grow size = .ok ((size * 3 / 2 : Nat) : Int) := by
  have htdiv : ((size : Int) * 3).tdiv 2 = ((size * 3 / 2 : Nat) : Int) := by
    rw [Int.tdiv_eq_ediv_of_nonneg (by omega)]
    omega
  rw [grow, htdiv, if_pos (by exact_mod_cast hlt)]

theorem grow_of_le {size : Nat} (hle : 2 ^ 31 ≤ size * 3 / 2) : grow size = .error .badSize := by
  have htdiv : ((size : Int) * 3).tdiv 2 = ((size * 3 / 2 : Nat) : Int) := by
    rw [Int.tdiv_eq_ediv_of_nonneg (by omega)]
    omega
  rw [grow, htdiv, if_neg (by rw [not_lt]; exact_mod_cast hle)]

theorem foldlM_push_once {size : Nat} {bytes : List UInt8} (hsize : size * 3 / 2 < 2 ^ 31) (hle : bytes.length ≤ size * 3 / 2) :
    ∃ r, bytes.foldlM push { size, written := [] } = .ok r ∧ r.written = bytes := by
  by_cases hfits : bytes.length ≤ size
  · refine ⟨_, foldlM_push_of_le ?_, List.nil_append _⟩
    rw [List.length_nil]
    omega
  · rw [foldlM_push_of_lt (Nat.zero_le _) (by rw [List.length_nil]; omega), grow_natCast hsize]
    refine ⟨_, (if_pos (by omega)).trans (foldlM_push_of_le ?_), ?_⟩
    · rw [List.length_append, List.length_take, List.length_drop, List.length_nil]
      omega
    · rw [List.nil_append, List.take_append_drop]

/-- Writing one byte more than there is room for after the array has grown once. -/
theorem foldlM_push_twice {size : Nat} {bytes : List UInt8} (hsize : size * 3 / 2 < 2 ^ 31)
    (hlength : bytes.length = size * 3 / 2 + 1) :
    (∃ r, bytes.foldlM push { size, written := [] } = .ok r) ↔ 2 ≤ size ∧ size * 3 / 2 * 3 / 2 < 2 ^ 31 := by
  rw [foldlM_push_of_lt (Nat.zero_le _) (by rw [List.length_nil]; omega), grow_natCast hsize]
  show (∃ r, (if (size : Int) < ((size * 3 / 2 : Nat) : Int) then _ else _) = _) ↔ _
  by_cases hgrows : 2 ≤ size
  · rw [if_pos (by omega), foldlM_push_of_lt (by rw [List.length_append, List.length_take, List.length_nil]; omega)
      (by rw [List.length_append, List.length_take, List.length_drop, List.length_nil]; omega)]
    by_cases hsecond : size * 3 / 2 * 3 / 2 < 2 ^ 31
    · rw [grow_natCast hsecond]
      show (∃ r, (if ((size * 3 / 2 : Nat) : Int) < ((size * 3 / 2 * 3 / 2 : Nat) : Int) then _ else _) = _) ↔ _
      rw [if_pos (by omega)]
      refine iff_of_true ⟨_, foldlM_push_of_le ?_⟩ ⟨hgrows, hsecond⟩
      simp only [List.length_append, List.length_take, List.length_drop, List.length_nil]
      omega
    · rw [grow_of_le (not_lt.mp hsecond)]
      exact iff_of_false (by rintro ⟨r, hr⟩; exact absurd hr nofun) fun hboth => hsecond hboth.2
  · rw [if_neg (by omega)]
    exact iff_of_false (by rintro ⟨r, hr⟩; exact absurd hr nofun) fun hboth => hgrows hboth.1

theorem foldlM_push_of_neg {size : Int} (hle : size ≤ 0) {bytes : List UInt8} :
    (∃ r, bytes.foldlM push { size, written := [] } = .ok r) ↔ bytes = [] := by
  cases bytes with
  | nil => exact iff_of_true ⟨_, rfl⟩ rfl
  | cons byte bytes =>
      refine iff_of_false ?_ (List.cons_ne_nil _ _)
      have htdiv : (size * 3).tdiv 2 ≤ 0 := by
        rcases hle.lt_or_eq with hlt | rfl
        · rw [← neg_neg (size * 3), Int.neg_tdiv]
          have := Int.tdiv_nonneg (show 0 ≤ -(size * 3) by omega) (show (0 : Int) ≤ 2 by decide)
          omega
        · decide
      have hpush : push { size, written := [] } byte = .error .outOfBounds := by
        rw [push]
        dsimp only
        rw [List.length_nil, if_pos (by exact_mod_cast hle), grow, if_pos (by omega)]
        exact if_neg (by push_cast; omega)
      rw [List.foldlM_cons, hpush]
      rintro ⟨r, hr⟩
      exact absurd hr nofun

/-- What is written for the characters, as bytes: the bytes of each four, and of those that are left over one less. -/
def decodeBytes : List UInt8 → List UInt8
  | c0 :: c1 :: c2 :: c3 :: rest => triple (find c0) (find c1) (find c2) (find c3) ++ decodeBytes rest
  | byteArray4 =>
      (triple (find (byteArray4.getD 0 0)) (find (byteArray4.getD 1 0)) (find (byteArray4.getD 2 0))
        (find (byteArray4.getD 3 0))).take (byteArray4.length - 1)

theorem length_decodeBytes (chars : List UInt8) :
    (decodeBytes chars).length = 3 * (chars.length / 4) + (chars.length % 4 - 1) := by
  induction chars using decodeBytes.induct with
  | case1 c0 c1 c2 c3 rest ih =>
      rw [decodeBytes, List.length_append, ih]
      simp only [triple, List.length_cons, List.length_nil]
      omega
  | case2 chars hshort =>
      match chars, hshort with
      | [], _ => rfl
      | [_], _ => simp [decodeBytes]
      | [_, _], _ => simp [decodeBytes, triple]
      | [_, _, _], _ => simp [decodeBytes, triple]
      | c0 :: c1 :: c2 :: c3 :: rest, hshort => exact absurd rfl (hshort c0 c1 c2 c3 rest)

/-- `(uint8_t)c` -/
def toByte (c : WChar) : UInt8 := UInt8.ofNat (c.1 % 256).toNat

section Loop
variable (isAlnum : WChar → Bool)

def Digit (c : WChar) : Bool := c ≠ ofChar '=' && isBase64 isAlnum c

/-- The characters that are decoded: those of Base64 at the start, up to the length if it is not negative. -/
def digits (str : WString) (length : Int) : WString :=
  (if 0 ≤ length then str.take length.toNat else str).takeWhile (Digit isAlnum)

variable {isAlnum}

theorem digits_nil (length : Int) : digits isAlnum [] length = [] := by
  rw [digits, List.take_nil, ite_self, List.takeWhile_nil]

theorem digits_zero (str : WString) : digits isAlnum str 0 = [] := by
  rw [digits, if_pos le_rfl]
  rfl

theorem digits_cons {c : WChar} {rest : WString} {length : Int} (hlength : length ≠ 0) :
    digits isAlnum (c :: rest) length = if Digit isAlnum c then c :: digits isAlnum rest (length - 1) else [] := by
  rw [digits, digits]
  by_cases hle : 0 ≤ length
  · have hpred : length.toNat = (length - 1).toNat + 1 := by omega
    rw [if_pos hle, if_pos (by omega : 0 ≤ length - 1), hpred, List.take_succ_cons, List.takeWhile_cons]
  · rw [if_neg hle, if_neg (by omega : ¬ 0 ≤ length - 1), List.takeWhile_cons]

/-- What is left in `byteArray4` is written after the loop. -/
def finish (s : Result × List UInt8) : Except Fault Result :=
  if s.2.length ≠ 0 then
    ((triple (find (s.2.getD 0 0)) (find (s.2.getD 1 0)) (find (s.2.getD 2 0)) (find (s.2.getD 3 0))).take
      (s.2.length - 1)).foldlM push s.1
  else pure s.1

theorem finish_eq (r : Result) {pending : List UInt8} (hlt : pending.length < 4) :
    finish (r, pending) = (decodeBytes pending).foldlM push r := by
  match pending, hlt with
  | [], _ => rfl
  | [_], _ | [_, _], _ | [_, _, _], _ =>
      rw [decodeBytes]
      · rfl
      · exact fun _ _ _ _ _ heq => absurd (congrArg List.length heq) (by simp)

theorem decodeChar_finish {r : Result} {pending : List UInt8} (hlt : pending.length < 4) (c : WChar) (chars : List UInt8) :
    (decodeChar (r, pending) c >>= fun s => (decodeBytes (s.2 ++ chars)).foldlM push s.1) =
      (decodeBytes (pending ++ toByte c :: chars)).foldlM push r := by
  match pending, hlt with
  | [], _ => rfl
  | [c0], _ => rfl
  | [c0, c1], _ => rfl
  | [c0, c1, c2], _ =>
      show ((triple (find c0) (find c1) (find c2) (find (toByte c))).foldlM push r >>= fun r => pure (r, [])) >>= _ = _
      show _ = (decodeBytes (c0 :: c1 :: c2 :: toByte c :: chars)).foldlM push r
      rw [decodeBytes, List.foldlM_append, bind_assoc]
      rfl

theorem decodeChar_length {r : Result} {pending : List UInt8} (hlt : pending.length < 4) {c : WChar}
    {s : Result × List UInt8} (hs : decodeChar (r, pending) c = .ok s) : s.2.length < 4 := by
  match pending, hlt with
  | [], _ =>
      obtain rfl := Except.ok.inj hs
      exact (by decide : 1 < 4)
  | [c0], _ =>
      obtain rfl := Except.ok.inj hs
      exact (by decide : 2 < 4)
  | [c0, c1], _ =>
      obtain rfl := Except.ok.inj hs
      exact (by decide : 3 < 4)
  | [c0, c1, c2], _ =>
      change ((triple (find c0) (find c1) (find c2) (find (toByte c))).foldlM push r >>= fun r => pure (r, [])) = _ at hs
      cases hfold : (triple (find c0) (find c1) (find c2) (find (toByte c))).foldlM push r with
      | error fault =>
          rw [hfold] at hs
          exact absurd hs nofun
      | ok next =>
          rw [hfold] at hs
          obtain rfl := Except.ok.inj hs
          exact (by decide : 0 < 4)

theorem decodeLoop_finish (hnul : isAlnum NUL = false) (str : WString) (length : Int) {r : Result} {pending : List UInt8}
    (hlt : pending.length < 4) :
    (decodeLoop isAlnum str length (r, pending) >>= finish) =
      (decodeBytes (pending ++ (digits isAlnum str length).map toByte)).foldlM push r := by
  induction str generalizing length r pending with
  | nil =>
      have hstop : isBase64 isAlnum NUL = false := by
        rw [isBase64, hnul]
        decide
      rw [decodeLoop, digits_nil, hstop, List.map_nil, List.append_nil, if_neg (by simp)]
      exact finish_eq r hlt
  | cons c rest ih =>
      rw [decodeLoop]
      by_cases hlength : length = 0
      · rw [if_neg (fun h => h.1 hlength), hlength, digits_zero, List.map_nil, List.append_nil]
        exact finish_eq r hlt
      · rw [digits_cons hlength]
        by_cases hdigit : Digit isAlnum c = true
        · have hboth : c ≠ ofChar '=' ∧ isBase64 isAlnum c = true := by
            rw [Digit, Bool.and_eq_true, decide_eq_true_iff] at hdigit
            exact hdigit
          rw [if_pos ⟨hlength, hboth⟩, if_pos hdigit, List.map_cons, ← decodeChar_finish hlt, bind_assoc]
          cases hchar : decodeChar (r, pending) c with
          | error fault => rfl
          | ok s => exact ih (length - 1) (decodeChar_length hlt hchar)
        · have hnone : ¬ (length ≠ 0 ∧ c ≠ ofChar '=' ∧ isBase64 isAlnum c = true) := by
            rw [Digit, Bool.and_eq_true, decide_eq_true_iff] at hdigit
            exact fun h => hdigit h.2
          rw [if_neg hnone, if_neg hdigit, List.map_nil, List.append_nil]
          exact finish_eq r hlt

theorem decode_eq (hnul : isAlnum NUL = false) (str : WString) :
    decode isAlnum str = ((decodeBytes ((digits isAlnum str (toInt32 str.length)).map toByte)).foldlM push
      { size := (toInt32 str.length).tdiv 2, written := [] } >>= fun result =>
        .ok (if result.written = [] then none else some result.written)) := by
  have hloop := @decodeLoop_finish isAlnum hnul str (toInt32 str.length)
    { size := (toInt32 str.length).tdiv 2, written := [] } [] (by decide)
  rw [List.nil_append] at hloop
  rw [← hloop, bind_assoc, decode]
  refine congrArg (_ >>= ·) (funext fun s => ?_)
  rw [finish]
  dsimp only
  split <;> rfl

theorem length_digits_le {str : WString} {length : Int} (hle : 0 ≤ length) :
    (digits isAlnum str length).length ≤ length.toNat := by
  rw [digits, if_pos hle]
  exact (List.takeWhile_prefix _).length_le.trans (List.length_take_le _ _)

variable (isAlnum) in
/-- When decoding stays within its array. A length that does not fit `int32_t` leaves no room at all. Otherwise the array has
room, but for a string of digits with three left over: there it has to grow a second time, which an array of one byte does
not, and one that is too large cannot. -/
def Within (str : WString) : Prop :=
  let length := toInt32 str.length
  (length < 0 → (digits isAlnum str length).length < 2) ∧
    (0 ≤ length → (digits isAlnum str length).length = length →
      length ≠ 3 ∧ (length % 4 = 3 → (9 * (length / 4) + 3) / 2 < 2 ^ 31))

theorem decode_ok_iff (hnul : isAlnum NUL = false) (str : WString) :
    (∃ result, decode isAlnum str = .ok result) ↔ Within isAlnum str := by
  have hpushes : (∃ result, decode isAlnum str = .ok result) ↔
      ∃ r, (decodeBytes ((digits isAlnum str (toInt32 str.length)).map toByte)).foldlM push
        { size := (toInt32 str.length).tdiv 2, written := [] } = .ok r := by
    rw [decode_eq hnul]
    cases (decodeBytes ((digits isAlnum str (toInt32 str.length)).map toByte)).foldlM push _ with
    | error fault => exact iff_of_false (by rintro ⟨r, hr⟩; exact absurd hr nofun) (by rintro ⟨r, hr⟩; exact absurd hr nofun)
    | ok r => exact iff_of_true ⟨_, rfl⟩ ⟨_, rfl⟩
  rw [hpushes, Within]
  have hwritten := length_decodeBytes ((digits isAlnum str (toInt32 str.length)).map toByte)
  rw [List.length_map] at hwritten
  have hlt : toInt32 str.length < 2 ^ 31 := by
    rw [toInt32]
    omega
  have hdigits := fun hle => @length_digits_le isAlnum str (toInt32 str.length) hle
  generalize toInt32 str.length = length at hwritten hlt hdigits ⊢
  generalize (digits isAlnum str length).length = count at hwritten hdigits ⊢
  generalize decodeBytes ((digits isAlnum str length).map toByte) = bytes at hwritten ⊢
  by_cases hneg : length < 0
  · have htdiv : length.tdiv 2 ≤ 0 := by
      rw [← neg_neg length, Int.neg_tdiv]
      have hle := Int.tdiv_nonneg (show 0 ≤ -length by omega) (show (0 : Int) ≤ 2 by decide)
      omega
    rw [foldlM_push_of_neg htdiv, ← List.length_eq_zero_iff]
    omega
  · obtain ⟨n, rfl⟩ := Int.eq_ofNat_of_zero_le (not_lt.mp hneg)
    have htdiv : (n : Int).tdiv 2 = ((n / 2 : Nat) : Int) := by
      rw [Int.tdiv_eq_ediv_of_nonneg (by omega)]
      omega
    have hcount := hdigits (by omega)
    rw [Int.toNat_natCast] at hcount
    rw [htdiv]
    by_cases honce : bytes.length ≤ n / 2 * 3 / 2
    · obtain ⟨r, hr, -⟩ := foldlM_push_once (by omega) honce
      refine iff_of_true ⟨r, hr⟩ ⟨fun h => absurd h hneg, fun _ heq => ?_⟩
      omega
    · -- more bytes than there is room for after growing once: all are digits, and three are left over
      have hlength : bytes.length = n / 2 * 3 / 2 + 1 ∧ count = n ∧ n % 4 = 3 := by
        have hn : n = 4 * (n / 4) + n % 4 := (Nat.div_add_mod n 4).symm
        have hhalf : n / 2 = 2 * (n / 4) + n % 4 / 2 := by omega
        generalize n / 4 = k at hn hhalf
        rw [hhalf] at honce ⊢
        have hrest : n % 4 < 4 := Nat.mod_lt _ (by decide)
        interval_cases n % 4 <;> omega
      obtain ⟨hlength, rfl, hrest⟩ := hlength
      rw [foldlM_push_twice (by omega) hlength]
      omega

end Loop

/-! ### Bytes and indexes -/

theorem forall_byte {P : UInt8 → Prop} (h : ∀ n < 256, P (UInt8.ofNat n)) (b : UInt8) : P b := by
  have hb := h b.toNat b.toNat_lt
  rwa [UInt8.ofNat_toNat] at hb

theorem encode_parts : ∀ b : UInt8, ((b &&& 0xfc) >>> 2).toNat = b.toNat / 4 ∧ ((b &&& 0x03) <<< 4).toNat = b.toNat % 4 * 16 ∧
    ((b &&& 0xf0) >>> 4).toNat = b.toNat / 16 ∧ ((b &&& 0x0f) <<< 2).toNat = b.toNat % 16 * 4 ∧
    ((b &&& 0xc0) >>> 6).toNat = b.toNat / 64 ∧ (b &&& 0x3f).toNat = b.toNat % 64 :=
  forall_byte (by decide +kernel)

theorem decode_parts : ∀ c : UInt8, (c <<< 2).toNat = c.toNat * 4 % 256 ∧ ((c &&& 0x30) >>> 4).toNat = c.toNat / 16 % 4 ∧
    ((c &&& 0xf) <<< 4).toNat = c.toNat % 16 * 16 ∧ ((c &&& 0x3c) >>> 2).toNat = c.toNat / 4 % 16 ∧
    ((c &&& 0x3) <<< 6).toNat = c.toNat % 4 * 64 :=
  forall_byte (by decide +kernel)

theorem quad_eq (b0 b1 b2 : UInt8) : ∃ c0 c1 c2 c3 : UInt8, quad b0 b1 b2 = [c0, c1, c2, c3] ∧ c0.toNat = b0.toNat / 4 ∧
    c1.toNat = b0.toNat % 4 * 16 + b1.toNat / 16 ∧ c2.toNat = b1.toNat % 16 * 4 + b2.toNat / 64 ∧ c3.toNat = b2.toNat % 64 ∧
    ∀ c ∈ [c0, c1, c2, c3], c.toNat < 64 := by
  obtain ⟨h1, h2, -, -, -, -⟩ := encode_parts b0
  obtain ⟨-, -, h3, h4, -, -⟩ := encode_parts b1
  obtain ⟨-, -, -, -, h5, h6⟩ := encode_parts b2
  have hb0 := b0.toNat_lt
  have hb1 := b1.toNat_lt
  have hb2 := b2.toNat_lt
  have hsecond : ((b0 &&& 0x03) <<< 4 + (b1 &&& 0xf0) >>> 4).toNat = b0.toNat % 4 * 16 + b1.toNat / 16 := by
    rw [UInt8.toNat_add, h2, h3]
    omega
  have hthird : ((b1 &&& 0x0f) <<< 2 + (b2 &&& 0xc0) >>> 6).toNat = b1.toNat % 16 * 4 + b2.toNat / 64 := by
    rw [UInt8.toNat_add, h4, h5]
    omega
  refine ⟨_, _, _, _, rfl, h1, hsecond, hthird, h6, fun c hmem => ?_⟩
  simp only [List.mem_cons, List.not_mem_nil, or_false] at hmem
  rcases hmem with rfl | rfl | rfl | rfl
  · omega
  · omega
  · omega
  · omega

theorem triple_eq {b0 b1 b2 c0 c1 c2 c3 : UInt8} (h0 : c0.toNat = b0.toNat / 4)
    (h1 : c1.toNat = b0.toNat % 4 * 16 + b1.toNat / 16) (h2 : c2.toNat = b1.toNat % 16 * 4 + b2.toNat / 64)
    (h3 : c3.toNat = b2.toNat % 64) : triple c0 c1 c2 c3 = [b0, b1, b2] := by
  obtain ⟨hc0, -⟩ := decode_parts c0
  obtain ⟨-, hc1, hc1', -⟩ := decode_parts c1
  obtain ⟨-, -, -, hc2, hc2'⟩ := decode_parts c2
  have hb0 := b0.toNat_lt
  have hb1 := b1.toNat_lt
  have hb2 := b2.toNat_lt
  rw [triple, List.cons.injEq, List.cons.injEq, List.cons.injEq]
  refine ⟨UInt8.toNat_inj.mp ?_, UInt8.toNat_inj.mp ?_, UInt8.toNat_inj.mp ?_, rfl⟩
  · rw [UInt8.toNat_add, hc0, hc1]
    omega
  · rw [UInt8.toNat_add, hc1', hc2]
    omega
  · rw [UInt8.toNat_add, hc2', h3, h2]
    omega

/-- The letters and digits of ASCII are alphanumeric. -/
def AsciiAlnum (isAlnum : WChar → Bool) : Prop := ∀ c ∈ BASE64_CHARS.take 62, isAlnum c = true

theorem base64Char_spec : ∀ n < 64, find (toByte (base64Char (UInt8.ofNat n))) = UInt8.ofNat n ∧
    base64Char (UInt8.ofNat n) ≠ ofChar '=' ∧
    (base64Char (UInt8.ofNat n) ∈ BASE64_CHARS.take 62 ∨ base64Char (UInt8.ofNat n) = ofChar '+' ∨
      base64Char (UInt8.ofNat n) = ofChar '/') := by
  decide

theorem find_base64Char {c : UInt8} (hlt : c.toNat < 64) : find (toByte (base64Char c)) = c := by
  have hspec := (base64Char_spec c.toNat hlt).1
  rwa [UInt8.ofNat_toNat] at hspec

theorem digit_base64Char {isAlnum : WChar → Bool} (hascii : AsciiAlnum isAlnum) {c : UInt8} (hlt : c.toNat < 64) :
    Digit isAlnum (base64Char c) = true := by
  obtain ⟨-, hne, hbase⟩ := base64Char_spec c.toNat hlt
  rw [UInt8.ofNat_toNat] at hne hbase
  rw [Digit, Bool.and_eq_true, decide_eq_true_iff, isBase64, Bool.or_eq_true, Bool.or_eq_true, beq_iff_eq, beq_iff_eq]
  refine ⟨hne, ?_⟩
  rcases hbase with hmem | hplus | hslash
  · exact Or.inl (Or.inl (hascii _ hmem))
  · exact Or.inl (Or.inr hplus)
  · exact Or.inr hslash

theorem foldl_encodeByte (result : WString) (byteArray3 bytes : List UInt8) :
    bytes.foldl encodeByte (result, byteArray3) =
      (result ++ (bytes.foldl encodeByte ([], byteArray3)).1, (bytes.foldl encodeByte ([], byteArray3)).2) := by
  induction bytes generalizing result byteArray3 with
  | nil => rw [List.foldl_nil, List.foldl_nil, List.append_nil]
  | cons byte bytes ih =>
      rw [List.foldl_cons, List.foldl_cons]
      have hstep : encodeByte (result, byteArray3) byte =
          (result ++ (encodeByte ([], byteArray3) byte).1, (encodeByte ([], byteArray3) byte).2) := by
        rw [encodeByte, encodeByte]
        dsimp only
        split
        · rfl
        · rw [List.append_nil]
      rw [hstep, ih, ih (encodeByte ([], byteArray3) byte).1, List.append_assoc]

theorem encode_cons (b0 b1 b2 : UInt8) (bytes : List UInt8) :
    encode (b0 :: b1 :: b2 :: bytes) = (quad b0 b1 b2).map base64Char ++ encode bytes := by
  have hfold : (b0 :: b1 :: b2 :: bytes).foldl encodeByte ([], []) =
      bytes.foldl encodeByte ((quad b0 b1 b2).map base64Char, []) := rfl
  rw [encode, encode, hfold, foldl_encodeByte]
  dsimp only
  split
  · rw [List.append_assoc, List.append_assoc, List.append_assoc]
  · rfl

theorem encode_one (b0 : UInt8) :
    encode [b0] = ((quad b0 0 0).take 2).map base64Char ++ [ofChar '=', ofChar '='] := rfl

theorem encode_two (b0 b1 : UInt8) : encode [b0, b1] = ((quad b0 b1 0).take 3).map base64Char ++ [ofChar '='] := rfl

theorem length_encode (bytes : List UInt8) : (encode bytes).length = 4 * ((bytes.length + 2) / 3) := by
  match bytes with
  | [] => rfl
  | [b0] =>
      rw [encode_one]
      simp [quad]
  | [b0, b1] =>
      rw [encode_two]
      simp [quad]
  | b0 :: b1 :: b2 :: bytes =>
      rw [encode_cons, List.length_append, List.length_map, length_encode bytes]
      simp only [quad, List.length_cons, List.length_nil]
      omega

theorem decodeBytes_two (c0 c1 : UInt8) :
    decodeBytes [c0, c1] = (triple (find c0) (find c1) (find 0) (find 0)).take 1 := by
  rw [decodeBytes]
  · rfl
  · exact fun _ _ _ _ _ heq => absurd (congrArg List.length heq) (by simp)

theorem decodeBytes_three (c0 c1 c2 : UInt8) :
    decodeBytes [c0, c1, c2] = (triple (find c0) (find c1) (find c2) (find 0)).take 2 := by
  rw [decodeBytes]
  · rfl
  · exact fun _ _ _ _ _ heq => absurd (congrArg List.length heq) (by simp)

section RoundTrip
variable {isAlnum : WChar → Bool} (hascii : AsciiAlnum isAlnum)
include hascii

theorem takeWhile_append_quad {chars : List UInt8} (hlt : ∀ c ∈ chars, c.toNat < 64) (rest : WString) :
    (chars.map base64Char ++ rest).takeWhile (Digit isAlnum) = chars.map base64Char ++ rest.takeWhile (Digit isAlnum) := by
  refine List.takeWhile_append_of_pos fun c hmem => ?_
  obtain ⟨index, hindex, rfl⟩ := List.mem_map.mp hmem
  exact digit_base64Char hascii (hlt index hindex)

theorem decodeBytes_encode (bytes : List UInt8) :
    decodeBytes (((encode bytes).takeWhile (Digit isAlnum)).map toByte) = bytes := by
  match bytes with
  | [] => rfl
  | [b0] =>
      obtain ⟨c0, c1, c2, c3, hquad, h0, h1, h2, h3, hlt⟩ := quad_eq b0 0 0
      have hdigits : (([c0, c1].map base64Char ++ [ofChar '=', ofChar '=']).takeWhile (Digit isAlnum)).map toByte =
          [toByte (base64Char c0), toByte (base64Char c1)] := by
        have hlt' : ∀ c ∈ [c0, c1], c.toNat < 64 :=
          fun c hmem => hlt c (List.mem_of_mem_take (show c ∈ [c0, c1, c2, c3].take 2 from hmem))
        rw [takeWhile_append_quad hascii hlt']
        rfl
      rw [encode_one, hquad]
      show decodeBytes ((([c0, c1].map base64Char ++ [ofChar '=', ofChar '=']).takeWhile (Digit isAlnum)).map toByte) = _
      rw [hdigits, decodeBytes_two, find_base64Char (hlt c0 (by simp)), find_base64Char (hlt c1 (by simp))]
      show (triple c0 c1 c2 c3).take 1 = _
      rw [triple_eq h0 h1 h2 h3]
      rfl
  | [b0, b1] =>
      obtain ⟨c0, c1, c2, c3, hquad, h0, h1, h2, h3, hlt⟩ := quad_eq b0 b1 0
      have hdigits : (([c0, c1, c2].map base64Char ++ [ofChar '=']).takeWhile (Digit isAlnum)).map toByte =
          [toByte (base64Char c0), toByte (base64Char c1), toByte (base64Char c2)] := by
        have hlt' : ∀ c ∈ [c0, c1, c2], c.toNat < 64 :=
          fun c hmem => hlt c (List.mem_of_mem_take (show c ∈ [c0, c1, c2, c3].take 3 from hmem))
        rw [takeWhile_append_quad hascii hlt']
        rfl
      rw [encode_two, hquad]
      show decodeBytes ((([c0, c1, c2].map base64Char ++ [ofChar '=']).takeWhile (Digit isAlnum)).map toByte) = _
      rw [hdigits, decodeBytes_three, find_base64Char (hlt c0 (by simp)), find_base64Char (hlt c1 (by simp)),
        find_base64Char (hlt c2 (by simp))]
      show (triple c0 c1 c2 c3).take 2 = _
      rw [triple_eq h0 h1 h2 h3]
      rfl
  | b0 :: b1 :: b2 :: bytes =>
      obtain ⟨c0, c1, c2, c3, hquad, h0, h1, h2, h3, hlt⟩ := quad_eq b0 b1 b2
      rw [encode_cons, hquad, takeWhile_append_quad hascii hlt, List.map_append, List.map_map]
      show decodeBytes (toByte (base64Char c0) :: toByte (base64Char c1) :: toByte (base64Char c2) ::
        toByte (base64Char c3) :: ((encode bytes).takeWhile (Digit isAlnum)).map toByte) = _
      rw [decodeBytes, decodeBytes_encode bytes, find_base64Char (hlt c0 (by simp)), find_base64Char (hlt c1 (by simp)),
        find_base64Char (hlt c2 (by simp)), find_base64Char (hlt c3 (by simp)), triple_eq h0 h1 h2 h3]
      rfl

/-- A round trip gives the bytes, if there are any and the length of the encoding fits `int32_t`. -/
theorem decode_encode_iff (hnul : isAlnum NUL = false) {bytes : List UInt8} (hlength : bytes.length < 2 ^ 31) :
    decode isAlnum (encode bytes) = .ok (some bytes) ↔ bytes ≠ [] ∧ 4 * ((bytes.length + 2) / 3) < 2 ^ 31 := by
  have hencode := length_encode bytes
  have hbytes := decodeBytes_encode hascii bytes
  by_cases hfits : 4 * ((bytes.length + 2) / 3) < 2 ^ 31
  · have htoInt32 : toInt32 (encode bytes).length = (encode bytes).length := toInt32_of_lt (by omega) (by omega)
    have hdigits : digits isAlnum (encode bytes) (encode bytes).length = (encode bytes).takeWhile (Digit isAlnum) := by
      rw [digits, if_pos (by omega), Int.toNat_natCast, List.take_length]
    have htdiv : ((encode bytes).length : Int).tdiv 2 = (((encode bytes).length / 2 : Nat) : Int) := by
      rw [Int.tdiv_eq_ediv_of_nonneg (by omega)]
      omega
    obtain ⟨r, hr, hwritten⟩ := @foldlM_push_once ((encode bytes).length / 2) bytes (by omega) (by omega)
    rw [decode_eq hnul, htoInt32, hdigits, hbytes, htdiv, hr, and_iff_left hfits]
    show Except.ok (if r.written = [] then none else some r.written) = _ ↔ _
    rw [hwritten, Except.ok.injEq]
    split
    case isTrue hnil => exact iff_of_false nofun (not_not_intro hnil)
    case isFalse hne => exact iff_of_true rfl hne
  · refine iff_of_false (fun hround => ?_) fun hboth => hfits hboth.2
    have hneg : toInt32 (encode bytes).length < 0 := by
      rw [toInt32, hencode]
      omega
    have hwithin := ((decode_ok_iff hnul (encode bytes)).mp ⟨_, hround⟩).1 hneg
    rw [digits, if_neg (by omega)] at hwithin
    have hcount := length_decodeBytes (((encode bytes).takeWhile (Digit isAlnum)).map toByte)
    rw [hbytes, List.length_map] at hcount
    omega

end RoundTrip

/-- A round trip gives the bytes exactly when there are any and the length of their encoding fits `int32_t`, and decoding
stays within its array exactly on the strings that `Within` describes. -/
theorem base64_iff {isAlnum : WChar → Bool} (hascii : AsciiAlnum isAlnum) (hnul : isAlnum NUL = false) :
    (∀ bytes : List UInt8, bytes.length < 2 ^ 31 →
      (decode isAlnum (encode bytes) = .ok (some bytes) ↔ bytes ≠ [] ∧ 4 * ((bytes.length + 2) / 3) < 2 ^ 31)) ∧
      ∀ str : WString, (∃ result, decode isAlnum str = .ok result) ↔ Within isAlnum str :=
  ⟨fun _ hlength => decode_encode_iff hascii hnul hlength, decode_ok_iff hnul⟩

theorem base64_iff_ascii :
    (∀ bytes : List UInt8, bytes.length < 2 ^ 31 →
      (decode (BASE64_CHARS.take 62).contains (encode bytes) = .ok (some bytes) ↔
        bytes ≠ [] ∧ 4 * ((bytes.length + 2) / 3) < 2 ^ 31)) ∧
      ∀ str : WString, (∃ result, decode (BASE64_CHARS.take 62).contains str = .ok result) ↔
        Within (BASE64_CHARS.take 62).contains str :=
  base64_iff (fun _ hmem => List.contains_iff_mem.mpr hmem) (by decide +kernel)

/-- Three characters without padding are decoded into an array of one byte, which does not grow. -/
theorem three_characters_are_out_of_bounds :
    decode (BASE64_CHARS.take 62).contains [ofChar 'T', ofChar 'W', ofChar 'E'] = .error .outOfBounds := by
  decide +kernel

end Base64
end LucenePlusPlus
