import LucenePlusPlus.DocIdSetIterator
import LucenePlusPlus.DocumentOffsets
import LucenePlusPlus.OpenBitSetExact

/-!
`OpenBitSetIterator`: the bits of a word byte by byte. What is left of a byte is a row of packed numbers, which a table
gives; what is left of a word is shifted down, and `wordShift` is one less than the shift, since the packed numbers
count from one.
-/

namespace LucenePlusPlus
namespace OpenBitSetIterator

/-- The numbers of the bits of each byte, of four bits each and with the lowest one first. -/
def bitlist : List (BitVec 32) := [
  0x0, 0x1, 0x2, 0x21, 0x3, 0x31, 0x32, 0x321, 0x4, 0x41, 0x42, 0x421, 0x43, 0x431, 0x432, 0x4321, 0x5, 0x51,
  0x52, 0x521, 0x53, 0x531, 0x532, 0x5321, 0x54, 0x541, 0x542, 0x5421, 0x543, 0x5431, 0x5432, 0x54321, 0x6,
  0x61, 0x62, 0x621, 0x63, 0x631, 0x632, 0x6321, 0x64, 0x641, 0x642, 0x6421, 0x643, 0x6431, 0x6432, 0x64321,
  0x65, 0x651, 0x652, 0x6521, 0x653, 0x6531, 0x6532, 0x65321, 0x654, 0x6541, 0x6542, 0x65421, 0x6543, 0x65431,
  0x65432, 0x654321, 0x7, 0x71, 0x72, 0x721, 0x73, 0x731, 0x732, 0x7321, 0x74, 0x741, 0x742, 0x7421, 0x743,
  0x7431, 0x7432, 0x74321, 0x75, 0x751, 0x752, 0x7521, 0x753, 0x7531, 0x7532, 0x75321, 0x754, 0x7541, 0x7542,
  0x75421, 0x7543, 0x75431, 0x75432, 0x754321, 0x76, 0x761, 0x762, 0x7621, 0x763, 0x7631, 0x7632, 0x76321,
  0x764, 0x7641, 0x7642, 0x76421, 0x7643, 0x76431, 0x76432, 0x764321, 0x765, 0x7651, 0x7652, 0x76521, 0x7653,
  0x76531, 0x76532, 0x765321, 0x7654, 0x76541, 0x76542, 0x765421, 0x76543, 0x765431, 0x765432, 0x7654321, 0x8,
  0x81, 0x82, 0x821, 0x83, 0x831, 0x832, 0x8321, 0x84, 0x841, 0x842, 0x8421, 0x843, 0x8431, 0x8432, 0x84321,
  0x85, 0x851, 0x852, 0x8521, 0x853, 0x8531, 0x8532, 0x85321, 0x854, 0x8541, 0x8542, 0x85421, 0x8543, 0x85431,
  0x85432, 0x854321, 0x86, 0x861, 0x862, 0x8621, 0x863, 0x8631, 0x8632, 0x86321, 0x864, 0x8641, 0x8642, 0x86421,
  0x8643, 0x86431, 0x86432, 0x864321, 0x865, 0x8651, 0x8652, 0x86521, 0x8653, 0x86531, 0x86532, 0x865321,
  0x8654, 0x86541, 0x86542, 0x865421, 0x86543, 0x865431, 0x865432, 0x8654321, 0x87, 0x871, 0x872, 0x8721, 0x873,
  0x8731, 0x8732, 0x87321, 0x874, 0x8741, 0x8742, 0x87421, 0x8743, 0x87431, 0x87432, 0x874321, 0x875, 0x8751,
  0x8752, 0x87521, 0x8753, 0x87531, 0x87532, 0x875321, 0x8754, 0x87541, 0x87542, 0x875421, 0x87543, 0x875431,
  0x875432, 0x8754321, 0x876, 0x8761, 0x8762, 0x87621, 0x8763, 0x87631, 0x87632, 0x876321, 0x8764, 0x87641,
  0x87642, 0x876421, 0x87643, 0x876431, 0x876432, 0x8764321, 0x8765, 0x87651, 0x87652, 0x876521, 0x87653,
  0x876531, 0x876532, 0x8765321, 0x87654, 0x876541, 0x876542, 0x8765421, 0x876543, 0x8765431, 0x8765432,
  0x87654321]

/-- The members that change. -/
structure Cursor where
  i : Int
  word : BitVec 64
  wordShift : Int
  indexArray : BitVec 32
  curDocId : Int

def new : Cursor := ⟨-1, 0, 0, 0, -1⟩

/-- `word` is shifted by `k` more. -/
def Cursor.down (s : Cursor) (k : Nat) : Cursor := { s with wordShift := s.wordShift + k, word := unsignedShift s.word k }

def shift (s : Cursor) : Cursor :=
  let s := if s.word.setWidth 32 = 0 then s.down 32 else s
  let s := if s.word &&& 0x0000ffff = 0 then s.down 16 else s
  let s := if s.word &&& 0x000000ff = 0 then s.down 8 else s
  { s with indexArray := bitlist.getD (s.word &&& 0xff).toNat 0 }

/-- The end of `nextDoc` and `advance`: the next of the packed numbers. -/
def emit (s : Cursor) : Int × Cursor :=
  let bitIndex := (s.indexArray &&& 0x0f).toNat + s.wordShift
  let curDocId := toInt32 (s.i * 64 + bitIndex)
  (curDocId, { s with indexArray := unsignedShift s.indexArray 4, curDocId })

def exhausted (s : Cursor) : Int × Cursor := (NO_MORE_DOCS, { s with curDocId := NO_MORE_DOCS })

variable (arr : List (BitVec 64)) (words : Nat)

/-- The loop to the next word that is not zero, with whether there is one; `words + 1` rounds are enough. -/
def nextWord : Nat → Cursor → Bool × Cursor
  | 0, s => (false, s)
  | rounds + 1, s =>
      let s := { s with i := addInt32 s.i 1 }
      if (words : Int) ≤ s.i then (false, s)
      else
        let s := { s with word := arr.getD s.i.toNat 0 }
        if s.word = 0 then nextWord rounds s else (true, s)

/-- The loop with what follows it; `wordShift` is set behind the loop, as the source suggests. -/
def search (s : Cursor) : Int × Cursor :=
  let (found, s) := nextWord arr words (words + 1) s
  if found then emit (shift { s with wordShift := -1 }) else exhausted s

def nextDoc (s : Cursor) : Int × Cursor :=
  if s.indexArray = 0 then
    let s := if s.word ≠ 0 then s.down 8 else s
    if s.word = 0 then search arr words s else emit (shift s)
  else emit s

def advance (s : Cursor) (target : Int) : Int × Cursor :=
  let s := { s with indexArray := 0, i := target / 64 }
  if (words : Int) ≤ s.i then exhausted { s with word := 0 }
  else
    let wordShift := target % 64
    let s := { s with wordShift, word := unsignedShift (arr.getD s.i.toNat 0) wordShift }
    if s.word ≠ 0 then emit (shift { s with wordShift := s.wordShift - 1 }) else search arr words s

end OpenBitSetIterator

/-- `OpenBitSetIterator(bits, numWords)` -/
def OpenBitSetIterator (arr : List (BitVec 64)) (words : Nat) : DocIdSetIterator OpenBitSetIterator.Cursor where
  nextDoc := OpenBitSetIterator.nextDoc arr words
  advance := OpenBitSetIterator.advance arr words

end LucenePlusPlus

/-!
Whatever calls are made, an `OpenBitSetIterator` returns the bits of the words in use in their order, as long as they
are documents.
-/

namespace LucenePlusPlus
namespace OpenBitSetIterator

variable {arr : List (BitVec 64)} {words e p k : Nat} {l : List Nat} {s : Cursor}

def pack : List Nat → Nat
  | [] => 0
  | p :: l => p + 16 * pack l

/-- The bits of a byte, counted from one. -/
def positions (n : Nat) : List Nat := (List.range' 1 8).filter fun p => n.testBit (p - 1)

theorem toNat_bitlist : ∀ n < 256, (bitlist.getD n 0).toNat = pack (positions n) := by
  decide +kernel

theorem mem_positions {n : Nat} : p ∈ positions n ↔ 1 ≤ p ∧ p ≤ 8 ∧ n.testBit (p - 1) = true := by
  rw [positions, List.mem_filter, List.mem_range'_1]
  exact ⟨fun ⟨⟨h1, h2⟩, hbit⟩ => ⟨h1, by omega, hbit⟩, fun ⟨h1, h2, hbit⟩ => ⟨⟨h1, by omega⟩, hbit⟩⟩

/-- What is left of the lowest byte of the word. -/
structure Packed (s : Cursor) (l : List Nat) : Prop where
  toNat : s.indexArray.toNat = pack l
  sorted : l.Pairwise (· < ·)
  mem : ∀ p ∈ l, 1 ≤ p ∧ p ≤ 8 ∧ s.word.getLsbD (p - 1) = true

/-- The bits of the word stand at their places in word `i`. -/
structure Inside (s : Cursor) : Prop where
  ge : -1 ≤ s.i
  nonneg : s.word ≠ 0 → 0 ≤ s.i
  lt : ∀ j, s.word.getLsbD j = true → 0 ≤ s.wordShift + 1 + j ∧ s.wordShift + 1 + j < 64

/-- The bits of the words in use. -/
def docs (arr : List (BitVec 64)) (words : Nat) : Set Nat := {e | e / 64 < words ∧ WordBits.bit arr e = true}

/-- A bit of the word, from its bit `start` on. -/
def InWord (s : Cursor) (start e : Nat) : Prop :=
  ∃ j : Nat, start ≤ j ∧ s.word.getLsbD j = true ∧ (e : Int) = 64 * s.i + (s.wordShift + 1 + j)

/-- A bit of the words behind word `i`. -/
def Later (arr : List (BitVec 64)) (words : Nat) (s : Cursor) (e : Nat) : Prop :=
  s.i < ((e / 64 : Nat) : Int) ∧ e ∈ docs arr words

def Left (arr : List (BitVec 64)) (words : Nat) (s : Cursor) (l : List Nat) (e : Nat) : Prop :=
  (∃ p ∈ l, (e : Int) = 64 * s.i + (s.wordShift + p)) ∨ InWord s 8 e ∨ Later arr words s e

theorem getLsbD_unsignedShift (x : BitVec 64) (hk : k < 64) (j : Nat) :
    (unsignedShift x k).getLsbD j = x.getLsbD (k + j) := by
  have hmod : ((k : Int) % ((64 : Nat) : Int)).toNat = k := by omega
  rw [unsignedShift_eq, hmod, BitVec.getLsbD_ushiftRight]

theorem inWord_down (hk : k < 64) (start : Nat) : InWord (s.down k) start e ↔ InWord s (start + k) e := by
  constructor
  · rintro ⟨j, hj, hbit, he⟩
    rw [Cursor.down, getLsbD_unsignedShift _ hk] at hbit
    refine ⟨k + j, by omega, hbit, ?_⟩
    rw [he]
    simp only [Cursor.down]
    push_cast
    ring
  · rintro ⟨j, hj, hbit, he⟩
    refine ⟨j - k, by omega, ?_, ?_⟩
    · rw [Cursor.down, getLsbD_unsignedShift _ hk, Nat.add_sub_cancel' (by omega)]
      exact hbit
    · rw [he]
      simp only [Cursor.down]
      omega

theorem inWord_of_low (h : ∀ j < k, s.word.getLsbD j = false) : InWord s k e ↔ InWord s 0 e := by
  constructor
  · rintro ⟨j, -, hbit, he⟩
    exact ⟨j, Nat.zero_le j, hbit, he⟩
  · rintro ⟨j, -, hbit, he⟩
    refine ⟨j, ?_, hbit, he⟩
    by_contra hlt
    rw [h j (by omega)] at hbit
    cases hbit

theorem Inside.down (h : Inside s) (hk : k < 64) : Inside (s.down k) where
  ge := h.ge
  nonneg hne := by
    refine h.nonneg fun hzero => hne ?_
    rw [Cursor.down, hzero, unsignedShift_eq]
    exact BitVec.zero_ushiftRight
  lt j hj := by
    rw [Cursor.down, getLsbD_unsignedShift _ hk] at hj
    have hlt := h.lt _ hj
    simp only [Cursor.down]
    push_cast at hlt
    omega

theorem not_inWord_of_zero (h : s.word = 0) (start : Nat) : ¬ InWord s start e := by
  rintro ⟨j, -, hbit, -⟩
  rw [h] at hbit
  exact absurd (BitVec.getLsbD_zero.symm.trans hbit) Bool.false_ne_true

theorem toNat_and_0x0f (x : BitVec 32) : (x &&& 0x0f).toNat = x.toNat % 16 := by
  rw [BitVec.toNat_and]
  exact Nat.and_two_pow_sub_one_eq_mod x.toNat 4

/-- `r` returns the first of the bits left, and the others are left after it. -/
structure Emits (arr : List (BitVec 64)) (words : Nat) (left : Nat → Prop) (r : Int × Cursor) (n : Nat) : Prop where
  doc : r.1 = toInt32 n
  inside : Inside r.2
  i : r.2.i = ((n / 64 : Nat) : Int)
  packed : ∃ l, Packed r.2 l ∧ (∀ e, left e ↔ e = n ∨ Left arr words r.2 l e) ∧ ∀ e, Left arr words r.2 l e → n < e

theorem emit_cons (hin : Inside s) (h : Packed s (p :: l)) :
    ∃ n, Emits arr words (Left arr words s (p :: l)) (emit s) n := by
  obtain ⟨hge, hle, hbit⟩ := h.mem p List.mem_cons_self
  have hi : 0 ≤ s.i := by
    refine hin.nonneg fun hzero => ?_
    rw [hzero] at hbit
    exact absurd (BitVec.getLsbD_zero.symm.trans hbit) Bool.false_ne_true
  obtain ⟨hlow, hhigh⟩ := hin.lt _ hbit
  obtain ⟨n, hn⟩ := Int.eq_ofNat_of_zero_le (show 0 ≤ 64 * s.i + (s.wordShift + p) by omega)
  have hpack : s.indexArray.toNat = p + 16 * pack l := h.toNat
  have hdoc : (emit s).1 = toInt32 n := by
    rw [emit]
    dsimp only
    rw [toNat_and_0x0f, hpack, ← hn]
    congr 1
    omega
  have hrest : (emit s).2.indexArray.toNat = pack l := by
    have hshift := BitUtil.toNat_unsignedShift32 (x := s.indexArray) (show 4 < 32 by decide)
    change (unsignedShift s.indexArray (4 : Nat)).toNat = pack l
    rw [hshift, hpack]
    omega
  refine ⟨n, hdoc, ⟨hin.ge, hin.nonneg, hin.lt⟩, show s.i = _ by omega, l, ⟨hrest, h.sorted.of_cons, fun q hq =>
    h.mem q (List.mem_cons_of_mem _ hq)⟩, fun e => ?_, ?_⟩
  · constructor
    · rintro (⟨q, hq, he⟩ | hword | hlater)
      · rcases List.mem_cons.mp hq with rfl | hq
        · exact Or.inl (by omega)
        · exact Or.inr (Or.inl ⟨q, hq, he⟩)
      · exact Or.inr (Or.inr (Or.inl hword))
      · exact Or.inr (Or.inr (Or.inr hlater))
    · rintro (rfl | ⟨q, hq, he⟩ | hword | hlater)
      · exact Or.inl ⟨p, List.mem_cons_self, hn.symm⟩
      · exact Or.inl ⟨q, List.mem_cons_of_mem _ hq, he⟩
      · exact Or.inr (Or.inl hword)
      · exact Or.inr (Or.inr hlater)
  · rintro e (⟨q, hq, he⟩ | ⟨j, hj, -, he⟩ | ⟨hi, -⟩)
    · have hlt := List.rel_of_pairwise_cons h.sorted hq
      change (e : Int) = 64 * s.i + (s.wordShift + q) at he
      omega
    · change (e : Int) = 64 * s.i + (s.wordShift + 1 + j) at he
      omega
    · change s.i < _ at hi
      omega

/-- One of the lowest `k` bits of the word is set, and no bit is lost. -/
structure Narrowed (s t : Cursor) (k : Nat) : Prop where
  inside : Inside t
  i : t.i = s.i
  low : ∃ j < k, t.word.getLsbD j = true
  bits : ∀ e, InWord t 0 e ↔ InWord s 0 e

theorem narrowed_down (hin : Inside s) (hk : k < 64) {test : Prop} [Decidable test]
    (htest : test ↔ ∀ j < k, s.word.getLsbD j = false) (hlow : ∃ j < 2 * k, s.word.getLsbD j = true) :
    Narrowed s (if test then s.down k else s) k := by
  obtain ⟨j, hj, hbit⟩ := hlow
  split
  · rename_i hzero
    rw [htest] at hzero
    refine ⟨hin.down hk, rfl, ?_, fun e => ?_⟩
    · have hge : k ≤ j := by
        by_contra hlt
        rw [hzero j (by omega)] at hbit
        cases hbit
      refine ⟨j - k, by omega, ?_⟩
      rw [Cursor.down, getLsbD_unsignedShift _ hk, Nat.add_sub_cancel' hge]
      exact hbit
    · rw [inWord_down hk, Nat.zero_add]
      exact inWord_of_low hzero
  · rename_i hne
    rw [htest] at hne
    push Not at hne
    obtain ⟨j', hj', hbit'⟩ := hne
    rw [ne_eq, Bool.not_eq_false] at hbit'
    exact ⟨hin, rfl, ⟨j', hj', hbit'⟩, fun e => Iff.rfl⟩

theorem setWidth_eq_zero_iff (x : BitVec 64) : x.setWidth 32 = 0 ↔ ∀ j < 32, x.getLsbD j = false := by
  rw [BitVec.eq_of_getLsbD_eq_iff]
  refine forall₂_congr fun j hj => ?_
  rw [BitVec.getLsbD_setWidth, decide_eq_true hj, Bool.true_and]
  exact iff_of_eq (congrArg (x.getLsbD j = ·) BitVec.getLsbD_zero)

theorem and_eq_zero_iff (x : BitVec 64) {mask : BitVec 64} (hmask : mask.toNat = 2 ^ k - 1) :
    x &&& mask = 0 ↔ ∀ j < k, x.getLsbD j = false := by
  have hbit : ∀ j, (x &&& mask).getLsbD j = (x.getLsbD j && decide (j < k)) := by
    intro j
    rw [BitVec.getLsbD_and]
    congr 1
    rw [BitVec.getLsbD, hmask, Nat.testBit_two_pow_sub_one]
  constructor
  · intro hzero j hj
    have hj' := hbit j
    rw [hzero, decide_eq_true hj, Bool.and_true] at hj'
    exact hj'.symm.trans BitVec.getLsbD_zero
  · intro hzero
    apply BitVec.eq_of_getLsbD_eq
    intro j _
    rw [hbit, show (0 : BitVec 64).getLsbD j = false from BitVec.getLsbD_zero]
    by_cases hj : j < k
    · rw [hzero j hj, Bool.false_and]
    · rw [decide_eq_false hj, Bool.and_false]

theorem shift_spec (hin : Inside s) (hne : s.word ≠ 0) : ∃ p l, Packed (shift s) (p :: l) ∧ Inside (shift s) ∧
    ∀ e, Left arr words (shift s) (p :: l) e ↔ InWord s 0 e ∨ Later arr words s e := by
  obtain ⟨hlowest, -⟩ := BitUtil.lowest_ntz hne
  have h₁ := narrowed_down hin (show 32 < 64 by decide) (setWidth_eq_zero_iff s.word)
    ⟨_, BitVec.lt_of_getLsbD hlowest, hlowest⟩
  have h₂ := narrowed_down h₁.inside (show 16 < 64 by decide) (@and_eq_zero_iff 16 _ 0x0000ffff rfl) h₁.low
  have h₃ := narrowed_down h₂.inside (show 8 < 64 by decide) (@and_eq_zero_iff 8 _ 0x000000ff rfl) h₂.low
  set t := if (if s.word.setWidth 32 = 0 then s.down 32 else s).word &&& 0x0000ffff = 0 then
    (if s.word.setWidth 32 = 0 then s.down 32 else s).down 16 else if s.word.setWidth 32 = 0 then s.down 32 else s
  set u := if t.word &&& 0x000000ff = 0 then t.down 8 else t
  have hshift : shift s = { u with indexArray := bitlist.getD (u.word &&& 0xff).toNat 0 } := rfl
  have hmem : ∀ p, p ∈ positions (u.word &&& 0xff).toNat ↔ 1 ≤ p ∧ p ≤ 8 ∧ u.word.getLsbD (p - 1) = true := by
    intro p
    have hbyte : (u.word &&& 0xff).toNat = u.word.toNat % 2 ^ 8 := by
      rw [BitVec.toNat_and]
      exact Nat.and_two_pow_sub_one_eq_mod u.word.toNat 8
    rw [mem_positions, hbyte]
    refine and_congr_right fun hge => and_congr_right fun hle => ?_
    rw [Nat.testBit_mod_two_pow, decide_eq_true (show p - 1 < 8 by omega), Bool.true_and, BitVec.getLsbD]
  have hlt : (u.word &&& 0xff).toNat < 256 := by
    rw [BitVec.toNat_and]
    exact lt_of_le_of_lt Nat.and_le_right (by decide)
  have hi : u.i = s.i := h₃.i.trans (h₂.i.trans h₁.i)
  obtain ⟨j₀, hj₀, hbit₀⟩ := h₃.low
  cases hpos : positions (u.word &&& 0xff).toNat with
  | nil =>
      have hin₀ := (hmem (j₀ + 1)).mpr ⟨by omega, by omega, hbit₀⟩
      rw [hpos] at hin₀
      cases hin₀
  | cons p l =>
      rw [hpos] at hmem
      refine ⟨p, l, ⟨?_, ?_, fun q hq => (hmem q).mp hq⟩, ⟨h₃.inside.ge, h₃.inside.nonneg, h₃.inside.lt⟩, fun e => ?_⟩
      · rw [hshift]
        change (bitlist.getD _ 0).toNat = _
        rw [toNat_bitlist _ hlt, hpos]
      · rw [← hpos]
        exact List.Pairwise.filter _ (List.pairwise_lt_range' ..)
      · have hword : InWord u 0 e ↔ InWord s 0 e := (h₃.bits e).trans ((h₂.bits e).trans (h₁.bits e))
        have hbyte : InWord u 0 e ↔ (∃ q ∈ p :: l, (e : Int) = 64 * u.i + (u.wordShift + q)) ∨ InWord u 8 e := by
          constructor
          · rintro ⟨j, -, hbit, he⟩
            by_cases hj : j < 8
            · exact Or.inl ⟨j + 1, (hmem _).mpr ⟨by omega, by omega, hbit⟩, by push_cast; omega⟩
            · exact Or.inr ⟨j, by omega, hbit, he⟩
          · rintro (⟨q, hq, he⟩ | ⟨j, -, hbit, he⟩)
            · obtain ⟨hge, -, hbit⟩ := (hmem q).mp hq
              exact ⟨q - 1, Nat.zero_le _, hbit, by omega⟩
            · exact ⟨j, Nat.zero_le j, hbit, he⟩
        rw [← hword, hbyte, or_assoc, Later, ← hi]
        exact Iff.rfl

theorem nextWord_spec (hwords : words < 2 ^ 31) {rounds : Nat} (hge : -1 ≤ s.i) (hlt : s.i < 2 ^ 31 - 1)
    (hrounds : (words : Int) - s.i ≤ rounds) (hpos : 1 ≤ rounds) (hzero : s.word = 0) :
    (∃ k : Nat, nextWord arr words rounds s = (true, { s with i := (k : Int), word := arr.getD k 0 }) ∧ s.i < k ∧ k < words ∧
      arr.getD k 0 ≠ 0 ∧ ∀ e, Later arr words s e → k ≤ e / 64) ∨
    nextWord arr words rounds s = (false, { s with i := max (s.i + 1) words, word := 0 }) ∧ ∀ e, ¬ Later arr words s e := by
  induction rounds generalizing s with
  | zero => exact absurd hpos (by decide)
  | succ rounds ih =>
      have hi : addInt32 s.i 1 = s.i + 1 := toInt32_of_lt (by omega) (by omega)
      rw [nextWord, hi]
      dsimp only
      split
      · rename_i hend
        right
        refine ⟨?_, fun e hlater => ?_⟩
        · rw [max_eq_left hend, ← hzero]
        · have hi := hlater.1
          have hin := hlater.2.1
          omega
      · rename_i hin
        obtain ⟨k, hk⟩ := Int.eq_ofNat_of_zero_le (show 0 ≤ s.i + 1 by omega)
        rw [hk, Int.toNat_natCast]
        have hnext : ∀ e, Later arr words s e → k ≤ e / 64 := fun e hlater => by
          have hi := hlater.1
          omega
        split
        · rename_i hword
          have hskip : ∀ e, Later arr words s e → Later arr words { s with i := (k : Int), word := arr.getD k 0 } e := by
            intro e hlater
            refine ⟨?_, hlater.2⟩
            by_contra hge
            have hle := hnext e hlater
            have heq : e / 64 = k := by
              change ¬ (k : Int) < _ at hge
              omega
            have hbit := hlater.2.2
            rw [WordBits.bit, heq, hword] at hbit
            exact absurd (BitVec.getLsbD_zero.symm.trans hbit) Bool.false_ne_true
          rcases @ih { s with i := (k : Int), word := arr.getD k 0 } (by dsimp only; omega) (by dsimp only; omega)
              (by dsimp only; omega) (by omega) hword with ⟨k', heq, hlt', hk', hne, hall⟩ | ⟨heq, hnone⟩
          · exact Or.inl ⟨k', heq, by dsimp only at hlt'; omega, hk', hne, fun e hlater => hall e (hskip e hlater)⟩
          · refine Or.inr ⟨heq.trans ?_, fun e hlater => hnone e (hskip e hlater)⟩
            rw [max_eq_right (show (k : Int) + 1 ≤ words by omega), max_eq_right (show (k : Int) ≤ words by omega)]
        · rename_i hword
          exact Or.inl ⟨k, rfl, by omega, by omega, hword, hnext⟩

theorem Emits.congr {left left' : Nat → Prop} {r : Int × Cursor} {n : Nat} (h : Emits arr words left r n)
    (hiff : ∀ e, left' e ↔ left e) : Emits arr words left' r n := by
  obtain ⟨l, hl, hleft, hbehind⟩ := h.packed
  exact ⟨h.doc, h.inside, h.i, l, hl, fun e => (hiff e).trans (hleft e), hbehind⟩

theorem emit_shift (hin : Inside s) (hne : s.word ≠ 0) :
    ∃ n, Emits arr words (fun e => InWord s 0 e ∨ Later arr words s e) (emit (shift s)) n := by
  obtain ⟨p, l, hl, hin', hleft⟩ := @shift_spec arr words s hin hne
  obtain ⟨n, hn⟩ := @emit_cons arr words _ _ _ hin' hl
  exact ⟨n, hn.congr fun e => (hleft e).symm⟩

/-- The word is that of number `k`, from its bit `sh` on. -/
structure Loaded (arr : List (BitVec 64)) (s : Cursor) (k sh : Nat) : Prop where
  i : s.i = k
  wordShift : s.wordShift = (sh : Int) - 1
  bit : ∀ j, s.word.getLsbD j = (arr.getD k 0).getLsbD (sh + j)

theorem Loaded.inside {sh : Nat} (h : Loaded arr s k sh) : Inside s where
  ge := by have hi := h.i; omega
  nonneg _ := by have hi := h.i; omega
  lt j hj := by
    rw [h.bit] at hj
    have hlt := BitVec.lt_of_getLsbD hj
    have hshift := h.wordShift
    omega

theorem Loaded.left {sh : Nat} (h : Loaded arr s k sh) (hsh : sh < 64) (hk : k < words) (e : Nat) :
    InWord s 0 e ∨ Later arr words s e ↔ e ∈ docs arr words ∧ 64 * k + sh ≤ e := by
  have hi := h.i
  have hshift := h.wordShift
  constructor
  · rintro (⟨j, -, hbit, he⟩ | ⟨hlt, hmem⟩)
    · rw [h.bit] at hbit
      have hlt := BitVec.lt_of_getLsbD hbit
      have heq : e = 64 * k + (sh + j) := by omega
      refine ⟨⟨by omega, ?_⟩, by omega⟩
      rw [WordBits.bit, show e / 64 = k by omega, show e % 64 = sh + j by omega]
      exact hbit
    · exact ⟨hmem, by omega⟩
  · rintro ⟨hmem, hle⟩
    by_cases heq : e / 64 = k
    · refine Or.inl ⟨e % 64 - sh, Nat.zero_le _, ?_, by omega⟩
      have hbit := hmem.2
      rw [WordBits.bit, heq] at hbit
      rw [h.bit, show sh + (e % 64 - sh) = e % 64 by omega]
      exact hbit
    · exact Or.inr ⟨by omega, hmem⟩

/-- Nothing is left, and `i` is not behind `bound`. -/
structure Idle (words : Nat) (bound : Int) (s : Cursor) : Prop where
  indexArray : s.indexArray = 0
  word : s.word = 0
  end_le : (words : Int) ≤ s.i
  le : s.i ≤ bound

/-- The first of the bits left is returned, or there are none. -/
def Answered (arr : List (BitVec 64)) (words : Nat) (left : Nat → Prop) (r : Int × Cursor) : Prop :=
  (∃ n, Emits arr words left r n) ∨ (∀ e, ¬ left e) ∧ r.1 = NO_MORE_DOCS ∧ Idle words (max words (2 ^ 25)) r.2

theorem Answered.congr {left left' : Nat → Prop} {r : Int × Cursor} (h : Answered arr words left r)
    (hiff : ∀ e, left' e ↔ left e) : Answered arr words left' r := by
  rcases h with ⟨n, hn⟩ | ⟨hnone, hidle⟩
  · exact Or.inl ⟨n, hn.congr hiff⟩
  · exact Or.inr ⟨fun e => (hiff e).not.mpr (hnone e), hidle⟩

theorem search_spec (hwords : words < 2 ^ 31) (hge : -1 ≤ s.i) (hlt : s.i < words) (hzero : s.word = 0)
    (hindex : s.indexArray = 0) : Answered arr words (Later arr words s) (search arr words s) := by
  rw [search]
  rcases @nextWord_spec arr words s hwords (words + 1) hge (by omega) (by omega) (by omega) hzero with
    ⟨k, heq, hik, hk, hne, hnext⟩ | ⟨heq, hnone⟩
  · rw [heq]
    left
    have hload : Loaded arr { s with i := (k : Int), word := arr.getD k 0, wordShift := -1 } k 0 :=
      ⟨rfl, rfl, fun j => by rw [Nat.zero_add]⟩
    obtain ⟨n, hn⟩ := @emit_shift arr words _ hload.inside hne
    refine ⟨n, hn.congr fun e => ?_⟩
    rw [hload.left (by decide) hk]
    constructor
    · exact fun hlater => ⟨hlater.2, by have hle := hnext e hlater; omega⟩
    · exact fun ⟨hmem, hle⟩ => ⟨by omega, hmem⟩
  · rw [heq]
    exact Or.inr ⟨hnone, rfl, hindex, rfl, le_max_right _ _, by simp only [exhausted, Bool.false_eq_true, if_false]; omega⟩

/-- The iterator is on `pos`, and the bits behind it are left. -/
def At (arr : List (BitVec 64)) (words : Nat) (s : Cursor) (pos : Int) : Prop :=
  Inside s ∧ s.i < words ∧ ∃ l, Packed s l ∧ ∀ e : Nat, Left arr words s l e ↔ e ∈ docs arr words ∧ pos < e

theorem at_new : At arr words new (-1) := by
  refine ⟨⟨le_rfl, fun h => absurd rfl h, fun j hj => ?_⟩, by simp only [new]; omega, [], ⟨rfl, List.Pairwise.nil,
    fun p hp => by cases hp⟩, fun e => ?_⟩
  · exact absurd (BitVec.getLsbD_zero.symm.trans hj) Bool.false_ne_true
  · constructor
    · rintro (⟨p, hp, -⟩ | hword | ⟨-, hmem⟩)
      · cases hp
      · exact absurd hword (not_inWord_of_zero rfl 8)
      · exact ⟨hmem, by omega⟩
    · exact fun ⟨hmem, _⟩ => Or.inr (Or.inr ⟨by simp only [new]; omega, hmem⟩)

theorem Emits.at {left : Nat → Prop} {r : Int × Cursor} {n : Nat} {target : Int} (h : Emits arr words left r n)
    (hleft : ∀ e, left e ↔ e ∈ docs arr words ∧ target ≤ e) :
    n ∈ docs arr words ∧ target ≤ n ∧ (∀ m ∈ docs arr words, target ≤ (m : Int) → n ≤ m) ∧ At arr words r.2 n := by
  obtain ⟨l, hl, hiff, hbehind⟩ := h.packed
  obtain ⟨hmem, hle⟩ := (hleft n).mp ((hiff n).mpr (Or.inl rfl))
  have hall : ∀ m ∈ docs arr words, target ≤ (m : Int) → m = n ∨ Left arr words r.2 l m :=
    fun m hm hle => (hiff m).mp ((hleft m).mpr ⟨hm, hle⟩)
  refine ⟨hmem, hle, fun m hm htarget => ?_, h.inside, ?_, l, hl, fun e => ⟨fun he => ?_, fun ⟨he, hlt⟩ => ?_⟩⟩
  · rcases hall m hm htarget with rfl | hm
    · exact le_rfl
    · exact (hbehind m hm).le
  · rw [h.i]
    exact_mod_cast hmem.1
  · exact ⟨((hleft e).mp ((hiff e).mpr (Or.inr he))).1, by exact_mod_cast hbehind e he⟩
  · rcases hall e he (by omega) with rfl | he
    · exact absurd hlt (lt_irrefl _)
    · exact he

theorem pack_eq_zero (hmem : ∀ p ∈ l, 1 ≤ p) (h : pack l = 0) : l = [] := by
  cases l with
  | nil => rfl
  | cons p l =>
      have hp := hmem p List.mem_cons_self
      rw [pack] at h
      omega

theorem nextDoc_spec {pos : Int} (hwords : words < 2 ^ 31) (h : At arr words s pos) :
    Answered arr words (fun e => e ∈ docs arr words ∧ pos + 1 ≤ (e : Int)) (nextDoc arr words s) := by
  obtain ⟨hin, hlt, l, hl, hleft⟩ := h
  have hiff : ∀ e : Nat, e ∈ docs arr words ∧ pos + 1 ≤ (e : Int) ↔ Left arr words s l e := fun e => (hleft e).symm
  rw [nextDoc]
  split
  · rename_i hindex
    have hnil : l = [] := by
      refine pack_eq_zero (fun p hp => (hl.mem p hp).1) ?_
      rw [← hl.toNat, hindex]
      rfl
    subst hnil
    have hiff' : ∀ e : Nat, e ∈ docs arr words ∧ pos + 1 ≤ (e : Int) ↔ InWord s 8 e ∨ Later arr words s e := by
      intro e
      rw [hiff, Left]
      exact or_iff_right (by rintro ⟨p, hp, -⟩; cases hp)
    by_cases hword : s.word = 0
    · rw [if_neg (not_not.mpr hword)]
      dsimp only
      rw [if_pos hword]
      refine (search_spec hwords hin.ge hlt hword hindex).congr fun e => ?_
      rw [hiff']
      exact or_iff_right (not_inWord_of_zero hword 8)
    · rw [if_pos hword]
      dsimp only
      have hdown : ∀ e, InWord (s.down 8) 0 e ↔ InWord s 8 e := fun e => inWord_down (by decide) 0
      split
      · rename_i hzero
        refine (@search_spec arr words (s.down 8) hwords hin.ge hlt hzero hindex).congr fun e => ?_
        rw [hiff', ← hdown]
        exact or_iff_right (not_inWord_of_zero hzero 0)
      · rename_i hne
        obtain ⟨n, hn⟩ := @emit_shift arr words _ (hin.down (show 8 < 64 by decide)) hne
        refine Or.inl ⟨n, hn.congr fun e => ?_⟩
        rw [hiff', hdown]
        exact Iff.rfl
  · rename_i hindex
    cases l with
    | nil => exact absurd (BitVec.eq_of_toNat_eq hl.toNat) hindex
    | cons p l =>
        obtain ⟨n, hn⟩ := @emit_cons arr words _ _ _ hin hl
        exact Or.inl ⟨n, hn.congr hiff⟩

theorem advance_spec {target : Int} (hwords : words < 2 ^ 31) (hge : 0 ≤ target) (hle : target ≤ NO_MORE_DOCS) :
    Answered arr words (fun e => e ∈ docs arr words ∧ target ≤ (e : Int)) (advance arr words s target) := by
  obtain ⟨t, rfl⟩ := Int.eq_ofNat_of_zero_le hge
  have hdiv : ((t : Nat) : Int) / 64 = ((t / 64 : Nat) : Int) := rfl
  have hmod : ((t : Nat) : Int) % 64 = ((t % 64 : Nat) : Int) := rfl
  have hmax : NO_MORE_DOCS = 2147483647 := rfl
  rw [advance, hdiv, hmod]
  dsimp only
  split
  · rename_i hend
    refine Or.inr ⟨fun e ⟨hmem, hte⟩ => ?_, rfl, rfl, rfl, hend, ?_⟩
    · have hlt := hmem.1
      omega
    · simp only [exhausted]
      omega
  · rename_i hin
    rw [Int.toNat_natCast]
    have hmod : t % 64 < 64 := Nat.mod_lt _ (by decide)
    have hload : Loaded arr
        { s with
          i := ((t / 64 : Nat) : Int)
          word := unsignedShift (arr.getD (t / 64) 0) ((t % 64 : Nat) : Int)
          wordShift := ((t % 64 : Nat) : Int) - 1
          indexArray := 0 } (t / 64) (t % 64) :=
      ⟨rfl, rfl, getLsbD_unsignedShift _ hmod⟩
    have hiff : ∀ e : Nat, e ∈ docs arr words ∧ (t : Int) ≤ (e : Int) ↔ e ∈ docs arr words ∧ 64 * (t / 64) + t % 64 ≤ e := by
      intro e
      rw [Nat.div_add_mod]
      exact and_congr_right fun _ => Int.ofNat_le
    have hleft := @Loaded.left _ words _ _ _ hload hmod (by omega)
    split
    · rename_i hne
      obtain ⟨n, hn⟩ := @emit_shift arr words _ hload.inside hne
      exact Or.inl ⟨n, hn.congr fun e => (hiff e).trans (hleft e).symm⟩
    · rename_i hzero
      rw [not_not] at hzero
      refine (@search_spec arr words _ hwords (by dsimp only; omega) (by dsimp only; omega) hzero rfl).congr fun e => ?_
      rw [hiff, ← hleft]
      exact or_iff_right (not_inWord_of_zero hzero 0)

/-- The iterator is exhausted, or on the document it has returned. -/
def Standing (arr : List (BitVec 64)) (words : Nat) (s : Cursor) (doc : Int) : Prop :=
  doc = NO_MORE_DOCS ∧ Idle words (max words (2 ^ 25)) s ∨ doc < NO_MORE_DOCS ∧ At arr words s doc

theorem toInt32_doc {n : Nat} (h : (n : Int) < NO_MORE_DOCS) : toInt32 n = n := by
  have hmax : NO_MORE_DOCS = 2147483647 := rfl
  exact toInt32_of_lt (by omega) (by omega)

theorem Answered.isFirst {target : Int} {r : Int × Cursor} (hdocs : ∀ e ∈ docs arr words, (e : Int) < NO_MORE_DOCS)
    (h : Answered arr words (fun e => e ∈ docs arr words ∧ target ≤ (e : Int)) r) :
    IsFirst (docs arr words) target r.1 ∧ Standing arr words r.2 r.1 := by
  rcases h with ⟨n, hn⟩ | ⟨hnone, hdoc, hidle⟩
  · obtain ⟨hmem, hle, hleast, hat⟩ := hn.at fun e => Iff.rfl
    have hdoc : r.1 = n := hn.doc.trans (toInt32_doc (hdocs n hmem))
    rw [hdoc]
    exact ⟨Or.inl ⟨n, hmem, rfl, hle, hleast⟩, Or.inr ⟨hdocs n hmem, hat⟩⟩
  · rw [hdoc]
    exact ⟨IsFirst.none fun m hm htarget => hnone m ⟨hm, htarget⟩, Or.inl ⟨rfl, hidle⟩⟩

theorem Standing.call {doc : Int} {call : IteratorCall} (hwords : words < 2 ^ 31)
    (hdocs : ∀ e ∈ docs arr words, (e : Int) < NO_MORE_DOCS) (hge : -1 ≤ doc) (h : Standing arr words s doc)
    (hlegal : call.Legal doc) :
    IsFirst (docs arr words) (call.target doc) ((OpenBitSetIterator arr words).call s call).1 ∧
      Standing arr words ((OpenBitSetIterator arr words).call s call).2
        ((OpenBitSetIterator arr words).call s call).1 := by
  obtain ⟨hlt, hle⟩ := hlegal.target
  rcases h with ⟨rfl, -⟩ | ⟨-, hat⟩
  · exact absurd (lt_of_lt_of_le hlt hle) (lt_irrefl _)
  · cases call with
    | nextDoc => exact Answered.isFirst hdocs (nextDoc_spec hwords hat)
    | advance target =>
        change doc < target at hlt
        change target ≤ NO_MORE_DOCS at hle
        exact Answered.isFirst hdocs (@advance_spec _ _ _ target hwords (by omega) hle)

theorem Idle.stays {bound : Int} (h : Idle words bound s) (hbound : bound + 1 < 2 ^ 31) :
    (nextDoc arr words s).1 = NO_MORE_DOCS ∧ Idle words (bound + 1) (nextDoc arr words s).2 := by
  have hend := h.end_le
  have hle := h.le
  have hi : addInt32 s.i 1 = s.i + 1 := toInt32_of_lt (by omega) (by omega)
  have hnext : nextWord arr words (words + 1) s = (false, { s with i := s.i + 1 }) := by
    rw [nextWord, hi]
    exact if_pos (by dsimp only; omega)
  rw [nextDoc, if_pos h.indexArray, if_neg (not_not.mpr h.word)]
  dsimp only
  rw [if_pos h.word, search, hnext]
  exact ⟨rfl, h.indexArray, h.word, by simp only [exhausted, Bool.false_eq_true, if_false]; omega,
    by simp only [exhausted, Bool.false_eq_true, if_false]; omega⟩

theorem Idle.iterate {bound : Int} (h : Idle words bound s) (n : Nat) (hbound : bound + n + 1 < 2 ^ 31) :
    (nextDoc arr words ((fun s => (nextDoc arr words s).2)^[n] s)).1 = NO_MORE_DOCS := by
  induction n generalizing s bound with
  | zero => exact (h.stays (by omega)).1
  | succ n ih =>
      rw [Function.iterate_succ_apply]
      exact ih (h.stays (by omega)).2 (by push_cast at hbound ⊢; omega)

/-- The iterator returns the set, and then `NO_MORE_DOCS` until `i` has counted through the `int32_t`. -/
structure Iterates (arr : List (BitVec 64)) (words : Nat) : Prop where
  enumerates : (OpenBitSetIterator arr words).Enumerates new (docs arr words)
  exhausted : ∀ s, (OpenBitSetIterator arr words).Reached new s NO_MORE_DOCS →
    ∀ n : Nat, max words (2 ^ 25) + n + 1 < 2 ^ 31 →
      (nextDoc arr words ((fun s => (nextDoc arr words s).2)^[n] s)).1 = NO_MORE_DOCS

theorem iterates (set : OpenBitSet) (hwords : set.wlen < 2 ^ 31)
    (hdocs : ∀ e ∈ docs set.bits set.wlen, (e : Int) < NO_MORE_DOCS) : Iterates set.bits set.wlen := by
  have hcall : ∀ s doc call, -1 ≤ doc ∧ Standing set.bits set.wlen s doc → call.Legal doc →
      IsFirst (docs set.bits set.wlen) (call.target doc) ((OpenBitSetIterator set.bits set.wlen).call s call).1 ∧
        -1 ≤ ((OpenBitSetIterator set.bits set.wlen).call s call).1 ∧
          Standing set.bits set.wlen ((OpenBitSetIterator set.bits set.wlen).call s call).2
            ((OpenBitSetIterator set.bits set.wlen).call s call).1 := by
    intro s doc call h hlegal
    obtain ⟨hfirst, hstanding⟩ := h.2.call hwords hdocs h.1 hlegal
    obtain ⟨hlt, hle⟩ := hlegal.target
    exact ⟨hfirst, h.1.trans (hlt.le.trans (hfirst.target_le hle)), hstanding⟩
  have hnew : -1 ≤ (-1 : Int) ∧ Standing set.bits set.wlen new (-1) := ⟨le_rfl, Or.inr ⟨by decide, at_new⟩⟩
  refine ⟨DocIdSetIterator.enumerates_of_invariant _ hnew hcall, fun s hreach n hn => ?_⟩
  have hstanding := hreach.invariant (fun s doc => -1 ≤ doc ∧ Standing set.bits set.wlen s doc) hnew
    fun s doc call h hlegal => (hcall s doc call h hlegal).2
  rcases hstanding.2 with ⟨-, hidle⟩ | ⟨hlt, -⟩
  · exact hidle.iterate n (by exact_mod_cast hn)
  · exact absurd hlt (lt_irrefl _)

theorem iterates_two : Iterates [0x8000000000000001, 0, 2] 3 :=
  iterates ⟨[0x8000000000000001, 0, 2], 3⟩ (by decide) fun e he => by
    have hlt := he.1
    have hmax : NO_MORE_DOCS = 2147483647 := rfl
    simp only at hlt
    omega

/-- One bit behind words that are zero. -/
def single (m : Nat) : OpenBitSet := ⟨List.replicate m 0 ++ [1], m + 1⟩

theorem reachable_single {m : Nat} (hm : m + 1 < 2 ^ 31) : OpenBitSet.Reachable (single m) := by
  have hlength : (List.replicate m (0 : BitVec 64) ++ [1]).length = m + 1 := by simp
  refine .ofArray (hlength.trans_lt hm) hlength.ge fun k hk => ?_
  rw [List.getD_eq_getElem?_getD, List.getElem?_eq_none (hlength.le.trans hk)]
  rfl

theorem mem_docs_single (m : Nat) : e ∈ docs (single m).bits (single m).wlen ↔ e = 64 * m := by
  have hword : (single m).bits.getD m 0 = 1 := by
    rw [single, List.getD_eq_getElem?_getD, List.getElem?_append_right (by simp), List.length_replicate, Nat.sub_self]
    rfl
  constructor
  · rintro ⟨hlt, hbit⟩
    rw [WordBits.bit] at hbit
    change e / 64 < m + 1 at hlt
    by_cases hm : e / 64 < m
    · rw [single, List.getD_eq_getElem?_getD, List.getElem?_append_left (by rwa [List.length_replicate]),
        List.getElem?_replicate, if_pos hm] at hbit
      exact absurd (BitVec.getLsbD_zero.symm.trans hbit) Bool.false_ne_true
    · have hdiv : e / 64 = m := by omega
      rw [hdiv, hword, show (1 : BitVec 64) = 1#64 from rfl, BitVec.getLsbD_one, Bool.and_eq_true,
        decide_eq_true_eq, decide_eq_true_eq] at hbit
      omega
  · rintro rfl
    have hdiv : 64 * m / 64 = m := by omega
    refine ⟨?_, ?_⟩
    · rw [hdiv]
      exact Nat.lt_succ_self m
    · rw [WordBits.bit, hdiv, hword, Nat.mul_mod_right]
      rfl

/-- Bit 2 to the 31 is returned as a negative document. -/
theorem high_bit_is_negative : ∃ set : OpenBitSet, OpenBitSet.Reachable set ∧
    (∀ e, e ∈ docs set.bits set.wlen ↔ e = 2 ^ 31) ∧ (nextDoc set.bits set.wlen new).1 = -2 ^ 31 ∧
    ¬ (OpenBitSetIterator set.bits set.wlen).Enumerates new (docs set.bits set.wlen) := by
  obtain ⟨m, hm⟩ : ∃ m, m = 2 ^ 25 := ⟨_, rfl⟩
  have hdocs : ∀ e, e ∈ docs (single m).bits (single m).wlen ↔ e = 2 ^ 31 := by
    intro e
    rw [mem_docs_single]
    omega
  have hwords : (single m).wlen < 2 ^ 31 := by
    change m + 1 < 2 ^ 31
    omega
  have hdoc : (nextDoc (single m).bits (single m).wlen new).1 = -2 ^ 31 := by
    rcases nextDoc_spec hwords at_new with ⟨n, hn⟩ | ⟨hnone, -⟩
    · obtain ⟨hmem, -⟩ := hn.at fun e => Iff.rfl
      rw [hn.doc, (hdocs n).mp hmem]
      rfl
    · exact absurd ⟨(hdocs (2 ^ 31)).mpr rfl, by decide⟩ (hnone (2 ^ 31))
  refine ⟨single m, reachable_single hwords, hdocs, hdoc, fun henum => ?_⟩
  have hlegal : IteratorCall.nextDoc.Legal (-1) := by
    change (-1 : Int) < NO_MORE_DOCS
    decide
  have hfirst := (henum [.nextDoc] hlegal).1
  change IsFirst _ _ (nextDoc (single m).bits (single m).wlen new).1 at hfirst
  rw [hdoc] at hfirst
  rcases hfirst with ⟨n, -, heq, -⟩ | ⟨heq, -⟩
  · omega
  · exact absurd heq (by decide)

end OpenBitSetIterator
end LucenePlusPlus
