import LucenePlusPlus.BitSet
import LucenePlusPlus.OpenBitSetIteration
import LucenePlusPlus.VarInt

/-!
`SortedVIntList`: numbers in their order, each as its difference to the one before in variable-length bytes. The array
of the bytes grows before a number of five bytes might not fit.
-/

namespace LucenePlusPlus

/-- The bytes up to `lastBytePos`, and `bytes.size()`. -/
structure SortedVIntList where
  size : Nat
  bytes : List UInt8
  byteSize : Int
  lastInt : Int

namespace SortedVIntList

inductive Error
  | illegalArgument (message : String)
  | noMemory
  | outOfRange

def BIT_SHIFT : Nat := 7

def MAX_BYTES_PER_INT : Nat := 31 / BIT_SHIFT + 1

def initBytes : SortedVIntList := ⟨0, [], 128, 0⟩

/-- There is no memory for a negative length. -/
def resize (s : SortedVIntList) : Except Error SortedVIntList :=
  let byteSize := addInt32 (mulInt32 s.byteSize 2) MAX_BYTES_PER_INT
  if byteSize < 0 then .error .noMemory else .ok { s with byteSize }

/-- The bytes of one number, in the array. -/
def put (s : SortedVIntList) (b : List UInt8) : Except Error SortedVIntList :=
  if s.byteSize < (s.bytes ++ b).length then .error .outOfRange else .ok { s with bytes := s.bytes ++ b }

def addInt (s : SortedVIntList) (nextInt : Int) : Except Error SortedVIntList :=
  let diff := toInt32 (nextInt - s.lastInt)
  if diff < 0 then .error (.illegalArgument "Input not sorted or first element negative.")
  else
    (if s.byteSize < addInt32 s.bytes.length MAX_BYTES_PER_INT then s.resize else .ok s).bind fun s =>
      (s.put (VarInt.encode diff.toNat)).map fun s => { s with size := s.size + 1, lastInt := nextInt }

def addInts : List Int → SortedVIntList → Except Error SortedVIntList
  | [], s => .ok s
  | nextInt :: sortedInts, s => (s.addInt nextInt).bind (addInts sortedInts)

/-- `bytes.resize(lastBytePos)` -/
def trim (s : SortedVIntList) : SortedVIntList := { s with byteSize := s.bytes.length }

def ofInts (sortedInts : List Int) : Except Error SortedVIntList := (addInts sortedInts initBytes).map trim

/-- The loop over the first numbers, of which `n` are left from `i` on. -/
def addFirst (sortedInts : List Int) : Nat → Nat → SortedVIntList → Except Error SortedVIntList
  | 0, _, s => .ok s
  | n + 1, i, s =>
      match sortedInts[i]? with
      | none => .error .outOfRange
      | some nextInt => (s.addInt nextInt).bind (addFirst sortedInts n (i + 1))

def ofFirstInts (sortedInts : List Int) (inputSize : Nat) : Except Error SortedVIntList :=
  (addFirst sortedInts inputSize 0 initBytes).map trim

/-- The loop over the bits, with a bound on its rounds. -/
def addBits (nextSetBit : Int → Except Error Int) : Nat → Int → SortedVIntList → Except Error SortedVIntList
  | 0, _, s => .ok s
  | rounds + 1, nextInt, s =>
      if nextInt = -1 then .ok s
      else
        (s.addInt nextInt).bind fun s =>
          (nextSetBit (addInt32 nextInt 1)).bind fun nextInt => addBits nextSetBit rounds nextInt s

def ofBits (nextSetBit : Int → Except Error Int) (rounds : Nat) : Except Error SortedVIntList :=
  ((nextSetBit 0).bind fun nextInt => addBits nextSetBit rounds nextInt initBytes).map trim

/-- `BitSet::nextSetBit` takes a `uint32_t`. -/
def ofBitSet (bits : BitSet) : Except Error SortedVIntList :=
  ofBits (fun fromIndex => .ok (bits.nextSetBit (fromIndex % 2 ^ 32).toNat)) (bits.bitSet.length + 1)

/-- `OpenBitSet::nextSetBit` takes an `int32_t`, and shifts it as an unsigned number. -/
def ofOpenBitSet (bits : OpenBitSet) : Except Error SortedVIntList :=
  ofBits (fun index => .ok (bits.nextSetBit32 (index % 2 ^ 32).toNat)) (64 * bits.bits.length + 1)

/-- The loop over the documents, with a bound on its rounds. -/
def addDocs {σ : Type} (it : DocIdSetIterator σ) : Nat → σ → SortedVIntList → Except Error SortedVIntList
  | 0, _, s => .ok s
  | rounds + 1, docs, s =>
      let (doc, docs) := it.nextDoc docs
      if doc = NO_MORE_DOCS then .ok s else (s.addInt doc).bind (addDocs it rounds docs)

def ofIterator {σ : Type} (it : DocIdSetIterator σ) (rounds : Nat) (docs : σ) : Except Error SortedVIntList :=
  (addDocs it rounds docs initBytes).map trim

/-- `SortedDocIdSetIterator`, with the bytes from `bytePos` on. -/
structure Cursor where
  left : List UInt8
  lastInt : Int
  doc : Int

def iterator (s : SortedVIntList) : Cursor := ⟨s.bytes, 0, -1⟩

/-- The loop of `advance()`, whose next byte counts from bit `s` on; `none` if the bytes end inside a number. -/
def readDiff : List UInt8 → Nat → Int → Option (Int × List UInt8)
  | [], _, _ => none
  | b :: left, s, lastInt =>
      let lastInt := addInt32 lastInt (toInt32 ((b.toNat % 128) <<< s : Nat))
      if 128 ≤ b.toNat then readDiff left (s + BIT_SHIFT) lastInt else some (lastInt, left)

namespace Cursor

def read (c : Cursor) : Option Cursor :=
  (readDiff c.left 0 c.lastInt).map fun (lastInt, left) => { c with lastInt, left }

def found (c : Cursor) : Int × Cursor := (c.lastInt, { c with doc := c.lastInt })

def exhausted (c : Cursor) : Int × Cursor := (NO_MORE_DOCS, { c with doc := NO_MORE_DOCS })

def nextDoc (c : Cursor) : Option (Int × Cursor) := if c.left = [] then some c.exhausted else c.read.map found

/-- The loop of `advance(target)`, with a bound on its rounds. -/
def advanceTo (target : Int) : Nat → Cursor → Option (Int × Cursor)
  | 0, c => some c.exhausted
  | rounds + 1, c =>
      if c.left = [] then some c.exhausted
      else c.read.bind fun c => if target ≤ c.lastInt then some c.found else advanceTo target rounds c

def call (c : Cursor) : IteratorCall → Option (Int × Cursor)
  | .nextDoc => c.nextDoc
  | .advance target => advanceTo target (c.left.length + 1) c

def answers (c : Cursor) : List IteratorCall → Option (List Int)
  | [] => some []
  | call :: calls => (c.call call).bind fun (doc, c) => (c.answers calls).map (doc :: ·)

end Cursor

/-- The first of the numbers left. -/
def next : List Int → Int × List Int
  | [] => (NO_MORE_DOCS, [])
  | x :: l => (x, l)

/-- A call over the numbers left. -/
def listCall (l : List Int) : IteratorCall → Int × List Int
  | .nextDoc => next l
  | .advance target => next (l.dropWhile (· < target))

def listAnswers (l : List Int) : List IteratorCall → List Int
  | [] => []
  | call :: calls => (listCall l call).1 :: listAnswers (listCall l call).2 calls

/-- The list stands for these numbers. -/
structure Lists (s : SortedVIntList) (l : List Int) : Prop where
  size : s.size = l.length
  answers : ∀ calls, s.iterator.answers calls = some (listAnswers l calls)

/-- The numbers are sorted and behind `last`. -/
def Above : Int → List Int → Prop
  | _, [] => True
  | last, x :: l => last ≤ x ∧ x < 2 ^ 31 ∧ Above x l

def encodeFrom : Int → List Int → List UInt8
  | _, [] => []
  | last, x :: l => VarInt.encode (x - last).toNat ++ encodeFrom x l

/-- The largest of the lengths 128, 261 and so on; the one behind it is no `int32_t`. -/
def LARGEST : Nat := 1115684859

/-- Behind `len` bytes there is room for each of the numbers. -/
def Roomy : Nat → Int → List Int → Prop
  | _, _, [] => True
  | len, last, x :: l =>
      len + MAX_BYTES_PER_INT ≤ LARGEST ∧ Roomy (len + (VarInt.encode (x - last).toNat).length) x l

variable {s t : SortedVIntList} {x : Int} {l : List Int}

/-- The states of a list that grows. -/
structure Growing (s : SortedVIntList) : Prop where
  byteSize : ∃ k ≤ 23, s.byteSize = 133 * ((2 ^ k : Nat) : Int) - 5
  le : (s.bytes.length : Int) ≤ s.byteSize
  nonneg : 0 ≤ s.lastInt
  lt : s.lastInt < 2 ^ 31

theorem growing_initBytes : Growing initBytes := ⟨⟨0, by decide, rfl⟩, by decide, by decide, by decide⟩

theorem Growing.length_le (h : Growing s) : s.bytes.length ≤ LARGEST := by
  obtain ⟨k, hk, hsize⟩ := h.byteSize
  have hpow : 2 ^ k ≤ 2 ^ 23 := Nat.pow_le_pow_right (by decide) hk
  have hle := h.le
  rw [LARGEST]
  omega

theorem Growing.makeRoom_condition (h : Growing s) :
    addInt32 s.bytes.length MAX_BYTES_PER_INT = s.bytes.length + 5 := by
  have hle := h.length_le
  rw [LARGEST] at hle
  exact toInt32_of_lt (by simp only [MAX_BYTES_PER_INT, BIT_SHIFT]; omega) (by simp only [MAX_BYTES_PER_INT, BIT_SHIFT]; omega)

theorem Growing.makeRoom (h : Growing s) (hroom : s.bytes.length + 5 ≤ LARGEST) :
    ∃ byteSize, (if s.byteSize < addInt32 s.bytes.length MAX_BYTES_PER_INT then s.resize else .ok s) =
      .ok { s with byteSize } ∧ (∃ k ≤ 23, byteSize = 133 * ((2 ^ k : Nat) : Int) - 5) ∧
        (s.bytes.length : Int) + 5 ≤ byteSize := by
  obtain ⟨k, hk, hsize⟩ := h.byteSize
  have hle := h.le
  rw [h.makeRoom_condition]
  rw [LARGEST] at hroom
  split
  · rename_i hsmall
    have hk' : k + 1 ≤ 23 := by
      by_contra hlast
      obtain rfl : k = 23 := by omega
      omega
    have hpow : 2 ^ (k + 1) ≤ 2 ^ 23 := Nat.pow_le_pow_right (by decide) hk'
    have hdouble : 2 ^ (k + 1) = 2 * 2 ^ k := by ring
    have hmul : mulInt32 s.byteSize 2 = s.byteSize * 2 := toInt32_of_lt (by omega) (by omega)
    have hadd : addInt32 (s.byteSize * 2) MAX_BYTES_PER_INT = s.byteSize * 2 + 5 :=
      toInt32_of_lt (by simp only [MAX_BYTES_PER_INT, BIT_SHIFT]; omega) (by simp only [MAX_BYTES_PER_INT, BIT_SHIFT]; omega)
    refine ⟨s.byteSize * 2 + 5, ?_, ⟨k + 1, hk', by omega⟩, by omega⟩
    rw [resize, hmul, hadd]
    exact if_neg (by omega)
  · exact ⟨s.byteSize, rfl, h.byteSize, by omega⟩

theorem Growing.no_room (h : Growing s) (hfull : LARGEST < s.bytes.length + 5) :
    (if s.byteSize < addInt32 s.bytes.length MAX_BYTES_PER_INT then s.resize else .ok s) = .error .noMemory := by
  obtain ⟨k, hk, hsize⟩ := h.byteSize
  have hle := h.le
  rw [LARGEST] at hfull
  have hlast : k = 23 := by
    by_contra hne
    have hpow : 2 ^ k ≤ 2 ^ 22 := Nat.pow_le_pow_right (by decide) (by omega)
    omega
  subst hlast
  have hbyteSize : s.byteSize = 1115684859 := hsize
  rw [h.makeRoom_condition, if_pos (by omega), resize, hbyteSize]
  rfl

theorem toInt32_diff (h : Growing s) (hle : s.lastInt ≤ x) (hlt : x < 2 ^ 31) :
    toInt32 (x - s.lastInt) = x - s.lastInt := by
  have hge := h.nonneg
  exact toInt32_of_lt (by omega) (by omega)

theorem Growing.addInt (h : Growing s) (hle : s.lastInt ≤ x) (hlt : x < 2 ^ 31)
    (hroom : s.bytes.length + 5 ≤ LARGEST) :
    ∃ t, s.addInt x = .ok t ∧ Growing t ∧ t.bytes = s.bytes ++ VarInt.encode (x - s.lastInt).toNat ∧
      t.size = s.size + 1 ∧ t.lastInt = x := by
  obtain ⟨byteSize, hmake, hsize, hfit⟩ := h.makeRoom hroom
  have hge := h.nonneg
  have hlength : (VarInt.encode (x - s.lastInt).toNat).length ≤ 5 :=
    VarInt.length_encode_le 4 (lt_of_lt_of_le (show (x - s.lastInt).toNat < 2 ^ 31 by omega) (by decide))
  refine ⟨⟨s.size + 1, s.bytes ++ VarInt.encode (x - s.lastInt).toNat, byteSize, x⟩, ?_, ⟨hsize, ?_, hge.trans hle, hlt⟩,
    rfl, rfl, rfl⟩
  · rw [SortedVIntList.addInt, toInt32_diff h hle hlt, if_neg (by omega), hmake]
    have hput : ({ s with byteSize } : SortedVIntList).put (VarInt.encode (x - s.lastInt).toNat) =
        .ok ⟨s.size, s.bytes ++ VarInt.encode (x - s.lastInt).toNat, byteSize, s.lastInt⟩ :=
      if_neg (by rw [List.length_append]; push_cast; omega)
    change (({ s with byteSize } : SortedVIntList).put _).map _ = _
    rw [hput]
    rfl
  · rw [List.length_append]
    push_cast
    omega

theorem Growing.addInt_full (h : Growing s) (hle : s.lastInt ≤ x) (hlt : x < 2 ^ 31)
    (hfull : LARGEST < s.bytes.length + 5) : s.addInt x = .error .noMemory := by
  rw [SortedVIntList.addInt, toInt32_diff h hle hlt, if_neg (by omega), h.no_room hfull]
  rfl

theorem Growing.addInts (h : Growing s) (habove : Above s.lastInt l) :
    (Roomy s.bytes.length s.lastInt l → ∃ t, addInts l s = .ok t ∧ t.bytes = s.bytes ++ encodeFrom s.lastInt l ∧
      t.size = s.size + l.length) ∧
    (¬ Roomy s.bytes.length s.lastInt l → SortedVIntList.addInts l s = .error .noMemory) := by
  induction l generalizing s with
  | nil => exact ⟨fun _ => ⟨s, rfl, (List.append_nil _).symm, rfl⟩, fun hnot => absurd trivial hnot⟩
  | cons x l ih =>
      obtain ⟨hle, hlt, habove⟩ := habove
      by_cases hroom : s.bytes.length + 5 ≤ LARGEST
      · obtain ⟨t, hadd, ht, hbytes, hsize, hlast⟩ := h.addInt hle hlt hroom
        obtain ⟨hok, herror⟩ := ih ht (hlast ▸ habove)
        have hrest : SortedVIntList.addInts (x :: l) s = SortedVIntList.addInts l t := by
          rw [SortedVIntList.addInts, hadd]
          rfl
        have hiff : Roomy s.bytes.length s.lastInt (x :: l) ↔ Roomy t.bytes.length t.lastInt l := by
          rw [Roomy, hbytes, hlast, List.length_append]
          exact and_iff_right hroom
        rw [hrest, hiff]
        refine ⟨fun hroomy => ?_, herror⟩
        obtain ⟨u, hu, hubytes, husize⟩ := hok hroomy
        refine ⟨u, hu, ?_, ?_⟩
        · rw [hubytes, hbytes, hlast, encodeFrom, List.append_assoc]
        · rw [husize, hsize, List.length_cons]
          omega
      · refine ⟨fun hroomy => absurd hroomy.1 hroom, fun _ => ?_⟩
        rw [SortedVIntList.addInts, h.addInt_full hle hlt (by omega)]
        rfl

theorem readDiff_encode (n i : Nat) {lastInt : Int} (left : List UInt8) (hge : 0 ≤ lastInt)
    (hlt : lastInt + (n * 2 ^ i : Nat) < 2 ^ 31) :
    readDiff (VarInt.encode n ++ left) i lastInt = some (lastInt + (n * 2 ^ i : Nat), left) := by
  induction n using Nat.strongRecOn generalizing i lastInt with
  | ind n ih =>
      have hle : n % 128 * 2 ^ i ≤ n * 2 ^ i := Nat.mul_le_mul_right _ (Nat.mod_le n 128)
      have hshift : toInt32 ((n % 128) <<< i : Nat) = (n % 128 * 2 ^ i : Nat) := by
        rw [Nat.shiftLeft_eq]
        exact toInt32_of_lt (by omega) (by omega)
      have hadd : addInt32 lastInt (n % 128 * 2 ^ i : Nat) = lastInt + (n % 128 * 2 ^ i : Nat) :=
        toInt32_of_lt (by omega) (by omega)
      by_cases hsmall : n < 128
      · have hb : (UInt8.ofNat n).toNat = n := by
          rw [UInt8.toNat_ofNat']
          omega
        rw [VarInt.encode_of_lt hsmall, List.singleton_append, readDiff, hb, hshift, hadd, if_neg (by omega),
          Nat.mod_eq_of_lt hsmall]
      · have hb : (UInt8.ofNat (n % 128 + 128)).toNat = n % 128 + 128 := by
          rw [UInt8.toNat_ofNat']
          omega
        have hsplit : n % 128 * 2 ^ i + n / 128 * 2 ^ (i + 7) = n * 2 ^ i := by
          calc n % 128 * 2 ^ i + n / 128 * 2 ^ (i + 7) = (n % 128 + 128 * (n / 128)) * 2 ^ i := by ring
            _ = n * 2 ^ i := by rw [Nat.mod_add_div]
        rw [VarInt.encode_of_ge (by omega), List.cons_append, readDiff, hb, Nat.add_mod_right, Nat.mod_mod, hshift, hadd,
          if_pos (by omega), BIT_SHIFT, ih (n / 128) (by omega) (i + 7) (by omega) (by omega), ← hsplit]
        push_cast
        rw [add_assoc]

/-- The numbers are left to be read. -/
structure Cursor.On (c : Cursor) (l : List Int) : Prop where
  left : c.left = encodeFrom c.lastInt l
  above : Above c.lastInt l
  nonneg : 0 ≤ c.lastInt

theorem length_le_encodeFrom (last : Int) (l : List Int) : l.length ≤ (encodeFrom last l).length := by
  induction l generalizing last with
  | nil => exact Nat.zero_le _
  | cons x l ih =>
      have hpos := VarInt.length_encode_pos (x - last).toNat
      have hle := ih x
      rw [encodeFrom, List.length_append, List.length_cons]
      omega

namespace Cursor
variable {c : Cursor}

theorem On.left_eq_nil_iff (h : c.On l) : c.left = [] ↔ l = [] := by
  rw [h.left]
  constructor
  · intro hnil
    have hle := length_le_encodeFrom c.lastInt l
    rw [hnil] at hle
    exact List.length_eq_zero_iff.mp (Nat.le_zero.mp hle)
  · rintro rfl
    rfl

theorem On.read (h : c.On (x :: l)) : c.read = some ⟨encodeFrom x l, x, c.doc⟩ := by
  obtain ⟨hle, hlt, -⟩ := h.above
  have hge := h.nonneg
  have hdiff : c.lastInt + ((x - c.lastInt).toNat * 2 ^ 0 : Nat) = x := by
    rw [pow_zero, Nat.mul_one]
    omega
  rw [Cursor.read, h.left, encodeFrom, readDiff_encode _ 0 _ hge (by omega), hdiff]
  rfl

theorem On.found (h : c.On (x :: l)) (doc : Int) : On ⟨encodeFrom x l, x, doc⟩ l :=
  ⟨rfl, h.above.2.2, h.nonneg.trans h.above.1⟩

theorem On.exhausted (h : c.On []) : c.exhausted.2.On [] := ⟨h.left, h.above, h.nonneg⟩

theorem On.nextDoc (h : c.On l) : ∃ c', c.nextDoc = some ((next l).1, c') ∧ c'.On (next l).2 := by
  rw [Cursor.nextDoc]
  cases l with
  | nil => exact ⟨_, if_pos (h.left_eq_nil_iff.mpr rfl), h.exhausted⟩
  | cons x l =>
      rw [if_neg (h.left_eq_nil_iff.not.mpr (List.cons_ne_nil x l)), h.read]
      exact ⟨_, rfl, h.found x⟩

theorem On.advanceTo (h : c.On l) (target : Int) {rounds : Nat} (hrounds : l.length < rounds) :
    ∃ c', Cursor.advanceTo target rounds c = some ((next (l.dropWhile (· < target))).1, c') ∧
      c'.On (next (l.dropWhile (· < target))).2 := by
  induction rounds generalizing c l with
  | zero => exact absurd hrounds (Nat.not_lt_zero _)
  | succ rounds ih =>
      rw [Cursor.advanceTo]
      cases l with
      | nil => exact ⟨_, if_pos (h.left_eq_nil_iff.mpr rfl), h.exhausted⟩
      | cons x l =>
          rw [if_neg (h.left_eq_nil_iff.not.mpr (List.cons_ne_nil x l)), h.read, Option.bind_some]
          by_cases htarget : target ≤ x
          · rw [List.dropWhile_cons_of_neg (by simpa using htarget)]
            exact ⟨_, if_pos htarget, h.found x⟩
          · rw [List.dropWhile_cons_of_pos (by simpa using htarget), if_neg htarget]
            exact ih (h.found c.doc) (by rw [List.length_cons] at hrounds; omega)

theorem On.call (h : c.On l) (call : IteratorCall) :
    ∃ c', c.call call = some ((listCall l call).1, c') ∧ c'.On (listCall l call).2 := by
  cases call with
  | nextDoc => exact h.nextDoc
  | advance target =>
      refine h.advanceTo target ?_
      rw [h.left]
      exact Nat.lt_succ_of_le (length_le_encodeFrom c.lastInt l)

theorem On.answers (h : c.On l) (calls : List IteratorCall) : c.answers calls = some (listAnswers l calls) := by
  induction calls generalizing c l with
  | nil => rfl
  | cons call calls ih =>
      obtain ⟨c', hcall, hon⟩ := h.call call
      rw [Cursor.answers, hcall, Option.bind_some]
      dsimp only
      rw [ih hon]
      rfl

end Cursor

/-! ### The constructors -/

/-- All numbers but the last are followed by room for one of five bytes. -/
def Fits (l : List Int) : Prop := (encodeFrom 0 l.dropLast).length + MAX_BYTES_PER_INT ≤ LARGEST

theorem roomy_iff {len : Nat} {last : Int} (hle : len + MAX_BYTES_PER_INT ≤ LARGEST) :
    Roomy len last l ↔ len + (encodeFrom last l.dropLast).length + MAX_BYTES_PER_INT ≤ LARGEST := by
  induction l generalizing len last with
  | nil => exact iff_of_true trivial hle
  | cons x l ih =>
      cases l with
      | nil => exact iff_of_true ⟨hle, trivial⟩ hle
      | cons y l =>
          rw [Roomy, List.dropLast_cons_cons, encodeFrom, List.length_append]
          by_cases hnext : len + (VarInt.encode (x - last).toNat).length + MAX_BYTES_PER_INT ≤ LARGEST
          · rw [ih hnext]
            omega
          · refine iff_of_false (fun h => hnext h.2.1) ?_
            omega

/-- The constructor has made a list of these numbers. -/
def Built (r : Except Error SortedVIntList) (l : List Int) : Prop := ∃ s, r = .ok s ∧ Lists s l

theorem built_addInts (habove : Above 0 l) : Built ((addInts l initBytes).map trim) l ↔ Fits l := by
  obtain ⟨hok, herror⟩ := @Growing.addInts initBytes l growing_initBytes habove
  have hroomy : Roomy 0 0 l ↔ Fits l := by
    rw [roomy_iff (by decide), Fits, Nat.zero_add]
  rw [← hroomy]
  constructor
  · rintro ⟨s, hs, -⟩
    by_contra hnot
    rw [herror hnot] at hs
    cases hs
  · intro hfits
    obtain ⟨t, ht, hbytes, hsize⟩ := hok hfits
    have hon : Cursor.On t.trim.iterator l := ⟨hbytes, habove, le_rfl⟩
    exact ⟨t.trim, by rw [ht]; rfl, hsize.trans (Nat.zero_add _), hon.answers⟩

/-- Sorted numbers of an `int32_t`. -/
structure Numbers (l : List Int) : Prop where
  sorted : l.Pairwise (· ≤ ·)
  range : ∀ x ∈ l, 0 ≤ x ∧ x < 2 ^ 31

theorem Numbers.above (h : Numbers l) {last : Int} (hlast : ∀ x ∈ l, last ≤ x) : Above last l := by
  induction l generalizing last with
  | nil => trivial
  | cons x l ih =>
      have htail : Numbers l := ⟨h.sorted.of_cons, fun y hy => h.range y (List.mem_cons_of_mem x hy)⟩
      exact ⟨hlast x List.mem_cons_self, (h.range x List.mem_cons_self).2,
        ih htail fun y hy => List.rel_of_pairwise_cons h.sorted hy⟩

theorem Numbers.built_iff (h : Numbers l) : Built ((addInts l initBytes).map trim) l ↔ Fits l :=
  built_addInts (h.above fun x hx => (h.range x hx).1)

theorem addFirst_eq (sortedInts : List Int) {n i : Nat} (h : i + n ≤ sortedInts.length) (s : SortedVIntList) :
    addFirst sortedInts n i s = addInts ((sortedInts.drop i).take n) s := by
  induction n generalizing i s with
  | zero => rfl
  | succ n ih =>
      have hi : i < sortedInts.length := by omega
      rw [addFirst, List.drop_eq_getElem_cons hi, List.take_succ_cons, addInts, List.getElem?_eq_getElem hi]
      exact congrArg (s.addInt sortedInts[i]).bind (funext fun t => ih (by omega) t)

/-- From the answer `r` on, the calls of `nextSetBit` give these numbers, and then `last`. -/
def Follows (nextSetBit : Int → Except Error Int) (last : Except Error Int) : Except Error Int → List Int → Prop
  | r, [] => r = last
  | r, x :: l => r = .ok x ∧ x ≠ -1 ∧ Follows nextSetBit last (nextSetBit (addInt32 x 1)) l

theorem Follows.addBits {nextSetBit : Int → Except Error Int} {last r : Except Error Int}
    (h : Follows nextSetBit last r l) (rounds : Nat) (s : SortedVIntList) :
    (r.bind fun nextInt => addBits nextSetBit (l.length + rounds) nextInt s) =
      (addInts l s).bind fun s => last.bind fun nextInt => addBits nextSetBit rounds nextInt s := by
  induction l generalizing r s with
  | nil =>
      rw [show r = last from h, List.length_nil, Nat.zero_add]
      rfl
  | cons x l ih =>
      obtain ⟨rfl, hne, hnext⟩ := h
      rw [List.length_cons, Nat.add_right_comm]
      change SortedVIntList.addBits nextSetBit (l.length + rounds + 1) x s = ((s.addInt x).bind (addInts l)).bind _
      rw [SortedVIntList.addBits, if_neg hne]
      cases s.addInt x with
      | error e => rfl
      | ok t => exact ih hnext t

theorem follows_of_least {nextSetBit : Int → Except Error Int} {last : Except Error Int} {E : Nat → Prop}
    (hnext : ∀ n : Nat, n = 0 ∨ E (n - 1) →
      (∃ e : Nat, nextSetBit (toInt32 n) = .ok e ∧ E e ∧ n ≤ e ∧ ∀ e', E e' → n ≤ e' → e ≤ e') ∨
        nextSetBit (toInt32 n) = last ∧ ∀ e, E e → e < n)
    {L : List Nat} (hsorted : L.Pairwise (· < ·)) {n : Nat} (hn : n = 0 ∨ E (n - 1)) (hmem : ∀ e, e ∈ L ↔ E e ∧ n ≤ e) :
    Follows nextSetBit last (nextSetBit (toInt32 n)) (L.map Nat.cast) := by
  induction L generalizing n with
  | nil =>
      rcases hnext n hn with ⟨e, -, he, hle, -⟩ | ⟨hlast, -⟩
      · cases (hmem e).mpr ⟨he, hle⟩
      · exact hlast
  | cons x L ih =>
      obtain ⟨hx, hnx⟩ := (hmem x).mp List.mem_cons_self
      rcases hnext n hn with ⟨e, heq, he, hle, hleast⟩ | ⟨-, hnone⟩
      · have hex : e = x := by
          rcases List.mem_cons.mp ((hmem e).mpr ⟨he, hle⟩) with rfl | htail
          · rfl
          · have hlt := List.rel_of_pairwise_cons hsorted htail
            have hge := hleast x hx hnx
            omega
        subst hex
        have hcast : addInt32 e 1 = toInt32 ((e + 1 : Nat) : Int) := by
          rw [addInt32]
          push_cast
          rfl
        refine ⟨heq, by omega, ?_⟩
        rw [hcast]
        refine @ih hsorted.of_cons (e + 1) (Or.inr hx) fun e' => ?_
        constructor
        · intro htail
          exact ⟨((hmem e').mp (List.mem_cons_of_mem _ htail)).1, List.rel_of_pairwise_cons hsorted htail⟩
        · rintro ⟨he', hlt⟩
          rcases List.mem_cons.mp ((hmem e').mpr ⟨he', by omega⟩) with rfl | htail
          · omega
          · exact htail
      · exact absurd (hnone x hx) (by omega)

/-- The bits of a set that are documents, in their order. -/
structure Bits (L : List Nat) : Prop where
  sorted : L.Pairwise (· < ·)
  lt : ∀ i ∈ L, i < 2 ^ 31

variable {L : List Nat}

theorem Bits.numbers (h : Bits L) : Numbers (L.map Nat.cast) where
  sorted := List.pairwise_map.mpr (h.sorted.imp fun hlt => Int.ofNat_le.mpr hlt.le)
  range x hx := by
    obtain ⟨i, hi, rfl⟩ := List.mem_map.mp hx
    have hlt := h.lt i hi
    omega

theorem length_le_of_lt {bound : Nat} (hsorted : L.Pairwise (· < ·)) (hlt : ∀ i ∈ L, i < bound) : L.length ≤ bound := by
  have hnodup : L.Nodup := hsorted.imp fun hij => hij.ne
  have hsub := (List.subperm_of_subset hnodup fun i hi => List.mem_range.mpr (hlt i hi)).length_le
  rwa [List.length_range] at hsub

theorem built_ofBits {nextSetBit : Int → Except Error Int} (hL : Bits L)
    (h : Follows nextSetBit (.ok (-1)) (nextSetBit 0) (L.map Nat.cast)) {rounds : Nat} (hrounds : L.length < rounds) :
    Built (ofBits nextSetBit rounds) (L.map Nat.cast) ↔ Fits (L.map Nat.cast) := by
  obtain ⟨k, rfl⟩ := Nat.exists_eq_add_of_lt hrounds
  have heq := h.addBits (k + 1) initBytes
  rw [List.length_map] at heq
  rw [← hL.numbers.built_iff, ofBits, Nat.add_assoc, heq]
  have hstop : ∀ s, addBits nextSetBit (k + 1) (-1) s = .ok s := fun s => if_pos rfl
  cases addInts (L.map Nat.cast) initBytes with
  | error e => exact Iff.rfl
  | ok s =>
      change Built ((addBits nextSetBit (k + 1) (-1) s).map trim) _ ↔ _
      rewrite [hstop]
      exact Iff.rfl

theorem built_ofBitSet {bits : BitSet} (hL : Bits L) (hbits : ∀ i, bits.get i = true ↔ i ∈ L) :
    Built (ofBitSet bits) (L.map Nat.cast) ↔ Fits (L.map Nat.cast) := by
  have hlength : L.length ≤ bits.bitSet.length :=
    length_le_of_lt hL.sorted fun i hi => bits.lt_length_of_get ((hbits i).mpr hi)
  refine built_ofBits hL ?_ (Nat.lt_succ_of_le hlength)
  refine @follows_of_least _ _ (· ∈ L) (fun n hn => ?_) L hL.sorted 0 (Or.inl rfl) fun e => (and_iff_left (Nat.zero_le e)).symm
  have hle : n ≤ 2 ^ 31 := by
    rcases hn with rfl | hmem
    · exact Nat.zero_le _
    · have hlt := hL.lt _ hmem
      omega
  have hmod : (toInt32 n % 2 ^ 32).toNat = n := by
    rw [toInt32]
    omega
  rw [hmod, BitSet.nextSetBit]
  cases hfind : bits.findFrom n with
  | none =>
      rw [BitSet.findFrom_eq_none] at hfind
      refine Or.inr ⟨rfl, fun e he => ?_⟩
      by_contra hge
      rw [← hbits, hfind e (by omega)] at he
      cases he
  | some e =>
      rw [BitSet.findFrom_eq_some] at hfind
      obtain ⟨hge, hget, hbefore⟩ := hfind
      have he := (hbits e).mp hget
      have hlt := hL.lt e he
      refine Or.inl ⟨e, ?_, he, hge, fun e' he' hle' => ?_⟩
      · exact congrArg Except.ok (toInt32_of_lt (by omega) (by omega))
      · by_contra hlt'
        rw [← hbits, hbefore e' hle' (by omega)] at he'
        cases he'

theorem built_ofOpenBitSet {bits : OpenBitSet} (hvalid : OpenBitSet.Valid bits) (hL : Bits L)
    (hbits : ∀ i, i ∈ bits.elements ↔ i ∈ L) :
    Built (ofOpenBitSet bits) (L.map Nat.cast) ↔ Fits (L.map Nat.cast) := by
  have hlength : L.length ≤ 64 * bits.bits.length :=
    length_le_of_lt hL.sorted fun i hi => by
      have hlt := OpenBitSet.lt_of_has (OpenBitSet.mem_elements.mp ((hbits i).mpr hi))
      omega
  refine built_ofBits hL ?_ (Nat.lt_succ_of_le hlength)
  refine @follows_of_least _ _ (· ∈ L) (fun n hn => ?_) L hL.sorted 0 (Or.inl rfl) fun e => (and_iff_left (Nat.zero_le e)).symm
  have hle : n ≤ 2 ^ 31 := by
    rcases hn with rfl | hmem
    · exact Nat.zero_le _
    · have hlt := hL.lt _ hmem
      omega
  -- behind bit `2 ^ 31 - 1` the index is the least `int32_t`, whose word is behind those of all numbers
  have hmod : (toInt32 n % 2 ^ 32).toNat = n := by
    rw [toInt32]
    omega
  rw [hmod, hvalid.nextSetBit32_eq (by omega)]
  rcases hvalid.isNext_nextSetBit (show n < 2 ^ 37 by omega) with ⟨hr, hnone⟩ | ⟨e, he, hr, hle, hleast⟩
  · rw [hr]
    exact Or.inr ⟨rfl, fun e he => hnone e ((hbits e).mpr he)⟩
  · have hlt' := hL.lt e ((hbits e).mp he)
    rw [hr]
    exact Or.inl ⟨e, congrArg Except.ok (toInt32_of_lt (by omega) (by omega)), (hbits e).mp he, hle,
      fun e' he' => hleast e' ((hbits e').mpr he')⟩

/-- The calls of `nextDoc` give these documents, and then `NO_MORE_DOCS`. -/
def Gives {σ : Type} (it : DocIdSetIterator σ) : σ → List Int → Prop
  | docs, [] => (it.nextDoc docs).1 = NO_MORE_DOCS
  | docs, x :: l => (it.nextDoc docs).1 = x ∧ x ≠ NO_MORE_DOCS ∧ Gives it (it.nextDoc docs).2 l

theorem Gives.addDocs {σ : Type} {it : DocIdSetIterator σ} {docs : σ} (h : Gives it docs l) {rounds : Nat}
    (hrounds : l.length < rounds) (s : SortedVIntList) :
    SortedVIntList.addDocs it rounds docs s = addInts l s := by
  induction l generalizing docs rounds s with
  | nil =>
      obtain ⟨k, rfl⟩ := Nat.exists_eq_succ_of_ne_zero (Nat.pos_iff_ne_zero.mp hrounds)
      exact if_pos h
  | cons x l ih =>
      obtain ⟨k, rfl⟩ := Nat.exists_eq_succ_of_ne_zero (Nat.ne_zero_of_lt hrounds)
      obtain ⟨hdoc, hne, hnext⟩ := h
      rw [SortedVIntList.addDocs]
      dsimp only
      rw [hdoc, if_neg hne, addInts]
      exact congrArg (s.addInt x).bind (funext fun t => ih hnext (Nat.lt_of_succ_lt_succ hrounds) t)

/-- Each constructor that is given numbers makes their list if and only if their bytes fit. -/
structure ConstructorsExact (l : List Int) : Prop where
  ofInts : Built (ofInts l) l ↔ Fits l
  ofFirstInts : ∀ ints n, n ≤ ints.length → ints.take n = l → (Built (ofFirstInts ints n) l ↔ Fits l)
  ofBitSet : ∀ (bits : BitSet) L, Bits L → (∀ i, bits.get i = true ↔ i ∈ L) → L.map Nat.cast = l →
    (Built (ofBitSet bits) l ↔ Fits l)
  ofOpenBitSet : ∀ (bits : OpenBitSet) L, OpenBitSet.Valid bits → Bits L → (∀ i, i ∈ bits.elements ↔ i ∈ L) →
    L.map Nat.cast = l → (Built (ofOpenBitSet bits) l ↔ Fits l)
  ofIterator : ∀ {σ : Type} (it : DocIdSetIterator σ) docs rounds, Gives it docs l → l.length < rounds →
    (Built (ofIterator it rounds docs) l ↔ Fits l)

theorem lists_if_fits (l : List Int) (hl : Numbers l) : ConstructorsExact l where
  ofInts := hl.built_iff
  ofFirstInts ints n hn hints := by
    rw [SortedVIntList.ofFirstInts, addFirst_eq ints (by omega), List.drop_zero, hints]
    exact hl.built_iff
  ofBitSet _ _ hL hbits heq := heq ▸ built_ofBitSet hL hbits
  ofOpenBitSet _ _ hvalid hL hbits heq := heq ▸ built_ofOpenBitSet hvalid hL hbits
  ofIterator it docs rounds hgives hrounds := by
    rw [SortedVIntList.ofIterator, hgives.addDocs hrounds]
    exact hl.built_iff

theorem lists_if_fits_two : Numbers [3, 5] ∧ ConstructorsExact [3, 5] :=
  have hnumbers : Numbers [3, 5] := ⟨by decide, by decide⟩
  ⟨hnumbers, lists_if_fits [3, 5] hnumbers⟩

theorem length_encodeFrom_replicate (n : Nat) : (encodeFrom 0 (List.replicate n 0)).length = n := by
  induction n with
  | zero => rfl
  | succ n ih =>
      rw [List.replicate_succ, encodeFrom, List.length_append, ih, Int.sub_zero, VarInt.encode_of_lt (by decide)]
      exact Nat.add_comm 1 n

theorem numbers_replicate (n : Nat) : Numbers (List.replicate n 0) where
  sorted := List.pairwise_replicate.mpr (Or.inr le_rfl)
  range x hx := by
    rw [List.eq_of_mem_replicate hx]
    decide

/-- The array of so many numbers cannot grow any more. -/
theorem largest_list_fails : ∃ l, Numbers l ∧ ¬ Built (ofInts l) l := by
  obtain ⟨n, hn⟩ : ∃ n, n = 1115684855 := ⟨_, rfl⟩
  refine ⟨List.replicate (n + 1) 0, numbers_replicate _, fun h => ?_⟩
  have hfits := (numbers_replicate (n + 1)).built_iff.mp h
  rw [Fits, List.dropLast_replicate, Nat.add_sub_cancel, length_encodeFrom_replicate, LARGEST, MAX_BYTES_PER_INT,
    BIT_SHIFT] at hfits
  omega

end SortedVIntList
end LucenePlusPlus
