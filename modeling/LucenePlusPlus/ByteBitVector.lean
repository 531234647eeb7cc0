import LucenePlusPlus.IndexFormat
import LucenePlusPlus.WordBits

/-!
`BitVector` with its bytes: how bits are set and counted, and the two formats of the file that it is written to. The
constructor takes one byte more than `subset` when the size is divisible by eight.
-/

namespace LucenePlusPlus
open WordBits Decoders IndexOutput IndexInput

/-- `BitVector`; `cached` is -1 when the bits have to be counted. -/
structure ByteBitVector where
  bits : List (BitVec 8)
  size : Nat
  cached : Int
deriving DecidableEq

namespace ByteBitVector

def BYTE_COUNTS : List Nat := [
  0, 1, 1, 2, 1, 2, 2, 3, 1, 2, 2, 3, 2, 3, 3, 4, 1, 2, 2, 3, 2, 3, 3, 4, 2, 3, 3, 4, 3, 4, 4, 5,
  1, 2, 2, 3, 2, 3, 3, 4, 2, 3, 3, 4, 3, 4, 4, 5, 2, 3, 3, 4, 3, 4, 4, 5, 3, 4, 4, 5, 4, 5, 5, 6,
  1, 2, 2, 3, 2, 3, 3, 4, 2, 3, 3, 4, 3, 4, 4, 5, 2, 3, 3, 4, 3, 4, 4, 5, 3, 4, 4, 5, 4, 5, 5, 6,
  2, 3, 3, 4, 3, 4, 4, 5, 3, 4, 4, 5, 4, 5, 5, 6, 3, 4, 4, 5, 4, 5, 5, 6, 4, 5, 5, 6, 5, 6, 6, 7,
  1, 2, 2, 3, 2, 3, 3, 4, 2, 3, 3, 4, 3, 4, 4, 5, 2, 3, 3, 4, 3, 4, 4, 5, 3, 4, 4, 5, 4, 5, 5, 6,
  2, 3, 3, 4, 3, 4, 4, 5, 3, 4, 4, 5, 4, 5, 5, 6, 3, 4, 4, 5, 4, 5, 5, 6, 4, 5, 5, 6, 5, 6, 6, 7,
  2, 3, 3, 4, 3, 4, 4, 5, 3, 4, 4, 5, 4, 5, 5, 6, 3, 4, 4, 5, 4, 5, 5, 6, 4, 5, 5, 6, 5, 6, 6, 7,
  3, 4, 4, 5, 4, 5, 5, 6, 4, 5, 5, 6, 5, 6, 6, 7, 4, 5, 5, 6, 5, 6, 6, 7, 5, 6, 6, 7, 6, 7, 7, 8]

def byteCount (b : BitVec 8) : Nat := BYTE_COUNTS.getD b.toNat 0

theorem byteCount_eq_pop (b : BitVec 8) : byteCount b = pop b := by
  have hall : ∀ n < 256, byteCount (BitVec.ofNat 8 n) = pop (BitVec.ofNat 8 n) := by decide +kernel
  have hb := hall b.toNat b.isLt
  rwa [BitVec.ofNat_toNat, BitVec.setWidth_eq] at hb

def ofSize (n : Nat) : ByteBitVector := ⟨List.replicate ((n >>> 3) + 1) 0, n, 0⟩

/-- `BitVector(ByteArray, int32_t)`. -/
def ofBits (bits : List (BitVec 8)) (size : Nat) : ByteBitVector := ⟨bits, size, -1⟩

section Model
variable (v : ByteBitVector)

def clone : ByteBitVector := { ofBits v.bits v.size with cached := v.cached }

/-- The byte of a bit, and the bit in it. -/
def byteOf (bit : Nat) : BitVec 8 := v.bits.getD (bit >>> 3) 0

def flag (bit : Nat) : BitVec 8 := 1#8 <<< (bit &&& 7)

/-- There is no result when the bit is out of bounds. -/
def set (bit : Nat) : Option ByteBitVector :=
  if bit ≥ v.size then none
  else some { v with bits := v.bits.set (bit >>> 3) (v.byteOf bit ||| flag bit), cached := -1 }

def getAndSet (bit : Nat) : Option (Bool × ByteBitVector) :=
  if bit ≥ v.size then none
  else if flag bit &&& v.byteOf bit ≠ 0 then some (true, v)
  else
    some (false, { v with
      bits := v.bits.set (bit >>> 3) (v.byteOf bit ||| flag bit)
      cached := if v.cached ≠ -1 then v.cached + 1 else v.cached })

def clear (bit : Nat) : Option ByteBitVector :=
  if bit ≥ v.size then none
  else some { v with bits := v.bits.set (bit >>> 3) (v.byteOf bit &&& ~~~flag bit), cached := -1 }

def get (bit : Nat) : Bool := v.byteOf bit &&& flag bit ≠ 0

def getRecomputedCount : Nat := (v.bits.map byteCount).sum

def count : Int := if v.cached = -1 then v.getRecomputedCount else v.cached

/-- What `count` leaves. -/
def counted : ByteBitVector := { v with cached := v.count }

def subset (start last : Nat) : Option ByteBitVector :=
  if last > v.size ∨ last < start then none
  else if last = start then some (ofSize 0)
  else
    let length := ((last - start - 1) >>> 3) + 1
    let bits := (List.range length).map fun i =>
      let cur := v.bits.getD (i + start >>> 3) 0
      let next := if i + start >>> 3 + 1 ≥ v.bits.length then 0 else v.bits.getD (i + start >>> 3 + 1) 0
      cur >>> (start &&& 7) ||| next <<< (8 - (start &&& 7))
    let bitsToClear := (length * 8 - (last - start)) % 8
    some (ofBits (bits.set (length - 1) (bits.getD (length - 1) 0 &&& ~~~(0xff#8 <<< (8 - bitsToClear)))) (last - start))

/-- The bits that a gap takes at most in an array of this length. -/
def gapBits (length : Nat) : Nat :=
  if length < 1 <<< 7 then 8
  else if length < 1 <<< 14 then 16
  else if length < 1 <<< 21 then 24
  else if length < 1 <<< 28 then 32
  else 40

def isSparse : Bool :=
  let factor := 10
  toInt32 (factor * (4 + (8 + gapBits v.bits.length) * v.count)) < v.size

def writeBits : List UInt8 := writeInt v.size ++ writeInt v.count ++ v.bits.map UInt8.ofBitVec

/-- The loop of `writeDgaps`, from byte `i` on. -/
def writeGaps : List (BitVec 8) → Nat → Nat → Int → List UInt8
  | [], _, _, _ => []
  | b :: bits, i, last, n =>
      if n ≤ 0 then []
      else if b ≠ 0 then
        writeVInt (i - last) ++ [UInt8.ofBitVec b] ++ writeGaps bits (i + 1) i (n - byteCount b)
      else writeGaps bits (i + 1) last n

def writeDgaps : List UInt8 := writeInt (-1) ++ writeInt v.size ++ writeInt v.count ++ writeGaps v.bits 0 0 v.count

def write : List UInt8 := if v.isSparse then v.writeDgaps else v.writeBits

end Model

section Reading
variable (wide : ∀ w, UInt8 → Nat → BitVec w)

def readBits (size : Nat) : Decoder InputError ByteBitVector := do
  let count ← readInt
  let bytes ← take .readPastEOF ((size >>> 3) + 1)
  pure ⟨bytes.map UInt8.toBitVec, size, count⟩

/-- The loop of `readDgaps`; a round reads two bytes at least. A byte outside the array is not defined. -/
def readGaps : Nat → List (BitVec 8) → Int → Int → Decoder InputError (List (BitVec 8))
  | 0, _, _, _ => throw .undefined
  | rounds + 1, bits, last, n =>
      if n ≤ 0 then pure bits
      else do
        let gap ← readVInt wide
        let b ← readByte
        let last := last + gap
        if last < 0 ∨ last ≥ bits.length then throw .undefined
        else readGaps rounds (bits.set last.toNat b.toBitVec) last (n - byteCount b.toBitVec)

def readDgaps : Decoder InputError ByteBitVector := do
  let size ← readInt
  let count ← readInt
  if size < 0 then throw .undefined
  else
    let v : ByteBitVector := ⟨List.replicate ((size.toNat >>> 3) + 1) 0, size.toNat, count⟩
    let input ← getThe (List UInt8)
    let bits ← readGaps wide (input.length + 1) v.bits 0 v.count
    pure { v with bits := bits }

/-- `BitVector(DirectoryPtr, String)`. An array cannot have a negative size. -/
def read : Decoder InputError ByteBitVector := do
  let size ← readInt
  if size = -1 then readDgaps wide
  else if size < 0 then throw .undefined
  else readBits size.toNat

end Reading

section Bits
variable {v w : ByteBitVector} {bit i : Nat}

theorem byteOf_eq (bit : Nat) : v.byteOf bit = v.bits.getD (bit / 8) 0 := by
  rw [byteOf, Nat.shiftRight_eq_div_pow]

theorem getLsbD_flag (bit : Nat) {k : Nat} (hk : k < 8) : (flag bit).getLsbD k = decide (k = bit % 8) := by
  have hand : bit &&& 7 = bit % 8 := Nat.and_two_pow_sub_one_eq_mod bit 3
  rw [flag, hand, BitVec.getLsbD_shiftLeft, BitVec.getLsbD_one, decide_eq_true hk, Bool.true_and]
  rcases Nat.lt_trichotomy k (bit % 8) with hlt | heq | hgt
  · simp [hlt, Nat.ne_of_lt hlt]
  · simp [heq]
  · simp [Nat.not_lt_of_gt hgt, Nat.ne_of_gt hgt, show k - bit % 8 ≠ 0 by omega]

theorem and_flag_ne_zero (b : BitVec 8) (bit : Nat) : b &&& flag bit ≠ 0 ↔ b.getLsbD (bit % 8) = true := by
  have hlt : bit % 8 < 8 := Nat.mod_lt _ (by decide)
  constructor
  · intro hne
    by_contra hbit
    rw [Bool.not_eq_true] at hbit
    refine hne (BitVec.eq_of_getLsbD_eq fun k hk => ?_)
    rw [BitVec.getLsbD_and, getLsbD_flag bit hk]
    by_cases heq : k = bit % 8
    · rw [heq, hbit, Bool.false_and]
      exact BitVec.getLsbD_zero.symm
    · rw [decide_eq_false heq, Bool.and_false]
      exact BitVec.getLsbD_zero.symm
  · intro hbit hzero
    have hk := congrArg (fun x => BitVec.getLsbD x (bit % 8)) hzero
    simp [getLsbD_flag bit hlt, hbit] at hk

theorem get_eq (bit : Nat) : v.get bit = WordBits.bit v.bits bit := by
  rw [get, byteOf_eq, WordBits.bit, Bool.eq_iff_iff, decide_eq_true_iff]
  exact and_flag_ne_zero _ bit

theorem bit_set_of {b : BitVec 8} {value : Bool} (h : bit / 8 < v.bits.length)
    (hb : ∀ k < 8, b.getLsbD k = if k = bit % 8 then value else (v.byteOf bit).getLsbD k) (i : Nat) :
    WordBits.bit (v.bits.set (bit >>> 3) b) i = if i = bit then value else WordBits.bit v.bits i := by
  rw [Nat.shiftRight_eq_div_pow, bit_set h, hb (i % 8) (Nat.mod_lt _ (by decide)), byteOf_eq]
  by_cases hword : i / 8 = bit / 8
  · rw [if_pos hword, ← hword]
    by_cases hmod : i % 8 = bit % 8
    · rw [if_pos hmod, if_pos (by omega)]
    · rw [if_neg hmod, if_neg (by omega)]
      rfl
  · rw [if_neg (by simpa using hword), if_neg (by omega)]

theorem getLsbD_or_flag (b : BitVec 8) (bit : Nat) (k : Nat) (hk : k < 8) :
    (b ||| flag bit).getLsbD k = if k = bit % 8 then true else b.getLsbD k := by
  rw [BitVec.getLsbD_or, getLsbD_flag bit hk]
  split_ifs with heq <;> simp [heq]

theorem getLsbD_and_not_flag (b : BitVec 8) (bit : Nat) (k : Nat) (hk : k < 8) :
    (b &&& ~~~flag bit).getLsbD k = if k = bit % 8 then false else b.getLsbD k := by
  rw [BitVec.getLsbD_and, BitVec.getLsbD_not, getLsbD_flag bit hk, decide_eq_true hk]
  split_ifs with heq <;> simp [heq]

end Bits

/-! ### Vectors that are reached -/

section Reached
variable {v w : ByteBitVector} {bit i : Nat}

/-- The bytes hold the bits, and no bit is set behind them. -/
structure Fits (bits : List (BitVec 8)) (size : Nat) : Prop where
  room : size ≤ 8 * bits.length
  padding : ∀ i, size ≤ i → WordBits.bit bits i = false

/-- The size is an `int32_t`, and a count that is known is that of the bits. -/
structure Sound (v : ByteBitVector) : Prop extends Fits v.bits v.size where
  size_lt : v.size < 0x80000000
  cached_eq : v.cached = -1 ∨ v.cached = popBelow v.bits v.size

theorem div_lt_of_fits {bits : List (BitVec 8)} {size : Nat} (h : Fits bits size) (hbit : bit < size) :
    bit / 8 < bits.length := by
  have hroom := h.room
  omega

theorem getRecomputedCount_eq (h : Fits v.bits v.size) : v.getRecomputedCount = popBelow v.bits v.size := by
  have hpop : v.bits.map byteCount = v.bits.map pop := List.map_congr_left fun b _ => byteCount_eq_pop b
  rw [getRecomputedCount, hpop, sum_pop (by decide), popBelow_of_le h.room h.padding]

theorem Sound.count_eq (h : Sound v) : v.count = popBelow v.bits v.size := by
  rw [count]
  split
  · rw [getRecomputedCount_eq h.toFits]
  · rename_i hne
    exact h.cached_eq.resolve_left hne

theorem Sound.counted (h : Sound v) : Sound v.counted where
  toFits := h.toFits
  size_lt := h.size_lt
  cached_eq := .inr h.count_eq

theorem bit_replicate_zero (n i : Nat) : WordBits.bit (List.replicate n (0 : BitVec 8)) i = false := by
  rw [WordBits.bit, List.getD_eq_getElem?_getD, List.getElem?_replicate]
  split <;> exact BitVec.getLsbD_zero

theorem sound_ofSize {n : Nat} (hn : n < 0x80000000) : Sound (ofSize n) where
  room := by
    have hlength : (ofSize n).bits.length = n / 8 + 1 := by
      rw [ofSize, List.length_replicate, Nat.shiftRight_eq_div_pow]
    have hsize : (ofSize n).size = n := rfl
    omega
  padding := fun i _ => bit_replicate_zero _ i
  size_lt := hn
  cached_eq := by
    refine .inr ?_
    rw [ofSize, popBelow, (Nat.count_iff_forall_not).mpr fun i _ => by rw [bit_replicate_zero]; exact Bool.false_ne_true]
    rfl

theorem sound_ofBits {bits : List (BitVec 8)} {size : Nat} (h : Fits bits size) (hsize : size < 0x80000000) :
    Sound (ofBits bits size) :=
  ⟨h, hsize, .inl rfl⟩

theorem fits_set {b : BitVec 8} {value : Bool} (h : Fits v.bits v.size) (hbit : bit < v.size)
    (hb : ∀ k < 8, b.getLsbD k = if k = bit % 8 then value else (v.byteOf bit).getLsbD k) :
    Fits (v.bits.set (bit >>> 3) b) v.size where
  room := by
    rw [List.length_set]
    exact h.room
  padding := by
    intro i hi
    rw [bit_set_of (div_lt_of_fits h hbit) hb, if_neg (by omega), h.padding i hi]

theorem Sound.set (h : Sound v) (hset : v.set bit = some w) : Sound w := by
  rw [ByteBitVector.set] at hset
  split_ifs at hset with hout
  cases hset
  exact ⟨fits_set h.toFits (by omega) (getLsbD_or_flag _ bit), h.size_lt, .inl rfl⟩

theorem Sound.clear (h : Sound v) (hclear : v.clear bit = some w) : Sound w := by
  rw [ByteBitVector.clear] at hclear
  split_ifs at hclear with hout
  cases hclear
  exact ⟨fits_set h.toFits (by omega) (getLsbD_and_not_flag _ bit), h.size_lt, .inl rfl⟩

theorem Sound.getAndSet (h : Sound v) {old : Bool} (hset : v.getAndSet bit = some (old, w)) : Sound w := by
  rw [ByteBitVector.getAndSet] at hset
  split_ifs at hset with hout hflag hcached
  · cases hset
    exact h
  all_goals
    cases hset
    refine ⟨fits_set h.toFits (by omega) (getLsbD_or_flag _ bit), h.size_lt, ?_⟩
  · have hunset : WordBits.bit v.bits bit = false := by
      rw [← get_eq, get]
      rw [BitVec.and_comm] at hflag
      exact decide_eq_false hflag
    have hbits := bit_set_of (div_lt_of_fits h.toFits (by omega)) (getLsbD_or_flag (v.byteOf bit) bit)
    have hcount := popBelow_insert (by omega : bit < v.size) hunset hbits
    refine .inr ?_
    rw [hcount, h.cached_eq.resolve_left hcached, Nat.cast_add_one]
  · exact .inl (not_not.mp hcached)

theorem Sound.clone (h : Sound v) : Sound v.clone := ⟨h.toFits, h.size_lt, h.cached_eq⟩

theorem getLsbD_shifted (v : ByteBitVector) (start i : Nat) {k : Nat} (hk : k < 8) :
    (v.bits.getD (i + start >>> 3) 0 >>> (start &&& 7) |||
      (if i + start >>> 3 + 1 ≥ v.bits.length then 0 else v.bits.getD (i + start >>> 3 + 1) 0) <<<
        (8 - (start &&& 7))).getLsbD k = WordBits.bit v.bits (start + (8 * i + k)) := by
  have hand : start &&& 7 = start % 8 := Nat.and_two_pow_sub_one_eq_mod start 3
  have hnext : (if i + start >>> 3 + 1 ≥ v.bits.length then 0 else v.bits.getD (i + start >>> 3 + 1) 0) =
      v.bits.getD (i + start >>> 3 + 1) 0 := by
    split_ifs with hge
    · rw [List.getD_eq_getElem?_getD, List.getElem?_eq_none hge]
      rfl
    · rfl
  rw [hnext, hand, Nat.shiftRight_eq_div_pow, BitVec.getLsbD_or, BitVec.getLsbD_ushiftRight,
    BitVec.getLsbD_shiftLeft, WordBits.bit, decide_eq_true hk, Bool.true_and]
  by_cases hlow : start % 8 + k < 8
  · rw [show (start + (8 * i + k)) / 8 = i + start / 2 ^ 3 by omega,
      show (start + (8 * i + k)) % 8 = start % 8 + k by omega, decide_eq_true (by omega : k < 8 - start % 8)]
    simp
  · rw [show (start + (8 * i + k)) / 8 = i + start / 2 ^ 3 + 1 by omega,
      show (start + (8 * i + k)) % 8 = k - (8 - start % 8) by omega,
      decide_eq_false (by omega : ¬ k < 8 - start % 8), BitVec.getLsbD_of_ge _ _ (by omega)]
    simp

theorem subset_spec {start last : Nat} (hsubset : v.subset start last = some w) (hlt : start < last) :
    w.size = last - start ∧ w.bits.length = (last - start - 1) / 8 + 1 ∧ w.cached = -1 ∧
      ∀ i, WordBits.bit w.bits i = if i < last - start then WordBits.bit v.bits (start + i) else false := by
  rw [subset] at hsubset
  split_ifs at hsubset with hout heq
  · omega
  obtain ⟨n, hn⟩ : ∃ n, n = last - start := ⟨_, rfl⟩
  rw [← hn] at hsubset ⊢
  have hlength : (n - 1) >>> 3 + 1 = (n - 1) / 8 + 1 := by rw [Nat.shiftRight_eq_div_pow]
  dsimp only at hsubset
  rw [hlength] at hsubset
  generalize hlen : (n - 1) / 8 + 1 = length at hsubset ⊢
  generalize hbits : (List.range length).map _ = bits at hsubset
  have hbitsLength : bits.length = length := by rw [← hbits, List.length_map, List.length_range]
  have hbyte : ∀ j < length, ∀ k < 8, (bits.getD j 0).getLsbD k = WordBits.bit v.bits (start + (8 * j + k)) := by
    intro j hj k hk
    rw [← hbits, List.getD_eq_getElem?_getD, List.getElem?_map, List.getElem?_range hj]
    exact getLsbD_shifted v start j hk
  cases hsubset
  refine ⟨rfl, by rw [ofBits, List.length_set, hbitsLength], rfl, fun i => ?_⟩
  have hmod : i % 8 < 8 := Nat.mod_lt _ (by decide)
  have hsplit : 8 * (i / 8) + i % 8 = i := Nat.div_add_mod i 8
  rw [ofBits, bit_set (by omega)]
  by_cases hlast : i / 8 = length - 1
  · rw [if_pos hlast, BitVec.getLsbD_and, hbyte _ (by omega) _ hmod, ← hlast, hsplit, BitVec.getLsbD_not,
      decide_eq_true hmod, Bool.true_and, BitVec.getLsbD_shiftLeft]
    by_cases hin : i < n
    · rw [if_pos hin, decide_eq_true (by omega : i % 8 < 8 - (length * 8 - n) % 8)]
      simp
    · have hmask : (0xff#8).getLsbD (i % 8 - (8 - (length * 8 - n) % 8)) = true := by
        have hall : ∀ m < 8, (0xff#8).getLsbD m = true := by decide
        exact hall _ (by omega)
      rw [if_neg hin, decide_eq_false (by omega : ¬ i % 8 < 8 - (length * 8 - n) % 8), hmask, decide_eq_true hmod]
      simp
  · rw [if_neg hlast]
    by_cases hin : i / 8 < length
    · rw [if_pos (by omega), WordBits.bit, hbyte _ hin _ hmod, hsplit]
    · rw [if_neg (by omega), bit_of_le (by omega)]

theorem Sound.subset (h : Sound v) {start last : Nat} (hsubset : v.subset start last = some w) : Sound w := by
  by_cases hlt : start < last
  · have hsize := h.size_lt
    have hle : last ≤ v.size := by
      by_contra hgt
      rw [ByteBitVector.subset, if_pos (by omega)] at hsubset
      cases hsubset
    obtain ⟨hw, hlength, hcached, hbits⟩ := subset_spec hsubset hlt
    refine ⟨⟨by omega, fun i hi => ?_⟩, by omega, .inl hcached⟩
    rw [hbits, if_neg (by omega)]
  · rw [ByteBitVector.subset] at hsubset
    split_ifs at hsubset with hout heq
    · cases hsubset
      exact sound_ofSize (by decide)
    · omega

end Reached

end ByteBitVector

end LucenePlusPlus
