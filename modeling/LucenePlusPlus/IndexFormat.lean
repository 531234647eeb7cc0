import LucenePlusPlus.BufferedIndexInput
import LucenePlusPlus.Decoders
import LucenePlusPlus.UTF8Stream
import LucenePlusPlus.VarInt

/-!
How `IndexOutput` writes integers and strings, and how `IndexInput` reads them back. Integers are written highest
byte first.
-/

namespace LucenePlusPlus
open Decoders

namespace IndexOutput

/-- The conversion to `uint8_t`. -/
def byteOf (i : Int) : UInt8 := .ofNat (i % 0x100).toNat

def writeInt (i : Int) : List UInt8 := [byteOf (i / 0x1000000), byteOf (i / 0x10000), byteOf (i / 0x100), byteOf i]

def writeLong (i : Int) : List UInt8 := writeInt (toInt32 (i / 0x100000000)) ++ writeInt (toInt32 i)

def writeVInt (i : Int) : List UInt8 := VarInt.encode (i % 0x100000000).toNat

/-- `size` is the one of the array that the octets are put in, which grows. -/
def writeString (size : Nat) (s : List WChar) : List UInt8 :=
  writeVInt (StringUtils.toUTF8 size s).length ++ StringUtils.toUTF8 size s

end IndexOutput

namespace IndexInput
variable (wide : ∀ w, UInt8 → Nat → BitVec w)

def readByte : Decoder InputError UInt8 := next .readPastEOF

def readInt : Decoder InputError Int := do
  let b₀ ← readByte
  let b₁ ← readByte
  let b₂ ← readByte
  let b₃ ← readByte
  pure (toInt32 (b₀.toNat * 0x1000000 + b₁.toNat * 0x10000 + b₂.toNat * 0x100 + b₃.toNat))

def readLong : Decoder InputError Int := do
  let high ← readInt
  let low ← readInt
  pure (high * 0x100000000 + low % 0x100000000)

def readVInt : Decoder InputError Int := fun bytes =>
  match VInt.read (wide 32) bytes with
  | none => .error .readPastEOF
  | some (i, count) => .ok (i.toInt, bytes.drop count)

/-- An array cannot have a negative size. -/
def readString : Decoder InputError (List WChar) := do
  let length ← readVInt wide
  if length < 0 then throw .undefined
  else
    let bytes ← take .readPastEOF length.toNat
    pure (StringUtils.toUnicode 0 bytes)

end IndexInput

section RoundTrip
open IndexOutput IndexInput
variable {wide : ∀ w, UInt8 → Nat → BitVec w}

theorem toNat_byteOf (i : Int) : ((byteOf i).toNat : Int) = i % 0x100 := by
  rw [byteOf, UInt8.toNat_ofNat']
  omega

theorem decodes_readInt {i : Int} (hle : -0x80000000 ≤ i) (hlt : i < 0x80000000) :
    Decodes readInt (writeInt i) i := by
  have hvalue : toInt32 ((byteOf (i / 0x1000000)).toNat * 0x1000000 + (byteOf (i / 0x10000)).toNat * 0x10000 +
      (byteOf (i / 0x100)).toNat * 0x100 + (byteOf i).toNat) = i := by
    rw [toNat_byteOf, toNat_byteOf, toNat_byteOf, toNat_byteOf, toInt32]
    omega
  rw [readInt, writeInt]
  iterate 4 apply Decodes.cons
  rw [hvalue]
  exact decodes_pure i

theorem decodes_readLong {i : Int} (hle : -0x8000000000000000 ≤ i) (hlt : i < 0x8000000000000000) :
    Decodes readLong (writeLong i) i := by
  have hhigh : toInt32 (i / 0x100000000) = i / 0x100000000 := by
    rw [toInt32_of_lt] <;> omega
  have hlow : -0x80000000 ≤ toInt32 i ∧ toInt32 i < 0x80000000 := by
    rw [toInt32]
    omega
  have hvalue : i / 0x100000000 * 0x100000000 + toInt32 i % 0x100000000 = i := by
    rw [toInt32]
    omega
  rw [writeLong, hhigh]
  apply (decodes_readInt (by omega) (by omega)).bind
  apply (decodes_readInt hlow.1 hlow.2).map
  rw [hvalue]
  exact decodes_pure i

theorem ofNat_groups {w : Nat} (n shift : Nat) :
    BitVec.ofNat w (n % 128) <<< shift ||| BitVec.ofNat w (n / 128) <<< (shift + 7) = BitVec.ofNat w n <<< shift := by
  have hlow : ∀ j, (n % 128).testBit j = (decide (j < 7) && n.testBit j) := Nat.testBit_mod_two_pow n 7
  have hhigh : ∀ j, (n / 128).testBit j = n.testBit (j + 7) := by
    intro j
    rw [show 128 = 2 ^ 7 from rfl, Nat.testBit_div_two_pow]
  have hbit : ∀ (m j : Nat) (h : j < w), (BitVec.ofNat w m)[j] = m.testBit j := by
    intro m j h
    rw [← BitVec.getLsbD_eq_getElem, BitVec.getLsbD_ofNat, decide_eq_true h, Bool.true_and]
  ext k hk
  simp only [BitVec.getElem_or, BitVec.getElem_shiftLeft, hbit, hlow, hhigh]
  by_cases hbelow : k < shift
  · simp [hbelow, show k < shift + 7 by omega]
  · by_cases hgroup : k < shift + 7
    · simp [hbelow, hgroup, show k - shift < 7 by omega]
    · simp [hbelow, hgroup, show ¬ k - shift < 7 by omega, show k - (shift + 7) + 7 = k - shift by omega]

theorem readFrom_encode {w : Nat} (wide : UInt8 → Nat → BitVec w) (i : BitVec w) (shift : Nat) {n : Nat}
    (hn : n < 2 ^ (w - shift)) (hshift : shift < w) (rest : List UInt8) :
    VInt.readFrom wide i shift (VarInt.encode n ++ rest) =
      some (i ||| BitVec.ofNat w n <<< shift, (VarInt.encode n).length) := by
  induction n using Nat.strongRecOn generalizing i shift with
  | ind n ih =>
      by_cases hsmall : n < 128
      · have hb : (UInt8.ofNat n).toNat = n := by
          rw [UInt8.toNat_ofNat']
          omega
        rw [VarInt.encode_of_lt hsmall, List.singleton_append, VInt.readFrom, hb, if_pos hsmall, VInt.group,
          if_pos hshift, hb, Nat.mod_eq_of_lt hsmall]
        rfl
      · have hb : (UInt8.ofNat (n % 128 + 128)).toNat = n % 128 + 128 := by
          rw [UInt8.toNat_ofNat']
          omega
        have hbits : 7 < w - shift := by
          by_contra hge
          have hle : 2 ^ (w - shift) ≤ 2 ^ 7 := Nat.pow_le_pow_right (by decide) (by omega)
          omega
        have hrest : n / 128 < 2 ^ (w - (shift + 7)) := by
          have hpow : 2 ^ (w - shift) = 2 ^ (w - (shift + 7)) * 128 := by
            rw [show w - shift = w - (shift + 7) + 7 by omega, Nat.pow_add]
          rw [hpow] at hn
          exact Nat.div_lt_of_lt_mul (by rwa [Nat.mul_comm])
        rw [VarInt.encode_of_ge (by omega), List.cons_append, VInt.readFrom, hb, if_neg (by omega),
          ih (n / 128) (by omega) _ _ hrest (by omega), VInt.group, if_pos hshift, hb,
          show (n % 128 + 128) % 128 = n % 128 by omega, BitVec.or_assoc, ofNat_groups]
        rfl

theorem decodes_readVInt {i : Int} (hle : -0x80000000 ≤ i) (hlt : i < 0x80000000) :
    Decodes (readVInt wide) (writeVInt i) i := by
  intro rest
  have hn : (i % 0x100000000).toNat < 2 ^ (32 - 0) := by
    rw [show (2 : Nat) ^ (32 - 0) = 0x100000000 from rfl]
    omega
  have hvalue : (BitVec.ofNat 32 (i % 0x100000000).toNat).toInt = i := by
    rw [BitVec.toInt_eq_toNat_cond, BitVec.toNat_ofNat, show (2 : Nat) ^ 32 = 0x100000000 from rfl]
    split <;> omega
  rw [readVInt, writeVInt, VInt.read, readFrom_encode _ _ _ hn (by decide)]
  dsimp only
  rw [List.drop_left, BitVec.shiftLeft_zero, show (0 : BitVec 32) = 0#32 from rfl, BitVec.zero_or, hvalue]

theorem decodes_readString (size : Nat) {s : List WChar} (hlt : (StringUtils.toUTF8 size s).length < 0x80000000) :
    Decodes (readString wide) (writeString size s) (StringUtils.toUnicode 0 (StringUtils.toUTF8 size s)) := by
  rw [readString, writeString]
  apply (decodes_readVInt (by omega) (by omega)).bind
  rw [if_neg (by omega), Int.toNat_natCast]
  exact (decodes_take InputError.readPastEOF _).map (decodes_pure _)

end RoundTrip

end LucenePlusPlus
