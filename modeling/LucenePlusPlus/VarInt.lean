import Mathlib.Data.List.Basic
import Mathlib.Tactic

/-!
Variable-length integers: seven bits to a byte, lowest group first, the high bit set on every byte
but the last. A machine integer of `w` bits is represented by its bit pattern, a natural number below
`2 ^ w`, so that a negative number takes as many bytes as a large positive one.
-/

namespace VarInt

def encode (n : Nat) : List UInt8 :=
  if n < 128 then [UInt8.ofNat n] else UInt8.ofNat (n % 128 + 128) :: encode (n / 128)
termination_by n
decreasing_by omega

theorem encode_of_lt {n : Nat} (h : n < 128) : encode n = [UInt8.ofNat n] := by
  rw [encode, if_pos h]

theorem encode_of_ge {n : Nat} (h : 128 ≤ n) :
    encode n = UInt8.ofNat (n % 128 + 128) :: encode (n / 128) := by
  rw [encode, if_neg (by omega)]

theorem encode_ne_nil (n : Nat) : encode n ≠ [] := by
  rw [encode]
  split <;> simp

theorem length_encode_pos (n : Nat) : 0 < (encode n).length :=
  List.length_pos_iff.mpr (encode_ne_nil n)

theorem length_encode_le (k : Nat) {n : Nat} (h : n < 128 ^ (k + 1)) : (encode n).length ≤ k + 1 := by
  induction k generalizing n with
  | zero => rw [encode_of_lt h, List.length_singleton]
  | succ k ih =>
      by_cases hsmall : n < 128
      · rw [encode_of_lt hsmall, List.length_singleton]
        omega
      · rw [encode_of_ge (by omega), List.length_cons]
        exact Nat.succ_le_succ (ih (Nat.div_lt_of_lt_mul (by rwa [pow_succ, Nat.mul_comm] at h)))

end VarInt
