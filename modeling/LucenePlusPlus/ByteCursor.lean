import Mathlib.Data.List.Basic
import Mathlib.Tactic

/-!
An array of bytes with a cursor. A read that does not fit raises an end of file; some of the bytes before the end
may have been consumed then.
-/

namespace ByteCursor

inductive Op where
  | readByte
  | readBytes (length : Nat)
  | seek (pos : Nat)

inductive Outcome where
  | bytes (b : List UInt8)
  | endOfFile
  | done
  /-- anything else -/
  | fault
deriving DecidableEq

/-- The operation at `pos` may have this outcome, and leave the cursor at the last number. -/
inductive Step (bytes : List UInt8) : Nat → Op → Outcome → Nat → Prop
  | readByte {pos : Nat} (h : pos < bytes.length) : Step bytes pos .readByte (.bytes [bytes[pos]]) (pos + 1)
  | readByteEnd {pos : Nat} (h : bytes.length ≤ pos) : Step bytes pos .readByte .endOfFile pos
  | readBytes {pos length : Nat} (h : length = 0 ∨ pos + length ≤ bytes.length) :
      Step bytes pos (.readBytes length) (.bytes ((bytes.drop pos).take length)) (pos + length)
  | readBytesEnd {pos length pos' : Nat} (hlength : 0 < length) (h : bytes.length < pos + length)
      (hle : pos ≤ pos') (hle' : pos' ≤ max pos bytes.length) :
      Step bytes pos (.readBytes length) .endOfFile pos'
  | seek {pos pos' : Nat} : Step bytes pos (.seek pos') .done pos'

/-- The bytes, with `b` at `pos`. -/
def overwrite (bytes : List UInt8) (pos : Nat) (b : List UInt8) : List UInt8 :=
  bytes.take pos ++ b ++ bytes.drop (pos + b.length)

section Overwrite
variable {bytes b : List UInt8} {pos : Nat}

theorem length_overwrite (h : pos ≤ bytes.length) :
    (overwrite bytes pos b).length = max bytes.length (pos + b.length) := by
  simp only [overwrite, List.length_append, List.length_take, List.length_drop]
  omega

theorem overwrite_nil (bytes : List UInt8) (pos : Nat) : overwrite bytes pos [] = bytes := by
  simp [overwrite]

theorem getElem?_overwrite (h : pos ≤ bytes.length) (i : Nat) :
    (overwrite bytes pos b)[i]? =
      if i < pos then bytes[i]? else if i < pos + b.length then b[i - pos]? else bytes[i]? := by
  have htake : (bytes.take pos).length = pos := by rw [List.length_take, min_eq_left h]
  rw [overwrite, List.append_assoc]
  split
  case isTrue hlt => rw [List.getElem?_append_left (by rw [htake]; exact hlt), List.getElem?_take_of_lt hlt]
  case isFalse hge =>
    rw [List.getElem?_append_right (by rw [htake]; omega), htake]
    split
    case isTrue hlt => rw [List.getElem?_append_left (by omega)]
    case isFalse hge' =>
      rw [List.getElem?_append_right (by omega), List.getElem?_drop]
      congr 1
      omega

theorem overwrite_append (h : pos ≤ bytes.length) (b b' : List UInt8) :
    overwrite (overwrite bytes pos b) (pos + b.length) b' = overwrite bytes pos (b ++ b') := by
  have htake : (bytes.take pos).length = pos := by rw [List.length_take, min_eq_left h]
  have hlength : (bytes.take pos ++ b).length = pos + b.length := by rw [List.length_append, htake]
  have hfront : (overwrite bytes pos b).take (pos + b.length) = bytes.take pos ++ b := by
    rw [overwrite, List.take_append_of_le_length (by omega), List.take_of_length_le (by omega)]
  have hback : (overwrite bytes pos b).drop (pos + b.length + b'.length) =
      bytes.drop (pos + b.length + b'.length) := by
    rw [overwrite, List.drop_append, List.drop_of_length_le (by omega), List.nil_append, List.drop_drop, hlength]
    congr 1
    omega
  rw [overwrite, hfront, hback, overwrite, List.length_append, ← Nat.add_assoc, List.append_assoc (bytes.take pos)]

theorem overwrite_middle (front back : List UInt8) {middle : List UInt8} (h : middle.length = b.length) :
    overwrite (front ++ (middle ++ back)) front.length b = front ++ (b ++ back) := by
  rw [overwrite, List.take_left, ← List.drop_drop, List.drop_left, ← h, List.drop_left, List.append_assoc]

end Overwrite

end ByteCursor
