import LucenePlusPlus.ByteCursor

/-!
A buffer in front of a device: what is written is appended to the buffer, and the buffer is emptied into the device now
and then. What holds of the buffer and the device together is carried along by both. The device may be a file that is
written at its position.
-/

namespace LucenePlusPlus.Buffering
open ByteCursor

section Moves
variable {β δ : Type} (flushBuffer : List β → δ → δ) {b b' : List β} {s t u : List β × δ}

/-- From a buffer and its device to another one by appending, all in all, these elements. -/
inductive Moves : List β × δ → List β → List β × δ → Prop
  | refl (s : List β × δ) : Moves s [] s
  | append {s : List β × δ} {b pending : List β} {device : δ} (h : Moves s b (pending, device)) (piece : List β) :
      Moves s (b ++ piece) (pending ++ piece, device)
  | flush {s : List β × δ} {b pending : List β} {device : δ} (h : Moves s b (pending, device)) :
      Moves s b ([], flushBuffer pending device)

variable {flushBuffer}

theorem Moves.trans (h : Moves flushBuffer s b t) (h' : Moves flushBuffer t b' u) :
    Moves flushBuffer s (b ++ b') u := by
  induction h' with
  | refl =>
      rw [List.append_nil]
      exact h
  | append _ piece ih =>
      rw [← List.append_assoc]
      exact ih.append piece
  | flush _ ih => exact ih.flush

theorem Moves.preserves {α : Type} {R : α → List β → δ → Prop} {write : α → List β → α}
    (hnil : ∀ a, write a [] = a) (happend : ∀ a b b', write a (b ++ b') = write (write a b) b')
    (hR : ∀ {a pending device} piece, R a pending device → R (write a piece) (pending ++ piece) device)
    (hflush : ∀ {a pending device}, R a pending device → R a [] (flushBuffer pending device))
    (h : Moves flushBuffer s b t) {a : α} (hs : R a s.1 s.2) : R (write a b) t.1 t.2 := by
  induction h with
  | refl => exact (hnil a).symm ▸ hs
  | append _ piece ih =>
      rw [happend]
      exact hR piece ih
  | flush _ ih => exact hflush ih

end Moves

/-- Nothing is there between the end and a later position but zeros. -/
def writeAt (bytes : List UInt8) (pos : Nat) (b : List UInt8) : List UInt8 :=
  if b = [] then bytes else overwrite (bytes.rightpad pos 0) pos b

section WriteAt
variable {bytes b b' : List UInt8} {pos : Nat}

theorem writeAt_nil (bytes : List UInt8) (pos : Nat) : writeAt bytes pos [] = bytes := if_pos rfl

theorem le_length_rightpad : pos ≤ (bytes.rightpad pos 0).length := by
  rw [List.rightpad, List.length_append, List.length_replicate]
  omega

theorem rightpad_of_le (h : pos ≤ bytes.length) : bytes.rightpad pos 0 = bytes := by
  rw [List.rightpad, Nat.sub_eq_zero_of_le h, List.replicate_zero, List.append_nil]

theorem writeAt_append (bytes : List UInt8) (pos : Nat) (b b' : List UInt8) :
    writeAt bytes pos (b ++ b') = writeAt (writeAt bytes pos b) (pos + b.length) b' := by
  by_cases hb : b = []
  · rw [hb, List.nil_append, writeAt_nil, List.length_nil, Nat.add_zero]
  · by_cases hb' : b' = []
    · rw [hb', List.append_nil, writeAt_nil]
    · have hlength : pos + b.length ≤ (overwrite (bytes.rightpad pos 0) pos b).length := by
        rw [length_overwrite le_length_rightpad]
        exact le_max_right _ _
      rw [writeAt, if_neg (by simp [hb]), writeAt, if_neg hb', writeAt, if_neg hb, rightpad_of_le hlength,
        overwrite_append le_length_rightpad]

end WriteAt

structure DirectFile where
  content : List UInt8
  position : Nat

namespace DirectFile

def write (file : DirectFile) (b : List UInt8) : DirectFile where
  content := writeAt file.content file.position b
  position := file.position + b.length

def seek (file : DirectFile) (pos : Nat) : DirectFile := { file with position := pos }

variable (file : DirectFile) (b b' : List UInt8)

@[simp]
theorem write_nil : file.write [] = file := by
  rw [write, writeAt_nil]
  rfl

theorem write_append : file.write (b ++ b') = (file.write b).write b' := by
  rw [write, write, write, writeAt_append, List.length_append, Nat.add_assoc]

theorem write_of_moves {s t : List UInt8 × DirectFile} {b : List UInt8}
    (h : Moves (fun b file => file.write b) s b t) : t.2.write t.1 = (s.2.write s.1).write b := by
  refine h.preserves (R := fun whole pending device => device.write pending = whole) write_nil write_append
    ?_ ?_ rfl
  · intro whole pending device piece hwhole
    rw [write_append, hwhole]
  · intro whole pending device hwhole
    rw [write_nil, hwhole]

end DirectFile

end LucenePlusPlus.Buffering
