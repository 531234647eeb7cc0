import Mathlib.Data.List.Basic

/-!
Decoders that read bytes off the front of a list. `Decodes d bytes a` says that `d` reads exactly `bytes`,
whatever comes behind them, and gives `a`; it composes as decoders do.
-/

namespace Decoders
variable {ε α β : Type}

abbrev Decoder (ε α : Type) := StateT (List UInt8) (Except ε) α

def Decodes (d : Decoder ε α) (bytes : List UInt8) (a : α) : Prop :=
  ∀ rest, d (bytes ++ rest) = .ok (a, rest)

/-- One byte. -/
def next (eof : ε) : Decoder ε UInt8
  | [] => .error eof
  | b :: rest => .ok (b, rest)

/-- `count` bytes. -/
def take (eof : ε) (count : Nat) : Decoder ε (List UInt8) := fun bytes =>
  if count ≤ bytes.length then .ok (bytes.take count, bytes.drop count) else .error eof

/-- `d`, `count` times. -/
def times (d : Decoder ε α) : Nat → Decoder ε (List α)
  | 0 => pure []
  | count + 1 => do
      let a ← d
      let as ← times d count
      pure (a :: as)

variable {d : Decoder ε α} {bytes bytes' : List UInt8} {a : α} {b : β}

theorem decodes_pure (a : α) : Decodes (pure a : Decoder ε α) [] a := fun _ => rfl

theorem bind_eq {f : α → Decoder ε β} {rest : List UInt8} (h : d bytes = .ok (a, rest)) :
    (d >>= f) bytes = f a rest := by
  calc (d >>= f) bytes
      = (d bytes >>= fun p => f p.1 p.2) := rfl
    _ = f a rest := by rw [h]; rfl

theorem ok_of_bind {f : α → Decoder ε β} {rest : List UInt8} (h : (d >>= f) bytes = .ok (b, rest)) :
    ∃ a bytes', d bytes = .ok (a, bytes') ∧ f a bytes' = .ok (b, rest) := by
  change (d bytes >>= fun p => f p.1 p.2) = _ at h
  cases hd : d bytes with
  | error e =>
      rw [hd] at h
      cases h
  | ok p =>
      rw [hd] at h
      exact ⟨p.1, p.2, rfl, h⟩

theorem Decodes.bind {f : α → Decoder ε β} (h : Decodes d bytes a) (h' : Decodes (f a) bytes' b) :
    Decodes (d >>= f) (bytes ++ bytes') b := by
  intro rest
  calc (d >>= f) (bytes ++ bytes' ++ rest)
      = (d (bytes ++ (bytes' ++ rest)) >>= fun p => f p.1 p.2) := by rw [List.append_assoc]; rfl
    _ = f a (bytes' ++ rest) := by rw [h (bytes' ++ rest)]; rfl
    _ = .ok (b, rest) := h' rest

theorem Decodes.map {f : α → Decoder ε β} (h : Decodes d bytes a) (h' : Decodes (f a) [] b) :
    Decodes (d >>= f) bytes b := by
  have hbind := h.bind h'
  rwa [List.append_nil] at hbind

theorem Decodes.cons {eof : ε} {f : UInt8 → Decoder ε β} {c : UInt8} (h : Decodes (f c) bytes b) :
    Decodes (next eof >>= f) (c :: bytes) b := fun rest => h rest

theorem decodes_take (eof : ε) (bytes : List UInt8) : Decodes (take eof bytes.length) bytes bytes := by
  intro rest
  rw [take, if_pos (by rw [List.length_append]; exact Nat.le_add_right _ _), List.take_left, List.drop_left]

theorem Decodes.times {γ : Type} {items : List γ} {encode : γ → List UInt8} {value : γ → α}
    (h : ∀ c ∈ items, Decodes d (encode c) (value c)) :
    Decodes (Decoders.times d items.length) (items.flatMap encode) (items.map value) := by
  induction items with
  | nil => exact decodes_pure []
  | cons c items ih =>
      rw [List.flatMap_cons]
      apply (h c List.mem_cons_self).bind
      exact (ih fun c' hmem => h c' (List.mem_cons_of_mem c hmem)).map (decodes_pure _)

theorem Decodes.run_eq (h : Decodes d bytes a) : d bytes = .ok (a, []) := by
  have hrun := h []
  rwa [List.append_nil] at hrun

end Decoders
