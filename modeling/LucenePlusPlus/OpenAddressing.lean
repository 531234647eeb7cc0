import Mathlib.Data.Fintype.EquivFin
import Mathlib.Data.List.ReduceOption
import Mathlib.Data.Nat.ModEq

/-!
Hash tables with open addressing: a key has a path of slots, and an entry is at the first slot of its path that was
free when it came. A search follows the path to the first slot that is free or holds what is looked for.
-/

namespace OpenAddressing
variable {α γ : Type*}

/-- The slots of a path are all the slots of a table of `n`, within `n` attempts. -/
def Covers (path : ℕ → ℕ) (n : ℕ) : Prop := ∀ i < n, ∃ k < n, path k = i

/-- Double hashing by a step that has no factor in common with the size of the table. -/
theorem covers_of_coprime {n d : ℕ} (h : n.Coprime d) (hn : 0 < n) (c : ℕ) : Covers (fun k => (c + k * d) % n) n := by
  intro i hi
  let f : Fin n → Fin n := fun k => ⟨(c + k * d) % n, Nat.mod_lt _ hn⟩
  have hinj : Function.Injective f := by
    intro k k' heq
    have hmod : c + k * d ≡ c + k' * d [MOD n] := Fin.mk.inj heq
    have hcancel : (k : ℕ) ≡ k' [MOD n] := Nat.ModEq.cancel_right_of_coprime h (Nat.ModEq.add_left_cancel' c hmod)
    exact Fin.ext (Nat.ModEq.eq_of_lt_of_lt hcancel k.isLt k'.isLt)
  obtain ⟨k, hk⟩ := Finite.surjective_of_injective hinj ⟨i, hi⟩
  exact ⟨k, k.isLt, congrArg Fin.val hk⟩

/-- The entry that is in a slot. -/
def occupant (table : List (Option α)) (i : ℕ) : Option α := table[i]?.join

variable {table : List (Option α)} {i j k : ℕ} {x y : α}

theorem occupant_eq_some_iff : occupant table i = some x ↔ table[i]? = some (some x) := by
  rw [occupant, Option.join_eq_some_iff]

theorem occupant_set (hi : i < table.length) (x : α) :
    occupant (table.set i (some x)) j = if i = j then some x else occupant table j := by
  rw [occupant, occupant, List.getElem?_set, if_pos hi]
  split <;> rfl

@[simp] theorem occupant_replicate_none (n i : ℕ) : occupant (List.replicate n (none : Option α)) i = none := by
  rw [occupant, List.getElem?_replicate]
  split <;> rfl

theorem mem_reduceOption_iff : x ∈ table.reduceOption ↔ ∃ i, occupant table i = some x := by
  simp only [occupant_eq_some_iff]
  rw [List.reduceOption_mem_iff, List.mem_iff_getElem?]

theorem reduceOption_set (hi : i < table.length) (h : occupant table i = none) (x : α) :
    (table.set i (some x)).reduceOption.Perm (x :: table.reduceOption) := by
  have hnone : table[i] = none := by
    rwa [occupant, List.getElem?_eq_getElem hi] at h
  have hsplit : table = table.take i ++ none :: table.drop (i + 1) := by
    rw [← hnone, List.cons_getElem_drop_succ, List.take_append_drop]
  rw [List.set_eq_take_append_cons_drop, if_pos hi]
  conv_rhs => rw [hsplit]
  rw [List.reduceOption_append, List.reduceOption_append, List.reduceOption_cons_of_some,
    List.reduceOption_cons_of_none]
  exact List.perm_middle

theorem exists_free (h : table.reduceOption.length < table.length) : ∃ i < table.length, occupant table i = none := by
  by_contra hfull
  push Not at hfull
  refine absurd h (Nat.not_lt.mpr ?_)
  rw [List.reduceOption_length_eq, List.filter_eq_self.mpr]
  intro slot hmem
  obtain ⟨i, hi, rfl⟩ := List.mem_iff_getElem.mp hmem
  have hne := hfull i hi
  rwa [occupant, List.getElem?_eq_getElem hi, Option.join_some, Option.ne_none_iff_isSome] at hne

/-- Slot `i` is on the path, and the slots before it are taken. -/
def Reaches (table : List (Option α)) (path : ℕ → ℕ) (i : ℕ) : Prop :=
  ∃ k, path k = i ∧ ∀ j < k, occupant table (path j) ≠ none

/-- Every entry is reached on the path of its own. -/
def Reachable (path : α → ℕ → ℕ) (table : List (Option α)) : Prop :=
  ∀ i x, occupant table i = some x → Reaches table (path x) i

variable {path : α → ℕ → ℕ}

theorem reachable_replicate_none (path : α → ℕ → ℕ) (n : ℕ) : Reachable path (List.replicate n none) := by
  intro i x h
  rw [occupant_replicate_none] at h
  cases h

theorem Reaches.set {p : ℕ → ℕ} (h : Reaches table p j) (hi : i < table.length) (x : α) :
    Reaches (table.set i (some x)) p j := by
  obtain ⟨k, hk, htaken⟩ := h
  refine ⟨k, hk, fun m hm => ?_⟩
  rw [occupant_set hi]
  split
  · exact Option.some_ne_none x
  · exact htaken m hm

theorem Reachable.set (h : Reachable path table) (hi : i < table.length) (hx : Reaches table (path x) i) :
    Reachable path (table.set i (some x)) := by
  intro j y hy
  rw [occupant_set hi] at hy
  split at hy
  · rename_i heq
    cases hy
    exact heq ▸ hx.set hi x
  · exact (h j y hy).set hi x

theorem Reachable.congr {path' : α → ℕ → ℕ} (h : Reachable path table)
    (heq : ∀ x ∈ table.reduceOption, path x = path' x) : Reachable path' table := by
  intro i x hx
  rw [← heq x (mem_reduceOption_iff.mpr ⟨i, hx⟩)]
  exact h i x hx

/-- Follows the path from `code` on for at most so many attempts, to the first slot that is free or holds an entry that
is looked for. -/
def probe (slot : γ → ℕ) (step : γ → γ) (table : List (Option α)) (found : α → Bool) : ℕ → γ → Option ℕ
  | 0, _ => none
  | attempts + 1, code =>
      match occupant table (slot code) with
      | none => some (slot code)
      | some x => if found x then some (slot code) else probe slot step table found attempts (step code)

variable {slot : γ → ℕ} {step : γ → γ} {found : α → Bool} {attempts : ℕ} {code : γ}

theorem probe_eq_some (h : probe slot step table found attempts code = some i) :
    ∃ k, slot (step^[k] code) = i ∧
      (∀ j < k, ∃ x, occupant table (slot (step^[j] code)) = some x ∧ found x = false) ∧
      ∀ x, occupant table i = some x → found x = true := by
  induction attempts generalizing code with
  | zero => cases h
  | succ attempts ih =>
      rw [probe] at h
      split at h
      · rename_i hfree
        cases h
        exact ⟨0, rfl, nofun, fun x hx => absurd hx (by rw [hfree]; nofun)⟩
      · rename_i x hx
        split at h
        · rename_i hfound
          cases h
          refine ⟨0, rfl, nofun, fun y hy => ?_⟩
          rw [hx] at hy
          cases hy
          exact hfound
        · rename_i hpassed
          obtain ⟨k, hk, hbefore, hend⟩ := ih h
          refine ⟨k + 1, hk, fun j hj => ?_, hend⟩
          cases j with
          | zero => exact ⟨x, hx, Bool.eq_false_of_not_eq_true hpassed⟩
          | succ j => exact hbefore j (Nat.lt_of_succ_lt_succ hj)

theorem probe_isSome (hk : k < attempts) (hfree : occupant table (slot (step^[k] code)) = none) :
    (probe slot step table found attempts code).isSome := by
  induction attempts generalizing code k with
  | zero => exact absurd hk (Nat.not_lt_zero k)
  | succ attempts ih =>
      rw [probe]
      split
      · rfl
      · rename_i x hx
        split
        · rfl
        · cases k with
          | zero =>
              rw [Function.iterate_zero_apply, hx] at hfree
              cases hfree
          | succ k => exact ih (Nat.lt_of_succ_lt_succ hk) hfree

theorem probe_isSome_of_covers (hcovers : Covers (fun k => slot (step^[k] code)) table.length)
    (hfree : table.reduceOption.length < table.length) (found : α → Bool) :
    (probe slot step table found table.length code).isSome := by
  obtain ⟨i, hi, hnone⟩ := exists_free hfree
  obtain ⟨k, hk, rfl⟩ := hcovers i hi
  exact probe_isSome hk hnone

theorem reaches_of_probe (h : probe slot step table found attempts code = some i) :
    Reaches table (fun k => slot (step^[k] code)) i := by
  obtain ⟨k, hk, hbefore, -⟩ := probe_eq_some h
  refine ⟨k, hk, fun j hj => ?_⟩
  obtain ⟨x, hx, -⟩ := hbefore j hj
  rw [hx]
  exact Option.some_ne_none x

/-- A search that ends at a free slot has missed no entry whose path it followed. -/
theorem not_found_of_probe (hreach : Reachable path table)
    (h : probe slot step table found attempts code = some i) (hfree : occupant table i = none)
    (hy : y ∈ table.reduceOption) (hpath : ∀ k, path y k = slot (step^[k] code)) : found y = false := by
  obtain ⟨k, rfl, hbefore, -⟩ := probe_eq_some h
  obtain ⟨j, hj⟩ := mem_reduceOption_iff.mp hy
  obtain ⟨m, hm, htaken⟩ := hreach j y hj
  simp only [hpath] at hm htaken
  rcases lt_trichotomy m k with hlt | rfl | hgt
  · obtain ⟨x, hx, hpassed⟩ := hbefore m hlt
    rw [hm, hj] at hx
    cases hx
    exact hpassed
  · rw [hm, hj] at hfree
    cases hfree
  · exact absurd hfree (htaken k hgt)

/-- What a search finds, in a table that is not full and has at most one entry that is looked for. -/
theorem exists_probe_iff (hreach : Reachable path table)
    (hpath : ∀ y ∈ table.reduceOption, found y = true → ∀ k, path y k = slot (step^[k] code))
    (h : probe slot step table found attempts code = some i) :
    (∃ x, occupant table i = some x) ↔ ∃ x ∈ table.reduceOption, found x = true := by
  constructor
  · rintro ⟨x, hx⟩
    obtain ⟨-, -, -, hend⟩ := probe_eq_some h
    exact ⟨x, mem_reduceOption_iff.mpr ⟨i, hx⟩, hend x hx⟩
  · rintro ⟨x, hx, hfound⟩
    by_contra hnone
    have hfree : occupant table i = none := Option.eq_none_iff_forall_ne_some.mpr fun y hy => hnone ⟨y, hy⟩
    rw [not_found_of_probe hreach h hfree hx (hpath x hx hfound)] at hfound
    cases hfound

end OpenAddressing
