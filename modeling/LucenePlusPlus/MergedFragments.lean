import LucenePlusPlus.QueryEscaping
import LucenePlusPlus.HighlightedText
import Mathlib.Data.List.ReduceOption
import Mathlib.Order.Bounds.Basic

/-!
Merging of contiguous fragments. Only two different fragments that are adjacent are merged into another one, which can be done only
so often; but an empty fragment follows itself, so that as long as there is one the loop goes on.
-/

namespace LucenePlusPlus
namespace Highlighter

variable {S : Type} {frag frag' : List (Option (TextFragment S))} {selected out out' : List (TextFragment S)}
  {f g : TextFragment S} {i x k : Nat}

theorem reduceOption_map_some (selected : List (TextFragment S)) : (selected.map some).reduceOption = selected := by
  induction selected with
  | nil => rfl
  | cons f selected ih => rw [List.map_cons, List.reduceOption_cons_of_some, ih]

theorem reduceOption_set_none (h : frag[i]? = some (some f)) : frag.reduceOption.Perm (f :: (frag.set i none).reduceOption) := by
  induction frag generalizing i with
  | nil => cases h
  | cons slot frag ih =>
      cases i with
      | zero =>
          cases h
          simp
      | succ i =>
          have hrest := ih h
          cases slot with
          | none => simpa using hrest
          | some first => simpa using (hrest.cons first).trans (List.Perm.swap f first _)

theorem set_of_getElem? {slot : Option (TextFragment S)} (h : frag[i]? = some slot) : frag.set i slot = frag := by
  apply List.ext_getElem?
  intro j
  by_cases heq : i = j
  · rw [← heq, List.getElem?_set_self (List.getElem?_eq_some_iff.mp h).1, h]
  · rw [List.getElem?_set_ne heq]

theorem reduceOption_set_some (h : frag[i]? = some none) : (frag.set i (some f)).reduceOption.Perm (f :: frag.reduceOption) := by
  have hi := (List.getElem?_eq_some_iff.mp h).1
  have hset := reduceOption_set_none (f := f) (List.getElem?_set_self hi)
  rwa [List.set_set, set_of_getElem? h] at hset

theorem reduceOption_replace {m : TextFragment S} (hne : i ≠ x) (hi : frag[i]? = some (some f)) (hx : frag[x]? = some (some g)) :
    ∃ rest : List (TextFragment S), frag.reduceOption.Perm (f :: g :: rest) ∧
      ((frag.set x none).set i (some m)).reduceOption.Perm (m :: rest) := by
  have hi' : (frag.set x none)[i]? = some (some f) := by rw [List.getElem?_set_ne hne.symm, hi]
  have hlt : i < (frag.set x none).length := (List.getElem?_eq_some_iff.mp hi').1
  refine ⟨((frag.set x none).set i none).reduceOption, ?_, ?_⟩
  · calc
      frag.reduceOption.Perm (g :: (frag.set x none).reduceOption) := reduceOption_set_none hx
      List.Perm _ (g :: f :: ((frag.set x none).set i none).reduceOption) := (reduceOption_set_none hi').cons g
      List.Perm _ (f :: g :: ((frag.set x none).set i none).reduceOption) := List.Perm.swap f g _
  · have hset := reduceOption_set_some (f := m) (List.getElem?_set_self (a := none) hlt)
    rwa [List.set_set] at hset

/-- In the slot is an empty fragment. -/
def EmptyAt (frag : List (Option (TextFragment S))) (i : Nat) : Prop :=
  ∃ f, frag[i]? = some (some f) ∧ f.textStartPos = f.textEndPos

theorem mem_scans {n : Nat} : (i, x) ∈ scans n ↔ i < n ∧ x < n := by
  simp only [scans, List.mem_flatMap, List.mem_map, List.mem_range, Prod.mk.injEq]
  constructor
  · rintro ⟨j, hj, y, hy, rfl, rfl⟩
    exact ⟨hj, hy⟩
  · rintro ⟨hi, hx⟩
    exact ⟨i, hi, x, hx, rfl, rfl⟩

theorem exists_emptyAt {n : Nat} (hn : frag.length = n) :
    (∃ i, (i, i) ∈ scans n ∧ EmptyAt frag i) ↔ ∃ f ∈ frag.reduceOption, f.textStartPos = f.textEndPos := by
  constructor
  · rintro ⟨i, -, f, hf, hempty⟩
    exact ⟨f, List.reduceOption_mem_iff.mpr (List.mem_iff_getElem?.mpr ⟨i, hf⟩), hempty⟩
  · rintro ⟨f, hf, hempty⟩
    obtain ⟨i, hi⟩ := List.mem_iff_getElem?.mp (List.reduceOption_mem_iff.mp hf)
    have hlt := (List.getElem?_eq_some_iff.mp hi).1
    exact ⟨i, mem_scans.mpr ⟨by omega, by omega⟩, f, hi, hempty⟩

variable [LinearOrder S]

/-- What a comparison of two slots does: the fragment of one slot that follows itself stays as it is. -/
inductive Compared (frag : List (Option (TextFragment S))) (i x : Nat) : List (Option (TextFragment S)) × Bool → Prop
  | apart (h : ∀ f g, frag[i]? = some (some f) → frag[x]? = some (some g) → f.follows g = false ∧ g.follows f = false) :
      Compared frag i x (frag, false)
  | self {f : TextFragment S} (h : i = x) (hf : frag[i]? = some (some f)) (hempty : f.textStartPos = f.textEndPos) :
      Compared frag i x (frag, true)
  | merged {f₁ f₂ : TextFragment S} {rest : List (TextFragment S)} {frag' : List (Option (TextFragment S))} (hne : i ≠ x)
      (hfollows : f₂.follows f₁ = true) (hfrag : frag.reduceOption.Perm (f₁ :: f₂ :: rest))
      (hfrag' : frag'.reduceOption.Perm (f₁.merge f₂ :: rest)) (hlength : frag'.length = frag.length) : Compared frag i x (frag', true)

theorem mergeInto_spec (hne : i ≠ x) (hi : frag[i]? = some (some f)) (hx : frag[x]? = some (some g)) :
    ∃ rest : List (TextFragment S), frag.reduceOption.Perm (f :: g :: rest) ∧
      (mergeInto frag i x f g).reduceOption.Perm (f.merge g :: rest) ∧ (mergeInto frag i x f g).length = frag.length := by
  have hlength : (mergeInto frag i x f g).length = frag.length := by rw [mergeInto, List.length_set, List.length_set]
  by_cases hbest : f.score > g.score
  · obtain ⟨rest, hfrag, hfrag'⟩ := reduceOption_replace (m := f.merge g) hne hi hx
    refine ⟨rest, hfrag, ?_, hlength⟩
    simp only [mergeInto, if_pos hbest]
    exact hfrag'
  · obtain ⟨rest, hfrag, hfrag'⟩ := reduceOption_replace (m := f.merge g) hne.symm hx hi
    refine ⟨rest, hfrag.trans (List.Perm.swap f g rest), ?_, hlength⟩
    simp only [mergeInto, if_neg hbest]
    exact hfrag'

theorem mergeInto_self (hi : frag[i]? = some (some f)) : mergeInto frag i i f f = frag := by
  have hmerge : f.merge f = f := by rw [TextFragment.merge, max_self]
  rw [mergeInto, hmerge, List.set_set]
  simp only [ite_self]
  exact set_of_getElem? hi

theorem mergeSlots_spec (frag : List (Option (TextFragment S))) (i x : Nat) : Compared frag i x (mergeSlots frag i x) := by
  cases hi : frag[i]?.join with
  | none =>
      rw [mergeSlots, hi]
      exact .apart fun f g hf => by
        rw [hf] at hi
        cases hi
  | some f =>
      cases hx : frag[x]?.join with
      | none =>
          rw [mergeSlots, hi, hx]
          exact .apart fun f g _ hg => by
            rw [hg] at hx
            cases hx
      | some g =>
          rw [mergeSlots, hi, hx]
          rw [Option.join_eq_some_iff] at hi hx
          dsimp only
          by_cases heq : i = x
          · subst heq
            rw [hi] at hx
            cases hx
            split
            · rename_i hfollows
              rw [mergeInto_self hi]
              exact .self rfl hi (of_decide_eq_true hfollows)
            · rename_i hfollows
              exact .apart fun f' g' hf' hg' => by
                rw [hi] at hf' hg'
                cases hf'
                cases hg'
                exact ⟨Bool.eq_false_iff.mpr hfollows, Bool.eq_false_iff.mpr hfollows⟩
          · split
            · rename_i hfollows
              obtain ⟨rest, hfrag, hfrag', hlength⟩ := mergeInto_spec (Ne.symm heq) hx hi
              exact .merged heq hfollows hfrag hfrag' hlength
            · rename_i hnot
              split
              · rename_i hfollows
                obtain ⟨rest, hfrag, hfrag', hlength⟩ := mergeInto_spec heq hi hx
                exact .merged heq hfollows hfrag hfrag' hlength
              · rename_i hnot'
                exact .apart fun f' g' hf' hg' => by
                  rw [hi] at hf'
                  rw [hx] at hg'
                  cases hf'
                  cases hg'
                  exact ⟨Bool.eq_false_iff.mpr hnot, Bool.eq_false_iff.mpr hnot'⟩

/-- Fragments of the two slots do not follow each other. -/
def Apart (frag : List (Option (TextFragment S))) (i x : Nat) : Prop :=
  ∀ f g, frag[i]? = some (some f) → frag[x]? = some (some g) → f.follows g = false ∧ g.follows f = false

/-- The comparisons of two slots, without those of a slot with itself. -/
def different (pairs : List (Nat × Nat)) : List (Nat × Nat) := pairs.filter fun pair => decide (pair.1 ≠ pair.2)

variable {pairs : List (Nat × Nat)}

theorem different_cons_self (i : Nat) (pairs : List (Nat × Nat)) : different ((i, i) :: pairs) = different pairs := by
  rw [different, List.filter_cons_of_neg (by simp)]
  rfl

theorem different_cons_of_ne (h : i ≠ x) (pairs : List (Nat × Nat)) :
    different ((i, x) :: pairs) = (i, x) :: different pairs := by
  rw [different, List.filter_cons_of_pos (by simp [h])]
  rfl

theorem sweep_different (pairs : List (Nat × Nat)) (frag : List (Option (TextFragment S))) :
    (sweep (different pairs) frag).1 = (sweep pairs frag).1 ∧
      ((sweep (different pairs) frag).2 = true → (sweep pairs frag).2 = true) := by
  induction pairs generalizing frag with
  | nil => exact ⟨rfl, id⟩
  | cons pair pairs ih =>
      obtain ⟨i, x⟩ := pair
      by_cases heq : i = x
      · subst heq
        have hself : (mergeSlots frag i i).1 = frag := by
          have hspec := mergeSlots_spec frag i i
          generalize mergeSlots frag i i = result at hspec
          cases hspec with
          | apart _ => rfl
          | self _ _ _ => rfl
          | merged hne _ _ _ _ => exact absurd rfl hne
        rw [different_cons_self, sweep, hself]
        exact ⟨(ih frag).1, fun h => by rw [(ih frag).2 h, Bool.or_true]⟩
      · rw [different_cons_of_ne heq, sweep, sweep]
        refine ⟨(ih _).1, fun h => ?_⟩
        rcases Bool.or_eq_true_iff.mp h with h | h
        · dsimp only
          rw [h, Bool.true_or]
        · dsimp only
          rw [(ih _).2 h, Bool.or_true]

theorem sweep_count (pairs : List (Nat × Nat)) (frag : List (Option (TextFragment S))) :
    (sweep pairs frag).1.length = frag.length ∧ (sweep pairs frag).1.reduceOption.length ≤ frag.reduceOption.length ∧
      ((sweep (different pairs) frag).2 = true → (sweep pairs frag).1.reduceOption.length < frag.reduceOption.length) := by
  induction pairs generalizing frag with
  | nil => exact ⟨rfl, le_rfl, fun h => absurd h Bool.false_ne_true⟩
  | cons pair pairs ih =>
      obtain ⟨i, x⟩ := pair
      have hspec := mergeSlots_spec frag i x
      by_cases heq : i = x
      · subst heq
        rw [different_cons_self, sweep]
        generalize mergeSlots frag i i = result at hspec
        cases hspec with
        | apart _ => exact ih frag
        | self _ _ _ => exact ih frag
        | merged hne _ _ _ _ => exact absurd rfl hne
      · rw [different_cons_of_ne heq, sweep, sweep]
        generalize mergeSlots frag i x = result at hspec
        cases hspec with
        | apart _ => exact ih frag
        | self h _ _ => exact absurd h heq
        | @merged f₁ f₂ rest frag' _ _ hfrag hfrag' hlength =>
            obtain ⟨hsame, hle, -⟩ := ih frag'
            have hcount := hfrag.length_eq
            have hcount' := hfrag'.length_eq
            rw [List.length_cons] at hcount'
            rw [List.length_cons, List.length_cons] at hcount
            dsimp only
            exact ⟨hsame.trans hlength, by omega, fun _ => by omega⟩

/-- Nothing is merged but fragments with themselves: this is so where there are empty ones. -/
theorem sweep_settled {frag : List (Option (TextFragment S))} (h : (sweep (different pairs) frag).2 = false) :
    (sweep pairs frag).1 = frag ∧ (∀ pair ∈ pairs, pair.1 ≠ pair.2 → Apart frag pair.1 pair.2) ∧
      ((sweep pairs frag).2 = true ↔ ∃ i, (i, i) ∈ pairs ∧ EmptyAt frag i) := by
  induction pairs with
  | nil => exact ⟨rfl, fun _ hpair => absurd hpair List.not_mem_nil, by simp [sweep]⟩
  | cons pair pairs ih =>
      obtain ⟨i, x⟩ := pair
      have hspec := mergeSlots_spec frag i x
      by_cases heq : i = x
      · subst heq
        rw [different_cons_self] at h
        obtain ⟨hsame, hapart, hflag⟩ := ih h
        have hrest : ∀ pair ∈ (i, i) :: pairs, pair.1 ≠ pair.2 → Apart frag pair.1 pair.2 := by
          intro pair hpair hne
          rcases List.mem_cons.mp hpair with rfl | hpair
          · exact absurd rfl hne
          · exact hapart pair hpair hne
        rw [sweep]
        generalize mergeSlots frag i i = result at hspec
        cases hspec with
        | apart hself =>
            refine ⟨hsame, hrest, ?_⟩
            simp only [Bool.false_or, hflag, List.mem_cons, Prod.mk.injEq, and_self]
            refine ⟨fun ⟨j, hj, hempty⟩ => ⟨j, .inr hj, hempty⟩, fun ⟨j, hj, hempty⟩ => ⟨j, ?_, hempty⟩⟩
            rcases hj with rfl | hj
            · obtain ⟨f, hf, hstart⟩ := hempty
              exact absurd hstart (of_decide_eq_false (hself f f hf hf).1)
            · exact hj
        | self _ hf hempty =>
            refine ⟨hsame, hrest, ?_⟩
            simp only [Bool.true_or, true_iff]
            exact ⟨i, List.mem_cons_self, _, hf, hempty⟩
        | merged hne _ _ _ _ => exact absurd rfl hne
      · rw [different_cons_of_ne heq, sweep] at h
        rw [sweep]
        generalize mergeSlots frag i x = result at hspec h
        cases hspec with
        | apart hpair =>
            obtain ⟨hsame, hapart, hflag⟩ := ih h
            refine ⟨hsame, fun pair hmem hne => ?_, ?_⟩
            · rcases List.mem_cons.mp hmem with rfl | hmem
              · exact hpair
              · exact hapart pair hmem hne
            · simp only [Bool.false_or, hflag, List.mem_cons, Prod.mk.injEq]
              refine ⟨fun ⟨j, hj, hempty⟩ => ⟨j, .inr hj, hempty⟩, fun ⟨j, hj, hempty⟩ => ⟨j, ?_, hempty⟩⟩
              rcases hj with ⟨rfl, rfl⟩ | hj
              · exact absurd rfl heq
              · exact hj
        | self heq' _ _ => exact absurd heq' heq
        | merged _ _ _ _ _ => simp at h

/-! ### The loop -/

/-- One round in which only different slots are compared. -/
def sweepDifferent (pairs : List (Nat × Nat)) (frag : List (Option (TextFragment S))) : List (Option (TextFragment S)) :=
  (sweep (different pairs) frag).1

theorem settled_iterate (h : frag.reduceOption.length ≤ k) : (sweep (different pairs) ((sweepDifferent pairs)^[k] frag)).2 = false := by
  induction k generalizing frag with
  | zero =>
      rw [Function.iterate_zero, id, Bool.eq_false_iff]
      intro hflag
      have hlt := (sweep_count pairs frag).2.2 hflag
      omega
  | succ k ih =>
      rw [Function.iterate_succ_apply]
      cases hflag : (sweep (different pairs) frag).2 with
      | false =>
          have hfixed : sweepDifferent pairs frag = frag := (sweep_different pairs frag).1.trans (sweep_settled hflag).1
          rw [hfixed, Function.iterate_fixed hfixed]
          exact hflag
      | true =>
          apply ih
          have hlt := (sweep_count pairs frag).2.2 hflag
          rw [← (sweep_different pairs frag).1] at hlt
          exact Nat.le_of_lt_succ (hlt.trans_le h)

theorem mergeWhile_iterate (pairs : List (Nat × Nat)) (h : frag.reduceOption.length ≤ k) :
    ((¬ ∃ i, (i, i) ∈ pairs ∧ EmptyAt ((sweepDifferent pairs)^[k] frag) i) →
      ∃ fuel, mergeWhile pairs fuel frag = some ((sweepDifferent pairs)^[k] frag)) ∧
    ((∃ i, (i, i) ∈ pairs ∧ EmptyAt ((sweepDifferent pairs)^[k] frag) i) → ∀ fuel, mergeWhile pairs fuel frag = none) := by
  have hstep (k : Nat) (frag : List (Option (TextFragment S))) (hflag : (sweep (different pairs) frag).2 = false) :
      ((¬ ∃ i, (i, i) ∈ pairs ∧ EmptyAt ((sweepDifferent pairs)^[k] frag) i) →
        ∃ fuel, mergeWhile pairs fuel frag = some ((sweepDifferent pairs)^[k] frag)) ∧
      ((∃ i, (i, i) ∈ pairs ∧ EmptyAt ((sweepDifferent pairs)^[k] frag) i) → ∀ fuel, mergeWhile pairs fuel frag = none) := by
    obtain ⟨hsame, -, hempty⟩ := sweep_settled hflag
    have hfixed : sweepDifferent pairs frag = frag := (sweep_different pairs frag).1.trans hsame
    rw [Function.iterate_fixed hfixed, ← hempty]
    refine ⟨fun hnot => ⟨1, ?_⟩, fun htrue fuel => ?_⟩
    · rw [mergeWhile, if_neg hnot, hsame]
    · induction fuel with
      | zero => rfl
      | succ fuel ih => rw [mergeWhile, if_pos htrue, hsame, ih]
  induction k generalizing frag with
  | zero =>
      refine hstep 0 frag (Bool.eq_false_iff.mpr fun hflag => ?_)
      have hlt := (sweep_count pairs frag).2.2 hflag
      omega
  | succ k ih =>
      cases hflag : (sweep (different pairs) frag).2 with
      | false => exact hstep (k + 1) frag hflag
      | true =>
          have hlt := (sweep_count pairs frag).2.2 hflag
          obtain ⟨hsame, hflag'⟩ := sweep_different pairs frag
          rw [← hsame] at hlt
          have hle : (sweepDifferent pairs frag).reduceOption.length ≤ k := Nat.le_of_lt_succ (hlt.trans_le h)
          obtain ⟨hends, hloops⟩ := ih hle
          have hround (fuel : Nat) : mergeWhile pairs (fuel + 1) frag = mergeWhile pairs fuel (sweepDifferent pairs frag) := by
            rw [mergeWhile, if_pos (hflag' hflag), ← hsame]
            rfl
          rw [Function.iterate_succ_apply]
          refine ⟨fun hnot => ?_, fun hempty fuel => ?_⟩
          · obtain ⟨fuel, hfuel⟩ := hends hnot
            exact ⟨fuel + 1, (hround fuel).trans hfuel⟩
          · cases fuel with
            | zero => rfl
            | succ fuel => rw [hround, hloops hempty]

/-- The fragment is that of consecutive ones, with the best of their scores. -/
structure IsJoin (frag : TextFragment S) (piece : List (TextFragment S)) : Prop where
  start_eq : piece.head?.map (·.textStartPos) = some frag.textStartPos
  end_eq : piece.getLast?.map (·.textEndPos) = some frag.textEndPos
  adjacent : piece.IsChain fun first second => second.follows first = true
  best : IsGreatest {score | ∃ part ∈ piece, part.score = score} frag.score

theorem isJoin_singleton (f : TextFragment S) : IsJoin f [f] where
  start_eq := rfl
  end_eq := rfl
  adjacent := .singleton f
  best := ⟨⟨f, List.mem_singleton_self f, rfl⟩, fun score ⟨part, hpart, hscore⟩ => by
    rw [List.mem_singleton] at hpart
    rw [← hscore, hpart]⟩

theorem IsJoin.merge {f₁ f₂ : TextFragment S} {piece₁ piece₂ : List (TextFragment S)} (h₁ : IsJoin f₁ piece₁)
    (h₂ : IsJoin f₂ piece₂) (hfollows : f₂.follows f₁ = true) : IsJoin (f₁.merge f₂) (piece₁ ++ piece₂) where
  start_eq := by
    obtain ⟨first, hfirst, hstart⟩ := Option.map_eq_some_iff.mp h₁.start_eq
    rw [List.head?_append, hfirst, Option.some_or, Option.map_some, hstart]
    rfl
  end_eq := by
    obtain ⟨last, hlast, hend⟩ := Option.map_eq_some_iff.mp h₂.end_eq
    rw [List.getLast?_append, hlast, Option.some_or, Option.map_some, hend]
    rfl
  adjacent := by
    refine List.isChain_append.mpr ⟨h₁.adjacent, h₂.adjacent, fun last hlast first hfirst => ?_⟩
    have hend := h₁.end_eq
    have hstart := h₂.start_eq
    rw [hlast, Option.map_some, Option.some_inj] at hend
    rw [hfirst, Option.map_some, Option.some_inj] at hstart
    rw [TextFragment.follows, hstart, hend]
    exact hfollows
  best := by
    constructor
    · rcases max_choice f₁.score f₂.score with hmax | hmax
      · obtain ⟨part, hpart, hscore⟩ := h₁.best.1
        exact ⟨part, List.mem_append_left _ hpart, hscore.trans hmax.symm⟩
      · obtain ⟨part, hpart, hscore⟩ := h₂.best.1
        exact ⟨part, List.mem_append_right _ hpart, hscore.trans hmax.symm⟩
    · rintro score ⟨part, hpart, hscore⟩
      rcases List.mem_append.mp hpart with hpart | hpart
      · exact (h₁.best.2 ⟨part, hpart, hscore⟩).trans (le_max_left _ _)
      · exact (h₂.best.2 ⟨part, hpart, hscore⟩).trans (le_max_right _ _)

/-- Each selected fragment went into just one of these. -/
def Joined (selected out : List (TextFragment S)) : Prop :=
  ∃ pieces, List.Forall₂ IsJoin out pieces ∧ pieces.flatten.Perm selected

theorem joined_self (selected : List (TextFragment S)) : Joined selected selected := by
  refine ⟨selected.map fun f => [f], ?_, ?_⟩
  · rw [List.forall₂_map_right_iff]
    exact List.forall₂_same.mpr fun f _ => isJoin_singleton f
  · rw [← List.flatMap_def, List.flatMap_singleton']

theorem Joined.perm (h : Joined selected out) (hperm : out'.Perm out) : Joined selected out' := by
  obtain ⟨pieces, hjoin, hflatten⟩ := h
  obtain ⟨pieces', hjoin', hperm'⟩ := List.perm_comp_forall₂ hperm hjoin
  exact ⟨pieces', hjoin', hperm'.flatten.trans hflatten⟩

theorem Joined.merge {f₁ f₂ : TextFragment S} {rest : List (TextFragment S)} (h : Joined selected (f₁ :: f₂ :: rest))
    (hfollows : f₂.follows f₁ = true) : Joined selected (f₁.merge f₂ :: rest) := by
  obtain ⟨_, hjoin, hflatten⟩ := h
  cases hjoin with
  | @cons _ piece₁ _ _ h₁ hjoin =>
      cases hjoin with
      | @cons _ piece₂ _ pieces h₂ hjoin =>
          refine ⟨(piece₁ ++ piece₂) :: pieces, .cons (h₁.merge h₂ hfollows) hjoin, ?_⟩
          rwa [List.flatten_cons, List.append_assoc, ← List.flatten_cons, ← List.flatten_cons]

theorem Joined.sweep (h : Joined selected frag.reduceOption) (pairs : List (Nat × Nat)) :
    Joined selected (sweep pairs frag).1.reduceOption := by
  induction pairs generalizing frag with
  | nil => exact h
  | cons pair pairs ih =>
      obtain ⟨i, x⟩ := pair
      have hspec := mergeSlots_spec frag i x
      rw [Highlighter.sweep]
      generalize mergeSlots frag i x = result at hspec
      cases hspec with
      | apart _ => exact ih h
      | self _ _ _ => exact ih h
      | merged _ hfollows hfrag hfrag' _ => exact ih (((h.perm hfrag.symm).merge hfollows).perm hfrag')

theorem Joined.iterate (h : Joined selected frag.reduceOption) (pairs : List (Nat × Nat)) (k : Nat) :
    Joined selected ((sweepDifferent pairs)^[k] frag).reduceOption := by
  induction k generalizing frag with
  | zero => exact h
  | succ k ih =>
      rw [Function.iterate_succ_apply]
      exact ih (h.sweep (different pairs))

/-- The selected fragments are joined as far as they are adjacent. -/
structure Merged (selected : List (TextFragment S)) (frag : List (Option (TextFragment S))) : Prop where
  joined : Joined selected frag.reduceOption
  apart : frag.reduceOption.Pairwise fun f g => f.follows g = false ∧ g.follows f = false

/-- The slots when different fragments have been merged as long as any are adjacent. -/
def joinDifferent (selected : List (TextFragment S)) : List (Option (TextFragment S)) :=
  (sweepDifferent (scans selected.length))^[selected.length] (selected.map some)

/-- There is one fragment only, or no empty one is left by itself when different fragments have been merged. -/
def LeavesNoEmpty (selected : List (TextFragment S)) : Prop :=
  selected.length ≤ 1 ∨ ∀ f ∈ (joinDifferent selected).reduceOption, f.textStartPos ≠ f.textEndPos

theorem length_sweepDifferent (pairs : List (Nat × Nat)) (frag : List (Option (TextFragment S))) :
    (sweepDifferent pairs frag).length = frag.length := (sweep_count (different pairs) frag).1

theorem length_iterate (pairs : List (Nat × Nat)) (frag : List (Option (TextFragment S))) (k : Nat) :
    ((sweepDifferent pairs)^[k] frag).length = frag.length := by
  induction k generalizing frag with
  | zero => rfl
  | succ k ih => rw [Function.iterate_succ_apply, ih, length_sweepDifferent]

theorem merged_joinDifferent (selected : List (TextFragment S)) : Merged selected (joinDifferent selected) where
  joined := by
    refine Joined.iterate ?_ _ _
    rw [reduceOption_map_some]
    exact joined_self selected
  apart := by
    have hlength : (joinDifferent selected).length = selected.length := by
      rw [joinDifferent, length_iterate, List.length_map]
    have hsettled : (sweep (different (scans selected.length)) (joinDifferent selected)).2 = false :=
      settled_iterate (by rw [reduceOption_map_some])
    obtain ⟨-, hapart, -⟩ := sweep_settled hsettled
    rw [List.reduceOption, List.pairwise_filterMap, List.pairwise_iff_getElem]
    intro i x hi hx hlt f hf g hg
    exact hapart (i, x) (mem_scans.mpr ⟨hlength ▸ hi, hlength ▸ hx⟩) hlt.ne f g ((List.getElem?_eq_getElem hi).trans (congrArg some hf))
      ((List.getElem?_eq_getElem hx).trans (congrArg some hg))

theorem merged_self (h : selected.length ≤ 1) : Merged selected (selected.map some) := by
  constructor
  · rw [reduceOption_map_some]
    exact joined_self selected
  · rw [reduceOption_map_some]
    match selected, h with
    | [], _ => exact .nil
    | [f], _ => exact List.pairwise_singleton _ f

/-- Merging ends as it should if no empty fragment is left by itself; otherwise it does not end. -/
theorem mergeContiguousFragments_spec (selected : List (TextFragment S)) :
    (LeavesNoEmpty selected → ∃ fuel frag, mergeContiguousFragments fuel (selected.map some) = some frag ∧ Merged selected frag) ∧
      (¬ LeavesNoEmpty selected → ∀ fuel, mergeContiguousFragments fuel (selected.map some) = none) := by
  have hle : (selected.map some).reduceOption.length ≤ selected.length := by rw [reduceOption_map_some]
  have hlength : (joinDifferent selected).length = selected.length := by rw [joinDifferent, length_iterate, List.length_map]
  obtain ⟨hends, hloops⟩ := mergeWhile_iterate (scans selected.length) hle
  have hempty := exists_emptyAt hlength
  rw [← joinDifferent, hempty] at hends hloops
  constructor
  · intro h
    by_cases hone : selected.length ≤ 1
    · refine ⟨0, selected.map some, ?_, merged_self hone⟩
      rw [mergeContiguousFragments, List.length_map, if_neg (by omega)]
    · obtain ⟨fuel, hfuel⟩ := hends fun ⟨f, hf, hstart⟩ => (h.resolve_left hone) f hf hstart
      refine ⟨fuel, joinDifferent selected, ?_, merged_joinDifferent selected⟩
      rw [mergeContiguousFragments, List.length_map, if_pos (by omega), hfuel]
  · intro hnot fuel
    rw [LeavesNoEmpty, not_or, not_le, not_forall] at hnot
    obtain ⟨hmany, f, hf⟩ := hnot
    rw [Classical.not_imp, not_not] at hf
    rw [mergeContiguousFragments, List.length_map, if_pos hmany, hloops ⟨f, hf⟩]

section Highlighting
variable [Zero S] [Add S] {h : Highlighter S} {text : WString} {tokens : List (HighlightToken S)}

/-- The fragments are consecutive pieces of the text, the best are selected, and these are merged where they are contiguous. -/
def Highlights (h : Highlighter S) (text : WString) (tokens : List (HighlightToken S)) (score : S) (maxNumFragments : Nat) : Prop :=
  ∃ docFrags selected fuel frag, h.docFragments text tokens score = .ok (text, docFrags) ∧ Tiles 0 text.length docFrags ∧
    (docFrags.map (TextFragment.toString text)).flatten = text ∧ select maxNumFragments docFrags = .ok (selected.map some) ∧
    IsBest maxNumFragments docFrags selected ∧ mergeContiguousFragments fuel (selected.map some) = some frag ∧
    Merged selected frag ∧ h.getBestTextFragments fuel tokens score text true maxNumFragments =
      .ok (some (text, frag.filter fun slot => slot.any fun frag => decide (frag.score > 0)))

theorem getBestTextFragments_eq {newText : WString} {docFrags : List (TextFragment S)} {score : S} {maxNumFragments : Nat}
    (hdoc : h.docFragments text tokens score = .ok (newText, docFrags)) (hselect : select maxNumFragments docFrags = .ok frag)
    (fuel : Nat) : h.getBestTextFragments fuel tokens score text true maxNumFragments =
      .ok ((mergeContiguousFragments fuel frag).map fun frag =>
        (newText, frag.filter fun slot => slot.any fun frag => decide (frag.score > 0))) := by
  rw [getBestTextFragments, hdoc]
  simp only [bind, Except.bind, hselect]
  rfl

/-- Highlighting does what it should just where merging leaves no empty fragment by itself. -/
theorem highlights_iff (hplain : IsPlain h) (hlimit : text.length ≤ h.maxDocCharsToAnalyze)
    (hwithin : ∀ token ∈ tokens, token.Within text) (hsorted : tokens.Pairwise (·.startOffset ≤ ·.startOffset)) (score : S)
    {maxNumFragments : Nat} (hmax : maxNumFragments ≤ INT_MAX) (hcount : 2 ^ 30 ≤ maxNumFragments → tokens.length + 1 < 2 ^ 30) :
    Highlights h text tokens score maxNumFragments ↔
      ∀ newText docFrags selected, h.docFragments text tokens score = .ok (newText, docFrags) →
        select maxNumFragments docFrags = .ok (selected.map some) → LeavesNoEmpty selected := by
  obtain ⟨docFrags, hdoc, htiles, hnums, hlength⟩ := docFragments_spec hplain hlimit hwithin hsorted score
  have hdistinct : (docFrags.map (·.fragNum)).Nodup := by
    rw [hnums]
    exact List.nodup_range
  obtain ⟨selected, hselect, hbest⟩ := select_spec hmax (fun heq => hlength.trans_lt ((hcount (by rw [heq]; decide)).trans (by decide))) hdistinct
  have hflatten : (docFrags.map (TextFragment.toString text)).flatten = text := by
    rw [htiles.flatten, substr, if_pos (Nat.zero_le _), List.drop_zero, Nat.sub_zero, List.take_length]
  have hinjective : Function.Injective (List.map (@some (TextFragment S))) := List.map_injective_iff.mpr (Option.some_injective _)
  obtain ⟨hends, hloops⟩ := mergeContiguousFragments_spec selected
  constructor
  · rintro ⟨docFrags', selected', fuel, frag, hdoc', -, -, hselect', -, hmerge, -⟩ newText docFrags'' selected'' hdoc'' hselect''
    rw [hdoc] at hdoc' hdoc''
    cases hdoc'
    cases hdoc''
    rw [hselect, Except.ok.injEq] at hselect' hselect''
    rw [← hselect'] at hmerge
    rw [← hinjective hselect'']
    by_contra hnot
    rw [hloops hnot fuel] at hmerge
    cases hmerge
  · intro hleaves
    obtain ⟨fuel, frag, hmerge, hmerged⟩ := hends (hleaves text docFrags selected hdoc hselect)
    refine ⟨docFrags, selected, fuel, frag, hdoc, htiles, hflatten, hselect, hbest, hmerge, hmerged, ?_⟩
    rw [getBestTextFragments_eq hdoc hselect, hmerge, Option.map_some]

/-- `abc` -/
def threeLetters : WString := "abc".toList.map WChar.ofChar

/-- A token of each of `a` and `c`, with an empty one behind `a`, and each starts a fragment. -/
def threeTokens : List (HighlightToken Nat) := [⟨[], 0, 1, 3, true, 0⟩, ⟨[], 1, 1, 1, true, 3⟩, ⟨[], 2, 3, 2, true, 1⟩]

theorem highlights_iff_three : Highlights (plain Nat 100) threeLetters threeTokens 2 2 ↔
    ∀ newText docFrags selected, (plain Nat 100).docFragments threeLetters threeTokens 2 = .ok (newText, docFrags) →
      select 2 docFrags = .ok (selected.map some) → LeavesNoEmpty selected := by
  have hwithin : ∀ token ∈ threeTokens, token.Within threeLetters := by
    intro token htoken
    simp only [threeTokens, List.mem_cons, List.not_mem_nil, or_false] at htoken
    rcases htoken with rfl | rfl | rfl <;> exact ⟨by decide, by decide⟩
  exact highlights_iff (isPlain_plain 100) (by decide) hwithin (by decide) 2 (by decide) (by decide)

/-- The fragment of the empty token follows itself, for ever. -/
theorem empty_fragment_follows_itself : ¬ Highlights (plain Nat 100) threeLetters threeTokens 2 3 ∧
    ∀ fuel, (plain Nat 100).getBestTextFragments fuel threeTokens 2 threeLetters true 3 = .ok none := by
  have hdoc : (plain Nat 100).docFragments threeLetters threeTokens 2 =
      .ok (threeLetters, [⟨0, 1, 0, 3⟩, ⟨1, 1, 1, 1⟩, ⟨1, 3, 2, 2⟩]) := by decide +kernel
  have hselect : select 3 [⟨0, 1, 0, 3⟩, ⟨1, 1, 1, 1⟩, ⟨1, 3, 2, 2⟩] =
      .ok ([⟨0, 1, 0, 3⟩, ⟨1, 3, 2, 2⟩, ⟨1, 1, 1, 1⟩].map (@some (TextFragment Nat))) := by decide +kernel
  have hnot : ¬ LeavesNoEmpty [(⟨0, 1, 0, 3⟩ : TextFragment Nat), ⟨1, 3, 2, 2⟩, ⟨1, 1, 1, 1⟩] := by
    rintro (hone | hnone)
    · exact absurd hone (by decide)
    · exact hnone ⟨1, 1, 1, 1⟩ (by decide +kernel) rfl
  have hloops := (mergeContiguousFragments_spec [(⟨0, 1, 0, 3⟩ : TextFragment Nat), ⟨1, 3, 2, 2⟩, ⟨1, 1, 1, 1⟩]).2 hnot
  constructor
  · rintro ⟨docFrags, selected, fuel, frag, hdoc', -, -, hselect', -, hmerge, -⟩
    rw [hdoc] at hdoc'
    cases hdoc'
    rw [hselect, Except.ok.injEq] at hselect'
    rw [← hselect', hloops fuel] at hmerge
    cases hmerge
  · intro fuel
    rw [getBestTextFragments_eq hdoc hselect, hloops fuel]
    rfl

end Highlighting

end Highlighter
end LucenePlusPlus
