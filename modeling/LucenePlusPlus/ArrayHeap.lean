import Mathlib.Data.Multiset.Filter
import Mathlib.Data.Multiset.Range
import Mathlib.Data.Multiset.Fold
import Mathlib.Logic.Equiv.Basic

/-!
Heaps in the slots from `0` on of an array, ordered by a key. The order may be known from a slot on only, when the
children of no slot before it have been compared yet. The slots below one slot are its subtree.
-/

namespace ArrayHeap
variable {β : Type*} {key : β → Int} {h : Nat → β} {n r i : Nat}

/-- No slot has a smaller key than its parent, when the parent is `r` or behind it. -/
def OrderedFrom (key : β → Int) (h : Nat → β) (n r : Nat) : Prop :=
  ∀ j, 0 < j → j < n → r ≤ (j - 1) / 2 → key (h ((j - 1) / 2)) ≤ key (h j)

/-- The order, except that children of slot `i` may have smaller keys than it. -/
structure Ready (key : β → Int) (h : Nat → β) (n r i : Nat) : Prop where
  others : ∀ j, 0 < j → j < n → r ≤ (j - 1) / 2 → (j - 1) / 2 ≠ i → key (h ((j - 1) / 2)) ≤ key (h j)
  children : 0 < i → r ≤ (i - 1) / 2 → ∀ j, 0 < j → j < n → (j - 1) / 2 = i → key (h ((i - 1) / 2)) ≤ key (h j)

/-- Two slots are exchanged. -/
def swap (h : Nat → β) (i c : Nat) : Nat → β := Function.update (Function.update h i (h c)) c (h i)

theorem swap_right (h : Nat → β) (i c : Nat) : swap h i c c = h i := Function.update_self _ _ _

theorem swap_left (h : Nat → β) {i c : Nat} (hne : i ≠ c) : swap h i c i = h c := by
  rw [swap, Function.update_of_ne hne, Function.update_self]

theorem swap_of_ne (h : Nat → β) {i c k : Nat} (hi : k ≠ i) (hc : k ≠ c) : swap h i c k = h k := by
  rw [swap, Function.update_of_ne hc, Function.update_of_ne hi]

theorem swap_eq_comp (h : Nat → β) {i c : Nat} (hne : i ≠ c) : swap h i c = h ∘ Equiv.swap i c := by
  funext k
  rw [Function.comp_apply]
  by_cases hi : k = i
  · rw [hi, Equiv.swap_apply_left, swap_left h hne]
  · by_cases hc : k = c
    · rw [hc, Equiv.swap_apply_right, swap_right]
    · rw [Equiv.swap_apply_of_ne_of_ne hi hc, swap_of_ne h hi hc]

theorem OrderedFrom.ready (hord : OrderedFrom key h n (r + 1)) : Ready key h n r r where
  others j hpos hj hr hne := hord j hpos hj (by omega)
  children hpos hr := by omega

theorem Ready.exchange {c : Nat} (hready : Ready key h n r i) (hr : r ≤ i) (hpos : 0 < c) (hcn : c < n)
    (hc : (c - 1) / 2 = i) (hless : key (h c) ≤ key (h i))
    (hfirst : ∀ j, 0 < j → j < n → (j - 1) / 2 = i → key (h c) ≤ key (h j)) : Ready key (swap h i c) n r c := by
  have hne : i ≠ c := by omega
  constructor
  · intro j hj hjn hjr hjc
    by_cases hji : j = i
    · rw [hji, swap_left h hne, swap_of_ne h (by omega) (by omega)]
      exact hready.children (by omega) (by omega) c hpos hcn hc
    · by_cases hjc' : j = c
      · rw [hjc', hc, swap_left h hne, swap_right]
        exact hless
      · rw [swap_of_ne h hji hjc']
        by_cases hsibling : (j - 1) / 2 = i
        · rw [hsibling, swap_left h hne]
          exact hfirst j hj hjn hsibling
        · rw [swap_of_ne h hsibling hjc]
          exact hready.others j hj hjn hjr hsibling
  · intro _ _ j hj hjn hjc
    rw [hc, swap_left h hne, swap_of_ne h (by omega) (by omega)]
    have hchild := hready.others j hj hjn (by omega) (by omega)
    rw [hjc] at hchild
    exact hchild

theorem Ready.ordered (hready : Ready key h n r i)
    (hstop : ∀ j, 0 < j → j < n → (j - 1) / 2 = i → key (h i) ≤ key (h j)) : OrderedFrom key h n r := by
  intro j hj hjn hjr
  by_cases hji : (j - 1) / 2 = i
  · rw [hji]
    exact hstop j hj hjn hji
  · exact hready.others j hj hjn hjr hji

theorem orderedFrom_of_le (hle : n ≤ 2 * r + 1) : OrderedFrom key h n r := by
  intro j hpos hj hr
  omega

theorem OrderedFrom.ready_zero (hord : OrderedFrom key h n 0) : Ready key h n 0 0 where
  others j hpos hj hr _ := hord j hpos hj hr
  children hpos := absurd hpos (lt_irrefl 0)

theorem Ready.of_eq {g : Nat → β} {m : Nat} (hready : Ready key h n 0 0) (hm : m ≤ n)
    (heq : ∀ k, 0 < k → k < m → g k = h k) : Ready key g m 0 0 where
  others j hpos hj hr hne := by
    rw [heq j hpos hj, heq ((j - 1) / 2) (by omega) (by omega)]
    exact hready.others j hpos (by omega) hr hne
  children hpos := absurd hpos (lt_irrefl 0)

theorem OrderedFrom.first_le (hord : OrderedFrom key h n 0) {j : Nat} (hj : j < n) : key (h 0) ≤ key (h j) := by
  induction j using Nat.strong_induction_on with
  | h j ih =>
      by_cases hzero : j = 0
      · rw [hzero]
      · exact (ih ((j - 1) / 2) (by omega) (by omega)).trans (hord j (by omega) hj (Nat.zero_le _))

def contents (h : Nat → β) (n : Nat) : Multiset β := (Multiset.range n).map h

theorem mem_contents {x : β} : x ∈ contents h n ↔ ∃ k < n, h k = x := by
  simp only [contents, Multiset.mem_map, Multiset.mem_range]

theorem contents_succ (h : Nat → β) (n : Nat) : contents h (n + 1) = h n ::ₘ contents h n := by
  rw [contents, Multiset.range_succ, Multiset.map_cons, contents]

theorem contents_swap (h : Nat → β) {i c : Nat} (hi : i < n) (hc : c < n) (hne : i ≠ c) :
    contents (swap h i c) n = contents h n := by
  have hrange : (Multiset.range n).map (Equiv.swap i c) = Multiset.range n := by
    apply (Multiset.Nodup.ext ((Multiset.nodup_range n).map (Equiv.injective _)) (Multiset.nodup_range n)).mpr
    intro k
    rw [Multiset.mem_map]
    constructor
    · rintro ⟨j, hj, rfl⟩
      rw [Multiset.mem_range] at hj ⊢
      rw [Equiv.swap_apply_def]
      split_ifs <;> assumption
    · intro hk
      refine ⟨Equiv.swap i c k, ?_, Equiv.swap_apply_self _ _ _⟩
      rw [Multiset.mem_range] at hk ⊢
      rw [Equiv.swap_apply_def]
      split_ifs <;> assumption
  rw [swap_eq_comp h hne, contents, ← Multiset.map_map, hrange, contents]

theorem contents_update_zero (h : Nat → β) (hn : 0 < n) (x : β) :
    ∃ rest, contents h n = h 0 ::ₘ rest ∧ contents (Function.update h 0 x) n = x ::ₘ rest := by
  obtain ⟨m, rfl⟩ := Nat.exists_eq_succ_of_ne_zero (Nat.ne_of_gt hn)
  have hrange : Multiset.range (m + 1) = 0 ::ₘ (Multiset.range m).map Nat.succ := by
    apply (Multiset.Nodup.ext (Multiset.nodup_range _) ?_).mpr
    · intro k
      rw [Multiset.mem_cons, Multiset.mem_map, Multiset.mem_range]
      constructor
      · intro hk
        cases k with
        | zero => exact Or.inl rfl
        | succ k => exact Or.inr ⟨k, Multiset.mem_range.mpr (by omega), rfl⟩
      · rintro (rfl | ⟨k, hk, rfl⟩)
        · omega
        · rw [Multiset.mem_range] at hk
          omega
    · rw [Multiset.nodup_cons]
      exact ⟨by simp, (Multiset.nodup_range m).map Nat.succ_injective⟩
  refine ⟨((Multiset.range m).map Nat.succ).map h, ?_, ?_⟩
  · rw [contents, hrange, Multiset.map_cons]
  · rw [contents, hrange, Multiset.map_cons, Function.update_self, Multiset.map_map, Multiset.map_map]
    rfl

/-- Slot `k` is slot `r` or below it. -/
inductive Below (r : Nat) : Nat → Prop
  | self : Below r r
  | child {k : Nat} (hpos : 0 < k) (h : Below r ((k - 1) / 2)) : Below r k

namespace Below

theorem le {k : Nat} (h : Below r k) : r ≤ k := by
  induction h with
  | self => exact le_rfl
  | child hpos _ ih => omega

theorem zero (k : Nat) : Below 0 k := by
  induction k using Nat.strong_induction_on with
  | h k ih =>
      by_cases hzero : k = 0
      · rw [hzero]
        exact self
      · exact child (by omega) (ih _ (by omega))

theorem trans {k l : Nat} (h : Below r k) (h' : Below k l) : Below r l := by
  induction h' with
  | self => exact h
  | child hpos _ ih => exact child hpos ih

theorem iff_children {k : Nat} : Below r k ↔ k = r ∨ Below (2 * r + 1) k ∨ Below (2 * r + 2) k := by
  constructor
  · intro h
    induction h with
    | self => exact Or.inl rfl
    | child hpos _ ih =>
        rcases ih with heq | hleft | hright
        · rename_i k _
          have hcases : k = 2 * r + 1 ∨ k = 2 * r + 2 := by omega
          rcases hcases with rfl | rfl
          · exact Or.inr (Or.inl self)
          · exact Or.inr (Or.inr self)
        · exact Or.inr (Or.inl (child hpos hleft))
        · exact Or.inr (Or.inr (child hpos hright))
  · have hparent : ∀ c, (c - 1) / 2 = r → 0 < c → Below r c := fun c hc hpos => child hpos (hc ▸ self)
    rintro (rfl | hleft | hright)
    · exact self
    · exact (hparent (2 * r + 1) (by omega) (by omega)).trans hleft
    · exact (hparent (2 * r + 2) (by omega) (by omega)).trans hright

theorem chain {a b k : Nat} (ha : Below a k) (hb : Below b k) : Below a b ∨ Below b a := by
  induction ha with
  | self => exact Or.inr hb
  | child hpos ha ih =>
      cases hb with
      | self => exact Or.inl (child hpos ha)
      | child _ hb => exact ih hb

theorem not_both {k : Nat} (hleft : Below (2 * r + 1) k) (hright : Below (2 * r + 2) k) : False := by
  rcases hleft.chain hright with h | h
  · rw [iff_children] at h
    rcases h with h | h | h
    · omega
    · have hle := h.le
      omega
    · have hle := h.le
      omega
  · have hle := h.le
    omega

end Below

theorem OrderedFrom.le_of_below (hord : OrderedFrom key h n 0) {k : Nat} (hbelow : Below r k) (hk : k < n) :
    key (h r) ≤ key (h k) := by
  induction hbelow with
  | self => exact le_rfl
  | child hpos _ ih => exact (ih (by omega)).trans (hord _ hpos hk (Nat.zero_le _))

/-- The slots before `n` that are `r` or below it. -/
def subtree (n : Nat) : Nat → Nat → Multiset Nat
  | 0, _ => 0
  | fuel + 1, r => if r < n then r ::ₘ (subtree n fuel (2 * r + 1) + subtree n fuel (2 * r + 2)) else 0

theorem mem_subtree {fuel : Nat} (hfuel : n ≤ fuel + r) {k : Nat} : k ∈ subtree n fuel r ↔ k < n ∧ Below r k := by
  induction fuel generalizing r with
  | zero =>
      rw [subtree]
      refine iff_of_false (Multiset.notMem_zero k) fun hk => ?_
      have hle := hk.2.le
      omega
  | succ fuel ih =>
      rw [subtree]
      split
      case isTrue hr =>
        rw [Multiset.mem_cons, Multiset.mem_add, ih (by omega), ih (by omega), @Below.iff_children r, ← and_or_left]
        constructor
        · rintro (rfl | h)
          · exact ⟨hr, Or.inl rfl⟩
          · exact ⟨h.1, Or.inr h.2⟩
        · rintro ⟨hk, rfl | h⟩
          · exact Or.inl rfl
          · exact Or.inr ⟨hk, h⟩
      case isFalse hr =>
        refine iff_of_false (Multiset.notMem_zero k) fun hk => ?_
        have hle := hk.2.le
        omega

theorem nodup_subtree {fuel : Nat} (hfuel : n ≤ fuel + r) : (subtree n fuel r).Nodup := by
  induction fuel generalizing r with
  | zero => exact Multiset.nodup_zero
  | succ fuel ih =>
      rw [subtree]
      split
      case isTrue hr =>
        rw [Multiset.nodup_cons, Multiset.nodup_add]
        refine ⟨fun hmem => ?_, ih (by omega), ih (by omega), Multiset.disjoint_left.mpr fun {k} hleft hright => ?_⟩
        · rw [Multiset.mem_add, mem_subtree (by omega), mem_subtree (by omega)] at hmem
          rcases hmem with hmem | hmem
          · have hle := hmem.2.le
            omega
          · have hle := hmem.2.le
            omega
        · rw [mem_subtree (by omega)] at hleft hright
          exact hleft.2.not_both hright.2
      case isFalse => exact Multiset.nodup_zero

theorem subtree_zero {fuel : Nat} (hfuel : n ≤ fuel) : subtree n fuel 0 = Multiset.range n := by
  apply (Multiset.Nodup.ext (nodup_subtree (by omega)) (Multiset.nodup_range n)).mpr
  intro k
  rw [mem_subtree (by omega), Multiset.mem_range]
  exact and_iff_left (Below.zero k)

end ArrayHeap
