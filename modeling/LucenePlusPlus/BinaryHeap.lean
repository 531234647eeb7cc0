import Mathlib.Algebra.BigOperators.Intervals
import Mathlib.Algebra.Order.BigOperators.Group.Multiset
import Mathlib.Algebra.Order.Interval.Finset.SuccPred
import Mathlib.Data.Multiset.AddSub
import Mathlib.Order.Interval.Finset.Nat
import Mathlib.Tactic.Abel

/-!
Binary heaps in the slots `1` to `n` of an array. A node is put in its place by moving a hole: up, past the
parents that it comes before, or down, past the children that come before it. Slots may hold values that
are not compared; the order is one of the values that satisfy `S`.
-/

namespace BinaryHeap

/-- A strict weak order on the values that satisfy `S`. -/
structure StrictWeakOn {β : Type*} (lt : β → β → Bool) (S : β → Prop) : Prop where
  asymm : ∀ x y, S x → S y → lt x y = true → lt y x = false
  trans : ∀ x y z, S x → S y → S z → lt x y = false → lt y z = false → lt x z = false

section Sifting
variable {β : Type*} (lt : β → β → Bool)

/-- Puts `node` into slot `i` or above. The fuel bounds the steps up. -/
def siftUp (node : β) : Nat → (Nat → β) → Nat → Nat → β
  | 0, h, i => Function.update h i node
  | fuel + 1, h, i =>
      if 0 < i / 2 ∧ lt node (h (i / 2)) = true then
        siftUp node fuel (Function.update h i (h (i / 2))) (i / 2)
      else Function.update h i node

/-- The child of slot `i` that comes first. -/
def smallerChild (h : Nat → β) (n i : Nat) : Nat :=
  if 2 * i + 1 ≤ n ∧ lt (h (2 * i + 1)) (h (2 * i)) = true then 2 * i + 1 else 2 * i

/-- Puts `node` into slot `i` or below. The fuel bounds the steps down. -/
def siftDown (node : β) (n : Nat) : Nat → (Nat → β) → Nat → Nat → β
  | 0, h, i => Function.update h i node
  | fuel + 1, h, i =>
      if smallerChild lt h n i ≤ n ∧ lt (h (smallerChild lt h n i)) node = true then
        siftDown node n fuel (Function.update h i (h (smallerChild lt h n i))) (smallerChild lt h n i)
      else Function.update h i node

/-- No slot comes before its parent. -/
def HeapOrder (h : Nat → β) (n : Nat) : Prop :=
  ∀ j, 2 ≤ j → j ≤ n → lt (h j) (h (j / 2)) = false

/-- Heap order, except that slot `i` may come before its parent. -/
structure UpReady (h : Nat → β) (n i : Nat) : Prop where
  others : ∀ j, 2 ≤ j → j ≤ n → j ≠ i → lt (h j) (h (j / 2)) = false
  children : 2 ≤ i → ∀ j, j ≤ n → j / 2 = i → lt (h j) (h (i / 2)) = false

/-- Heap order, except that children of slot `i` may come before it. -/
structure DownReady (h : Nat → β) (n i : Nat) : Prop where
  others : ∀ j, 2 ≤ j → j ≤ n → j / 2 ≠ i → lt (h j) (h (j / 2)) = false
  children : 2 ≤ i → ∀ j, j ≤ n → j / 2 = i → lt (h j) (h (i / 2)) = false

end Sifting

variable {β : Type*} {lt : β → β → Bool} {S : β → Prop} {h g g' : Nat → β} {n i p : Nat} {node : β}

/-- `g'` is `g` with two slots exchanged. -/
structure Exchanged (g g' : Nat → β) (i p : Nat) : Prop where
  left : g' p = g i
  right : g' i = g p
  others : ∀ k, k ≠ i → k ≠ p → g' k = g k

theorem exchanged_update (h : Nat → β) (node : β) (hne : i ≠ p) :
    Exchanged (Function.update h i node) (Function.update (Function.update h i (h p)) p node) i p where
  left := by rw [Function.update_self, Function.update_self]
  right := by rw [Function.update_of_ne hne, Function.update_self, Function.update_of_ne (Ne.symm hne)]
  others k hki hkp := by
    rw [Function.update_of_ne hkp, Function.update_of_ne hki, Function.update_of_ne hki]

theorem Exchanged.eq_comp_swap (h : Exchanged g g' i p) : g' = g ∘ Equiv.swap i p := by
  funext k
  rw [Function.comp_apply]
  by_cases hki : k = i
  · rw [hki, Equiv.swap_apply_left, h.right]
  · by_cases hkp : k = p
    · rw [hkp, Equiv.swap_apply_right, h.left]
    · rw [Equiv.swap_apply_of_ne_of_ne hki hkp, h.others k hki hkp]

/-- The values in the slots. -/
def contents (h : Nat → β) (n : Nat) : Multiset β := ∑ k ∈ Finset.Icc 1 n, {h k}

theorem mem_contents {x : β} : x ∈ contents h n ↔ ∃ k, 1 ≤ k ∧ k ≤ n ∧ h k = x := by
  simp only [contents, Multiset.mem_sum, Finset.mem_Icc, Multiset.mem_singleton, and_assoc, eq_comm]

theorem contents_succ (h : Nat → β) (n : Nat) : contents h (n + 1) = h (n + 1) ::ₘ contents h n := by
  rw [contents, Finset.sum_Icc_succ_top (by omega), add_comm, Multiset.singleton_add]
  rfl

theorem contents_congr (heq : ∀ k, 1 ≤ k → k ≤ n → g k = g' k) : contents g n = contents g' n := by
  refine Finset.sum_congr rfl fun k hk => ?_
  rw [Finset.mem_Icc] at hk
  rw [heq k hk.1 hk.2]

theorem contents_update (hi : 1 ≤ i ∧ i ≤ n) (x : β) :
    h i ::ₘ contents (Function.update h i x) n = x ::ₘ contents h n := by
  have hmem : i ∈ Finset.Icc 1 n := Finset.mem_Icc.mpr hi
  have hnew : contents (Function.update h i x) n =
      {x} + ∑ k ∈ Finset.Icc 1 n \ {i}, ({h k} : Multiset β) := by
    rw [contents, ← Finset.sum_update_of_mem hmem]
    refine Finset.sum_congr rfl fun k _ => ?_
    by_cases hk : k = i
    · rw [hk, Function.update_self, Function.update_self]
    · rw [Function.update_of_ne hk, Function.update_of_ne hk]
  rw [hnew, contents, ← Finset.sum_sdiff (Finset.singleton_subset_iff.mpr hmem), Finset.sum_singleton,
    ← Multiset.singleton_add, ← Multiset.singleton_add]
  abel

theorem Exchanged.contents_eq (h : Exchanged g g' i p) (hi : 1 ≤ i ∧ i ≤ n) (hp : 1 ≤ p ∧ p ≤ n) :
    contents g' n = contents g n := by
  rw [h.eq_comp_swap]
  refine Finset.sum_equiv (Equiv.swap i p) (fun k => ?_) fun k _ => rfl
  simp only [Finset.mem_Icc]
  by_cases hki : k = i
  · rw [hki, Equiv.swap_apply_left]
    exact iff_of_true hi hp
  · by_cases hkp : k = p
    · rw [hkp, Equiv.swap_apply_right]
      exact iff_of_true hp hi
    · rw [Equiv.swap_apply_of_ne_of_ne hki hkp]

/-- All slots are compared. -/
def All (S : β → Prop) (h : Nat → β) (n : Nat) : Prop := ∀ k, 1 ≤ k → k ≤ n → S (h k)

theorem Exchanged.all (h : Exchanged g g' i p) (hall : All S g n) (hi : 1 ≤ i ∧ i ≤ n)
    (hp : 1 ≤ p ∧ p ≤ n) : All S g' n := by
  intro k hk hkn
  by_cases hki : k = i
  · rw [hki, h.right]
    exact hall p hp.1 hp.2
  · by_cases hkp : k = p
    · rw [hkp, h.left]
      exact hall i hi.1 hi.2
    · rw [h.others k hki hkp]
      exact hall k hk hkn

theorem UpReady.heapOrder (h : UpReady lt g n i) (hstop : 2 ≤ i → lt (g i) (g (i / 2)) = false) :
    HeapOrder lt g n := by
  intro j hj hjn
  by_cases hji : j = i
  · rw [hji]
    exact hstop (hji ▸ hj)
  · exact h.others j hj hjn hji

theorem UpReady.exchange (h : UpReady lt g n i) (hlt : StrictWeakOn lt S) (hall : All S g n)
    (hi : 2 ≤ i) (hin : i ≤ n) (hless : lt (g i) (g (i / 2)) = true) (hex : Exchanged g g' i (i / 2)) :
    UpReady lt g' n (i / 2) := by
  have hSi : S (g i) := hall i (by omega) hin
  have hSp : S (g (i / 2)) := hall (i / 2) (by omega) (by omega)
  have hafter : lt (g (i / 2)) (g i) = false := hlt.asymm _ _ hSi hSp hless
  have hparent : 2 ≤ i / 2 → lt (g (i / 2)) (g (i / 2 / 2)) = false :=
    fun hp => h.others (i / 2) hp (by omega) (by omega)
  constructor
  · intro j hj hjn hjp
    by_cases hji : j = i
    · rw [hji, hex.right, hex.left]
      exact hafter
    · rw [hex.others j hji hjp]
      by_cases hparentOf : j / 2 = i
      · rw [hparentOf, hex.right]
        exact h.children hi j hjn hparentOf
      · by_cases hsibling : j / 2 = i / 2
        · rw [hsibling, hex.left]
          refine hlt.trans _ _ _ (hall j (by omega) hjn) hSp hSi ?_ hafter
          rw [← hsibling]
          exact h.others j hj hjn hji
        · rw [hex.others (j / 2) hparentOf hsibling]
          exact h.others j hj hjn hji
  · intro hp j hjn hjp
    have hgrand : g' (i / 2 / 2) = g (i / 2 / 2) := hex.others _ (by omega) (by omega)
    rw [hgrand]
    by_cases hji : j = i
    · rw [hji, hex.right]
      exact hparent hp
    · rw [hex.others j hji (by omega)]
      refine hlt.trans _ _ _ (hall j (by omega) hjn) hSp (hall _ (by omega) (by omega)) ?_ (hparent hp)
      rw [← hjp]
      exact h.others j (by omega) hjn hji

/-- Sifting up restores heap order, keeps the contents, and writes no slot but the first `n`. -/
theorem siftUp_spec (hlt : StrictWeakOn lt S) {fuel : Nat} (hfuel : i ≤ fuel) (hi : 1 ≤ i) (hin : i ≤ n)
    (hall : All S (Function.update h i node) n) (hready : UpReady lt (Function.update h i node) n i) :
    HeapOrder lt (siftUp lt node fuel h i) n ∧
      contents (siftUp lt node fuel h i) n = contents (Function.update h i node) n ∧
      ∀ k, n < k → siftUp lt node fuel h i k = h k := by
  induction fuel generalizing h i with
  | zero => omega
  | succ fuel ih =>
      rw [siftUp]
      split
      case isTrue hcond =>
        obtain ⟨hpos, hless⟩ := hcond
        have hne : i ≠ i / 2 := by omega
        have hex := exchanged_update h node hne
        have hp : Function.update h i node (i / 2) = h (i / 2) := Function.update_of_ne (by omega) _ _
        obtain ⟨horder, hcontents, hother⟩ := ih
          (by omega) (by omega) (by omega) (hex.all hall ⟨hi, hin⟩ ⟨by omega, by omega⟩)
          (hready.exchange hlt hall (by omega) hin (by rw [Function.update_self, hp]; exact hless) hex)
        refine ⟨horder, hcontents.trans (hex.contents_eq ⟨hi, hin⟩ ⟨by omega, by omega⟩), fun k hk => ?_⟩
        rw [hother k hk, Function.update_of_ne (by omega)]
      case isFalse hcond =>
        refine ⟨hready.heapOrder fun htwo => ?_, rfl, fun k hk => Function.update_of_ne (by omega) _ _⟩
        rw [Function.update_self, Function.update_of_ne (by omega)]
        by_contra hless
        exact hcond ⟨by omega, Bool.eq_true_of_not_eq_false hless⟩

/-! ### Down -/

theorem smallerChild_eq (h : Nat → β) (n i : Nat) :
    smallerChild lt h n i = 2 * i ∨ smallerChild lt h n i = 2 * i + 1 := by
  rw [smallerChild]
  split
  · exact Or.inr rfl
  · exact Or.inl rfl

theorem smallerChild_first (hlt : StrictWeakOn lt S) (hall : All S h n) (hi : 1 ≤ i) {j : Nat}
    (hj : j / 2 = i) (hjn : j ≤ n) :
    smallerChild lt h n i ≤ n ∧ (j = smallerChild lt h n i ∨ lt (h j) (h (smallerChild lt h n i)) = false) := by
  have hcases : j = 2 * i ∨ j = 2 * i + 1 := by omega
  rw [smallerChild]
  split
  case isTrue hcond =>
    refine ⟨hcond.1, ?_⟩
    rcases hcases with rfl | rfl
    · exact Or.inr (hlt.asymm _ _ (hall _ (by omega) hcond.1) (hall _ (by omega) hjn) hcond.2)
    · exact Or.inl rfl
  case isFalse hcond =>
    refine ⟨by omega, ?_⟩
    rcases hcases with rfl | rfl
    · exact Or.inl rfl
    · refine Or.inr ?_
      by_contra hless
      exact hcond ⟨hjn, Bool.eq_true_of_not_eq_false hless⟩

theorem DownReady.exchange {c : Nat} (h : DownReady lt g n i) (hlt : StrictWeakOn lt S) (hall : All S g n)
    (hi : 1 ≤ i) (hc : c / 2 = i) (hcn : c ≤ n) (hless : lt (g c) (g i) = true)
    (hfirst : ∀ j, j / 2 = i → j ≤ n → j = c ∨ lt (g j) (g c) = false) (hex : Exchanged g g' i c) :
    DownReady lt g' n c := by
  have hafter : lt (g i) (g c) = false := hlt.asymm _ _ (hall c (by omega) hcn) (hall i hi (by omega)) hless
  constructor
  · intro j hj hjn hjc
    by_cases hji : j = i
    · rw [hji, hex.right, hex.others (i / 2) (by omega) (by omega)]
      exact h.children (hji ▸ hj) c hcn hc
    · by_cases hjc' : j = c
      · rw [hjc', hex.left, hc, hex.right]
        exact hafter
      · rw [hex.others j hji hjc']
        by_cases hsibling : j / 2 = i
        · rw [hsibling, hex.right]
          exact (hfirst j hsibling hjn).resolve_left hjc'
        · rw [hex.others (j / 2) hsibling hjc]
          exact h.others j hj hjn hsibling
  · intro _ j hjn hjc
    rw [hc, hex.right, hex.others j (by omega) (by omega), ← hjc]
    exact h.others j (by omega) hjn (by omega)

theorem DownReady.heapOrder (h : DownReady lt g n i)
    (hstop : ∀ j, 2 ≤ j → j ≤ n → j / 2 = i → lt (g j) (g i) = false) : HeapOrder lt g n := by
  intro j hj hjn
  by_cases hji : j / 2 = i
  · rw [hji]
    exact hstop j hj hjn hji
  · exact h.others j hj hjn hji

/-- Sifting down restores heap order, keeps the contents, and writes no slot but the first `n`. -/
theorem siftDown_spec (hlt : StrictWeakOn lt S) {fuel : Nat} (hfuel : n ≤ fuel + i) (hi : 1 ≤ i)
    (hin : i ≤ n) (hall : All S (Function.update h i node) n)
    (hready : DownReady lt (Function.update h i node) n i) :
    HeapOrder lt (siftDown lt node n fuel h i) n ∧
      contents (siftDown lt node n fuel h i) n = contents (Function.update h i node) n ∧
      ∀ k, n < k → siftDown lt node n fuel h i k = h k := by
  have hother : ∀ (h : Nat → β) (i : Nat), i ≤ n → ∀ k, n < k → Function.update h i node k = h k :=
    fun h i hin k hk => Function.update_of_ne (by omega) _ _
  induction fuel generalizing h i with
  | zero =>
      refine ⟨hready.heapOrder fun j hj hjn hji => ?_, rfl, hother h i hin⟩
      omega
  | succ fuel ih =>
      have hchild := @smallerChild_eq _ lt h n i
      have hupdate : ∀ j, j ≠ i → Function.update h i node j = h j :=
        fun j hj => Function.update_of_ne hj _ _
      have hsame : smallerChild lt (Function.update h i node) n i = smallerChild lt h n i := by
        rw [smallerChild, smallerChild, hupdate _ (by omega), hupdate _ (by omega)]
      have hfirst : ∀ j, j / 2 = i → j ≤ n → smallerChild lt h n i ≤ n ∧
          (j = smallerChild lt h n i ∨ lt (Function.update h i node j)
            (Function.update h i node (smallerChild lt h n i)) = false) := by
        intro j hj hjn
        have hfirst := smallerChild_first hlt hall hi hj hjn
        rw [hsame] at hfirst
        exact hfirst
      rw [siftDown]
      split
      case isTrue hcond =>
        obtain ⟨hcn, hless⟩ := hcond
        have hne : i ≠ smallerChild lt h n i := by omega
        have hex := exchanged_update h node hne
        have hless' : lt (Function.update h i node (smallerChild lt h n i)) (Function.update h i node i) =
            true := by
          rw [hupdate _ hne.symm, Function.update_self]
          exact hless
        obtain ⟨horder, hcontents, hout⟩ := ih (by omega) (by omega) hcn
          (hex.all hall ⟨hi, hin⟩ ⟨by omega, hcn⟩)
          (hready.exchange hlt hall hi (by omega) hcn hless' (fun j hj hjn => (hfirst j hj hjn).2) hex)
        refine ⟨horder, hcontents.trans (hex.contents_eq ⟨hi, hin⟩ ⟨by omega, hcn⟩), fun k hk => ?_⟩
        rw [hout k hk, Function.update_of_ne (by omega)]
      case isFalse hcond =>
        refine ⟨hready.heapOrder fun j hj hjn hji => ?_, rfl, hother h i hin⟩
        obtain ⟨hcn, hjc⟩ := hfirst j hji hjn
        have hnode : lt (Function.update h i node (smallerChild lt h n i))
            (Function.update h i node i) = false := by
          rw [hupdate _ (by omega), Function.update_self]
          by_contra hless
          exact hcond ⟨hcn, Bool.eq_true_of_not_eq_false hless⟩
        rcases hjc with rfl | hjc
        · exact hnode
        · exact hlt.trans _ _ _ (hall j (by omega) hjn) (hall _ (by omega) hcn) (hall i hi hin) hjc hnode

theorem HeapOrder.first_le (h : HeapOrder lt g n) (hlt : StrictWeakOn lt S) (hall : All S g n) {j : Nat}
    (hj : 1 ≤ j) (hjn : j ≤ n) : lt (g j) (g 1) = false := by
  have hself : lt (g 1) (g 1) = false := by
    by_contra hless
    have htrue := Bool.eq_true_of_not_eq_false hless
    exact hless (hlt.asymm _ _ (hall 1 le_rfl (by omega)) (hall 1 le_rfl (by omega)) htrue)
  induction j using Nat.strong_induction_on with
  | h j ih =>
      by_cases hone : j = 1
      · rw [hone]
        exact hself
      · exact hlt.trans _ _ _ (hall j hj hjn) (hall (j / 2) (by omega) (by omega))
          (hall 1 le_rfl (by omega)) (h j (by omega) hjn) (ih (j / 2) (by omega) (by omega) (by omega))

theorem HeapOrder.upReady (h : HeapOrder lt g n) (node : β) :
    UpReady lt (Function.update g (n + 1) node) (n + 1) (n + 1) where
  others j hj hjn hne := by
    rw [Function.update_of_ne hne, Function.update_of_ne (by omega)]
    exact h j hj (by omega)
  children _ j hjn hj := by omega

theorem HeapOrder.downReady (h : HeapOrder lt g n) (heq : ∀ k, 2 ≤ k → k ≤ n → g' k = g k) :
    DownReady lt g' n 1 where
  others j hj hjn hne := by
    rw [heq j hj hjn, heq (j / 2) (by omega) (by omega)]
    exact h j hj hjn
  children htwo := by omega

section Agreeing
variable {lt' : β → β → Bool}

/-- The two orders compare these values in the same way. -/
def AgreeOn (lt lt' : β → β → Bool) (S : β → Prop) : Prop := ∀ x y, S x → S y → lt x y = lt' x y

theorem All.update (hall : All S h n) (hnode : S node) : All S (Function.update h i node) n := by
  intro k hk hkn
  by_cases hki : k = i
  · rw [hki, Function.update_self]
    exact hnode
  · rw [Function.update_of_ne hki]
    exact hall k hk hkn

theorem siftUp_congr (hagree : AgreeOn lt lt' S) (hnode : S node) (fuel : Nat) (hall : All S h n) (hin : i ≤ n) :
    siftUp lt node fuel h i = siftUp lt' node fuel h i := by
  induction fuel generalizing h i with
  | zero => rfl
  | succ fuel ih =>
      rw [siftUp, siftUp]
      by_cases hpos : 0 < i / 2
      · have hparent : S (h (i / 2)) := hall (i / 2) hpos (by omega)
        rw [hagree node (h (i / 2)) hnode hparent, ih (hall.update hparent) (by omega)]
      · rw [if_neg (fun hcond => hpos hcond.1), if_neg (fun hcond => hpos hcond.1)]

theorem smallerChild_congr (hagree : AgreeOn lt lt' S) (hall : All S h n) (hi : 1 ≤ i) :
    smallerChild lt h n i = smallerChild lt' h n i := by
  unfold smallerChild
  by_cases hle : 2 * i + 1 ≤ n
  · rw [hagree _ _ (hall (2 * i + 1) (by omega) hle) (hall (2 * i) (by omega) (by omega))]
  · rw [if_neg (fun hcond => hle hcond.1), if_neg (fun hcond => hle hcond.1)]

theorem siftDown_congr (hagree : AgreeOn lt lt' S) (hnode : S node) (fuel : Nat) (hall : All S h n) (hi : 1 ≤ i) :
    siftDown lt node n fuel h i = siftDown lt' node n fuel h i := by
  induction fuel generalizing h i with
  | zero => rfl
  | succ fuel ih =>
      rw [siftDown, siftDown, smallerChild_congr hagree hall hi]
      have hchild : 1 ≤ smallerChild lt' h n i := by
        unfold smallerChild
        split <;> omega
      by_cases hle : smallerChild lt' h n i ≤ n
      · have hvalue : S (h (smallerChild lt' h n i)) := hall _ hchild hle
        rw [hagree _ node hvalue hnode, ih (hall.update hvalue) hchild]
      · rw [if_neg (fun hcond => hle hcond.1), if_neg (fun hcond => hle hcond.1)]

end Agreeing

end BinaryHeap
