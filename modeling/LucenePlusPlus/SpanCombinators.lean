import LucenePlusPlus.SpanQueries

/-!
The spans of the combinators, told by those of their clauses: the sorted merge, the includes that overlap no exclude,
and the spans that end before a limit.
-/

namespace LucenePlusPlus
open Spans

variable {σ τ : Type}

namespace FirstSpans
variable {spans : Spans σ} {limit : Int}

def Kept (limit : Int) (list : List Span) : List Span := list.filter fun span => span.stop ≤ limit

/-- What the enumeration still has, of a clause that has these spans. -/
def Inv (spans : Spans σ) (limit : Int) (fuel : Nat) (s : σ) (position : Option Int) (pending : List Span) : Prop :=
  ∃ list, spans.Follows s position list ∧ list.Pairwise (· ≤ ·) ∧ list.length ≤ fuel ∧ pending = Kept limit list

theorem scan_keeps {bound : Nat} (fuel : Nat) {s : σ} {position : Option Int} {list : List Span}
    (h : spans.Follows s position list) (hsorted : list.Pairwise (· ≤ ·)) (hbound : list.length ≤ bound)
    (hfuel : list.length < fuel) :
    (firstSpans spans limit bound).Keeps (Inv spans limit bound) (scan spans limit fuel s) (Kept limit list) := by
  induction fuel generalizing s position list with
  | zero => exact absurd hfuel (Nat.not_lt_zero _)
  | succ fuel ih =>
      rw [scan]
      cases list with
      | nil =>
          obtain ⟨hfalse, hfollows⟩ := h.next_nil
          rw [hfalse, if_neg Bool.false_ne_true]
          exact ⟨rfl, [], hfollows, List.Pairwise.nil, Nat.zero_le _, rfl⟩
      | cons span rest =>
          obtain ⟨htrue, hspan, hfollows⟩ := h.next_cons
          rw [List.pairwise_cons] at hsorted
          rw [List.length_cons] at hbound hfuel
          rw [htrue, if_pos rfl, hspan, Kept]
          by_cases hlimit : span.stop ≤ limit
          · rw [if_pos hlimit, List.filter_cons_of_pos (by simpa using hlimit)]
            exact ⟨rfl, hspan, rest, hfollows, hsorted.2, by omega, rfl⟩
          · rw [if_neg hlimit, List.filter_cons_of_neg (by simpa using hlimit)]
            exact ih hfollows hsorted.2 (by omega) (by omega)

theorem kept_dropWhile {list : List Span} (h : list.Pairwise (· ≤ ·)) (target : Int) :
    (Kept limit list).dropWhile (·.doc < target) = Kept limit (list.dropWhile (·.doc < target)) := by
  rw [Kept, Kept, dropWhile_eq_filter h, dropWhile_eq_filter (h.sublist List.filter_sublist), List.filter_comm]

theorem firstSpans_follows {fuel : Nat} {s : σ} {position : Option Int} {list : List Span}
    (h : spans.Follows s position list) (hsorted : list.Pairwise (· ≤ ·)) (hfuel : list.length < fuel) :
    (firstSpans spans limit fuel).Follows s position (Kept limit list) := by
  obtain ⟨bound, rfl⟩ : ∃ bound, fuel = bound + 1 := ⟨fuel - 1, by omega⟩
  apply follows_of_invariant (Inv spans limit bound)
  · exact ⟨list, h, hsorted, by omega, rfl⟩
  · rintro s position pending call ⟨list, hfollows, hsorted, hlength, rfl⟩ hlegal
    cases call with
    | next =>
        exact scan_keeps (bound + 1) hfollows hsorted hlength (by omega)
    | skipTo target =>
        change Keeps _ _ (skipTo spans limit (bound + 1) s target) ((Kept limit list).dropWhile (·.doc < target))
        rw [kept_dropWhile hsorted, skipTo]
        have hsuffix := List.dropWhile_suffix (l := list) fun span => decide (span.doc < target)
        have hrest := hsorted.sublist hsuffix.sublist
        have hle := hsuffix.length_le
        generalize hremaining : list.dropWhile (·.doc < target) = remaining at hrest hle ⊢
        cases remaining with
        | nil =>
            obtain ⟨hfalse, hfollows⟩ := hfollows.skipTo_nil hlegal hremaining
            rw [hfalse, if_neg Bool.false_ne_true]
            exact ⟨rfl, [], hfollows, List.Pairwise.nil, Nat.zero_le _, rfl⟩
        | cons span rest =>
            obtain ⟨htrue, hspan, hfollows⟩ := hfollows.skipTo_cons hlegal hremaining
            rw [List.pairwise_cons] at hrest
            rw [List.length_cons] at hle
            rw [htrue, if_pos rfl, hspan, Kept]
            by_cases hlimit : span.stop ≤ limit
            · rw [if_pos hlimit, List.filter_cons_of_pos (by simpa using hlimit)]
              exact ⟨rfl, hspan, rest, hfollows, hrest.2, by omega, rfl⟩
            · rw [if_neg hlimit, List.filter_cons_of_neg (by simpa using hlimit)]
              exact scan_keeps (bound + 1) hfollows hrest.2 (by omega) (by omega)

end FirstSpans

/-- Both spans have a place in common, or one lies within the other. -/
def Span.Overlaps (span span' : Span) : Prop :=
  span.doc = span'.doc ∧ span.start < span'.stop ∧ span'.start < span.stop

instance (span span' : Span) : Decidable (span.Overlaps span') := inferInstanceAs (Decidable (_ ∧ _ ∧ _))

namespace NotSpans
variable {included : Spans σ} {excluded : Spans τ}

/-- The includes that overlap no exclude. -/
def Kept (excludes includes : List Span) : List Span := includes.filter fun span => ∀ x ∈ excludes, ¬ span.Overlaps x

/-- The excludes from the current one on. -/
def Excluding (excluded : Spans τ) (s : NotSpans σ τ) : List Span → Prop
  | [] => s.moreExclude = false
  | x :: rest =>
      s.moreExclude = true ∧ excluded.span s.excludeSpans = x ∧ excluded.Follows s.excludeSpans (some x.doc) rest

/-- The excludes that are left for an include. -/
def Left (include_ : Span) (excludes : List Span) : List Span :=
  (excludes.dropWhile (·.doc < include_.doc)).dropWhile fun x => x.doc = include_.doc ∧ x.stop ≤ include_.start

theorem excluding_of_call {s : NotSpans σ τ} {answer : Bool × τ} {excludes : List Span}
    (h : excluded.Keeps excluded.Follows answer excludes) :
    Excluding excluded { s with excludeSpans := answer.2, moreExclude := answer.1 } excludes := by
  cases excludes with
  | nil => exact h.1
  | cons x rest => exact h

theorem excluding_skipExclude (included : Spans σ) {s : NotSpans σ τ} {excludes : List Span} (h : Excluding excluded s excludes) :
    Excluding excluded (skipExclude included excluded s)
      (excludes.dropWhile (·.doc < (included.span s.includeSpans).doc)) ∧
    (skipExclude included excluded s).includeSpans = s.includeSpans ∧
    (skipExclude included excluded s).moreInclude = s.moreInclude := by
  unfold skipExclude
  cases excludes with
  | nil =>
      have hmore : s.moreExclude = false := h
      rw [if_neg (by simp [hmore])]
      exact ⟨h, rfl, rfl⟩
  | cons x rest =>
      obtain ⟨hmore, hspan, hfollows⟩ := h
      rw [hspan]
      by_cases hlt : x.doc < (included.span s.includeSpans).doc
      · rw [if_pos ⟨hmore, hlt⟩, List.dropWhile_cons_of_pos (by simpa using hlt)]
        have hkeeps := hfollows.keeps (.skipTo (included.span s.includeSpans).doc) fun doc hdoc => by
          cases hdoc
          exact hlt
        exact ⟨excluding_of_call hkeeps, rfl, rfl⟩
      · rw [if_neg (fun hboth => hlt hboth.2), List.dropWhile_cons_of_neg (by simpa using hlt)]
        exact ⟨⟨hmore, hspan, hfollows⟩, rfl, rfl⟩

theorem excluding_incrementExclude (included : Spans σ) (fuel : Nat) {s : NotSpans σ τ} {excludes : List Span}
    (h : Excluding excluded s excludes) (hfuel : excludes.length ≤ fuel) :
    Excluding excluded (incrementExclude included excluded fuel s)
      (excludes.dropWhile fun x =>
        x.doc = (included.span s.includeSpans).doc ∧ x.stop ≤ (included.span s.includeSpans).start) ∧
    (incrementExclude included excluded fuel s).includeSpans = s.includeSpans ∧
    (incrementExclude included excluded fuel s).moreInclude = s.moreInclude := by
  induction fuel generalizing s excludes with
  | zero =>
      obtain rfl := List.length_eq_zero_iff.mp (Nat.le_zero.mp hfuel)
      exact ⟨h, rfl, rfl⟩
  | succ fuel ih =>
      rw [incrementExclude]
      cases excludes with
      | nil =>
          have hmore : s.moreExclude = false := h
          rw [if_neg (by simp [hmore])]
          exact ⟨h, rfl, rfl⟩
      | cons x rest =>
          obtain ⟨hmore, hspan, hfollows⟩ := h
          rw [List.length_cons] at hfuel
          rw [hspan]
          by_cases hbefore : x.doc = (included.span s.includeSpans).doc ∧
              x.stop ≤ (included.span s.includeSpans).start
          · rw [if_pos ⟨hmore, hbefore.1.symm, hbefore.2⟩, List.dropWhile_cons_of_pos (by simpa using hbefore)]
            have hkeeps := hfollows.keeps .next trivial
            exact ih (excluding_of_call hkeeps) (by omega)
          · rw [if_neg (fun hboth => hbefore ⟨hboth.2.1.symm, hboth.2.2⟩),
              List.dropWhile_cons_of_neg (by simpa using hbefore)]
            exact ⟨⟨hmore, hspan, hfollows⟩, rfl, rfl⟩

theorem left_suffix (include_ : Span) (excludes : List Span) : Left include_ excludes <:+ excludes :=
  (List.dropWhile_suffix _).trans (List.dropWhile_suffix _)

theorem mem_left_of_overlaps {include_ later : Span} {excludes : List Span} (hle : include_ ≤ later) {x : Span}
    (hmem : x ∈ excludes) (hoverlaps : later.Overlaps x) : x ∈ Left include_ excludes := by
  obtain ⟨hdoc, hstart, -⟩ := hoverlaps
  rw [Span.le_iff] at hle
  apply mem_dropWhile_of_neg (mem_dropWhile_of_neg hmem _)
  · rw [decide_eq_false_iff_not]
    omega
  · rw [decide_eq_false_iff_not]
    omega

theorem kept_left {include_ : Span} {includes : List Span} (excludes : List Span) (hle : ∀ later ∈ includes, include_ ≤ later) :
    Kept (Left include_ excludes) includes = Kept excludes includes := by
  apply List.filter_congr
  intro later hmem
  rw [decide_eq_decide]
  constructor
  · exact fun h x hx hoverlaps => h x (mem_left_of_overlaps (hle later hmem) hx hoverlaps) hoverlaps
  · exact fun h x hx => h x ((left_suffix include_ excludes).subset hx)

theorem noIntersection_iff {s : NotSpans σ τ} {excludes : List Span} (hsorted : excludes.Pairwise (· ≤ ·))
    (h : Excluding excluded s (Left (included.span s.includeSpans) excludes)) :
    noIntersection included excluded s = true ↔ ∀ x ∈ excludes, ¬ (included.span s.includeSpans).Overlaps x := by
  unfold noIntersection
  generalize included.span s.includeSpans = include_ at h ⊢
  have hall : (∀ x ∈ excludes, ¬ include_.Overlaps x) ↔ ∀ x ∈ Left include_ excludes, ¬ include_.Overlaps x :=
    ⟨fun hnone x hx => hnone x ((left_suffix include_ excludes).subset hx),
      fun hnone x hx hoverlaps => hnone x (mem_left_of_overlaps le_rfl hx hoverlaps) hoverlaps⟩
  have hdocs : ∀ x ∈ Left include_ excludes, include_.doc ≤ x.doc := by
    intro x hx
    have hfirst := (List.dropWhile_suffix _).subset hx
    rw [dropWhile_eq_filter hsorted, List.mem_filter, decide_eq_true_iff] at hfirst
    omega
  have hleft := hsorted.sublist (left_suffix include_ excludes).sublist
  rw [hall]
  generalize hcases : Left include_ excludes = left at h hdocs hleft ⊢
  cases left with
  | nil =>
      have hmore : s.moreExclude = false := h
      simp [hmore]
  | cons x rest =>
      obtain ⟨hmore, hspan, -⟩ := h
      have hnot := neg_of_dropWhile_eq_cons hcases
      rw [decide_eq_false_iff_not] at hnot
      rw [List.pairwise_cons] at hleft
      have hdoc := hdocs x List.mem_cons_self
      rw [hmore, hspan, decide_eq_true_iff]
      constructor
      · intro hno y hy hoverlaps
        obtain ⟨hydoc, hystart, hystop⟩ := hoverlaps
        have hle : x ≤ y := by
          rcases List.mem_cons.mp hy with rfl | hy
          · exact le_rfl
          · exact hleft.1 y hy
        rw [Span.le_iff] at hle
        simp only [Bool.not_true, Bool.false_eq_true, false_or] at hno
        omega
      · intro hnone
        have hx := hnone x List.mem_cons_self
        unfold Span.Overlaps at hx
        simp only [Bool.not_true, Bool.false_eq_true, false_or]
        omega

/-- The includes go on with this list, whose first one is the current one. -/
def Including (included : Spans σ) (s : NotSpans σ τ) : List Span → Prop
  | [] => s.moreInclude = false
  | include_ :: rest =>
      s.moreInclude = true ∧ included.span s.includeSpans = include_ ∧
        included.Follows s.includeSpans (some include_.doc) rest

theorem including_of_call {s : NotSpans σ τ} {answer : Bool × σ} {includes : List Span}
    (h : included.Keeps included.Follows answer includes) :
    Including included { s with includeSpans := answer.2, moreInclude := answer.1 } includes := by
  cases includes with
  | nil => exact h.1
  | cons include_ rest => exact h

/-- What the enumeration still has, of includes and excludes that have these spans. -/
def Inv (included : Spans σ) (excluded : Spans τ) (fuel : Nat) (s : NotSpans σ τ) (position : Option Int)
    (pending : List Span) : Prop :=
  s.moreInclude = false ∧ pending = [] ∨
    s.moreInclude = true ∧ ∃ includes excludes, included.Follows s.includeSpans position includes ∧
      Excluding excluded s excludes ∧ includes.Pairwise (· ≤ ·) ∧ excludes.Pairwise (· ≤ ·) ∧
      includes.length ≤ fuel ∧ excludes.length ≤ fuel ∧ pending = Kept excludes includes

theorem excluding_left (included : Spans σ) {fuel : Nat} {s : NotSpans σ τ} {excludes : List Span} (h : Excluding excluded s excludes)
    (hfuel : excludes.length ≤ fuel) :
    Excluding excluded (incrementExclude included excluded fuel (skipExclude included excluded s))
      (Left (included.span s.includeSpans) excludes) ∧
    (incrementExclude included excluded fuel (skipExclude included excluded s)).includeSpans = s.includeSpans ∧
    (incrementExclude included excluded fuel (skipExclude included excluded s)).moreInclude = s.moreInclude := by
  obtain ⟨hskip, hspans, hmore⟩ := excluding_skipExclude included h
  obtain ⟨hincrement, hspans', hmore'⟩ := excluding_incrementExclude included fuel hskip
    ((List.dropWhile_suffix _).length_le.trans hfuel)
  rw [hspans] at hincrement hspans'
  exact ⟨hincrement, hspans', hmore'.trans hmore⟩

theorem scan_keeps {bound : Nat} (fuel : Nat) {s : NotSpans σ τ} {includes excludes : List Span}
    (h : Including included s includes) (hexclude : Excluding excluded s excludes)
    (hincludes : includes.Pairwise (· ≤ ·)) (hexcludes : excludes.Pairwise (· ≤ ·)) (hbound : includes.length ≤ bound + 1)
    (hbound' : excludes.length ≤ bound) (hfuel : includes.length ≤ fuel) :
    (notSpans included excluded bound).Keeps (Inv included excluded bound)
      ((scan included excluded bound fuel s).moreInclude, scan included excluded bound fuel s)
      (Kept excludes includes) := by
  induction fuel generalizing s includes excludes with
  | zero =>
      obtain rfl := List.length_eq_zero_iff.mp (Nat.le_zero.mp hfuel)
      have hmore : s.moreInclude = false := h
      exact ⟨hmore, Or.inl ⟨hmore, rfl⟩⟩
  | succ fuel ih =>
      rw [scan]
      cases includes with
      | nil =>
          have hmore : s.moreInclude = false := h
          rw [if_neg (by simp [hmore])]
          exact ⟨hmore, Or.inl ⟨hmore, rfl⟩⟩
      | cons include_ rest =>
          obtain ⟨hmore, hspan, hfollows⟩ := h
          rw [List.pairwise_cons] at hincludes
          rw [List.length_cons] at hbound hfuel
          split
          · obtain ⟨hleft, hspans, hmore'⟩ := excluding_left included hexclude hbound'
            dsimp only
            generalize incrementExclude included excluded bound (skipExclude included excluded s) = s'
              at hleft hspans hmore' ⊢
            rw [← hspans] at hleft hspan hfollows
            have hiff := noIntersection_iff hexcludes hleft
            rw [hspan] at hiff hleft
            have hsuffix := left_suffix include_ excludes
            have hkept := kept_left excludes hincludes.1
            have hlength := hsuffix.length_le
            rw [hmore] at hmore'
            by_cases hno : noIntersection included excluded s' = true
            · rw [if_pos hno, Kept, List.filter_cons_of_pos (by simpa using hiff.mp hno)]
              exact ⟨hmore', hspan, Or.inr ⟨hmore', rest, _, hfollows, hleft, hincludes.2,
                hexcludes.sublist hsuffix.sublist, by omega, by omega, hkept.symm⟩⟩
            · rw [if_neg hno, Kept, List.filter_cons_of_neg (by simpa using fun h => hno (hiff.mpr h))]
              change Keeps _ _ _ (Kept excludes rest)
              rw [← hkept]
              have hkeeps := hfollows.keeps .next trivial
              exact ih (including_of_call hkeeps) (by cases hcases : Left include_ excludes <;> rw [hcases] at hleft <;> exact hleft)
                hincludes.2 (hexcludes.sublist hsuffix.sublist) (by omega) (by omega) (by omega)
          · rename_i hexhausted
            rw [hmore, eq_self, true_and] at hexhausted
            cases excludes with
            | nil =>
                have hkept : ∀ list : List Span, Kept [] list = list := fun list => by simp [Kept]
                rw [hkept]
                exact ⟨hmore, hspan, Or.inr ⟨hmore, rest, [], hfollows, hexclude, hincludes.2, List.Pairwise.nil,
                  by omega, Nat.zero_le _, (hkept rest).symm⟩⟩
            | cons x xs => exact absurd hexclude.1 hexhausted

theorem notSpans_follows {fuel : Nat} {s : σ} {t : τ} {position position' : Option Int} {includes excludes : List Span}
    (h : included.Follows s position includes) (h' : excluded.Follows t position' excludes)
    (hincludes : includes.Pairwise (· ≤ ·)) (hexcludes : excludes.Pairwise (· ≤ ·)) (hfuel : includes.length ≤ fuel)
    (hfuel' : excludes.length ≤ fuel) :
    (notSpans included excluded fuel).Follows (new excluded s t) position (Kept excludes includes) := by
  apply follows_of_invariant (Inv included excluded fuel)
  · have hkeeps := h'.keeps .next trivial
    exact Or.inr ⟨rfl, includes, excludes, h,
      excluding_of_call (s := ⟨s, true, t, true⟩) hkeeps, hincludes, hexcludes, hfuel, hfuel', rfl⟩
  · rintro s position pending call (⟨hmore, rfl⟩ | ⟨hmore, includes, excludes, hfollows, hexclude, hincludes, hexcludes,
      hbound, hbound', rfl⟩) hlegal
    · have hscan : scan included excluded fuel fuel s = s := by
        cases fuel with
        | zero => rfl
        | succ fuel => rw [scan, if_neg (by simp [hmore])]
      cases call with
      | next =>
          change Keeps _ _ (next included excluded fuel s) []
          rw [next, hmore, if_neg Bool.false_ne_true, hscan]
          exact ⟨hmore, Or.inl ⟨hmore, rfl⟩⟩
      | skipTo target =>
          change Keeps _ _ (skipTo included excluded fuel s target) []
          rw [skipTo, hmore]
          simp only [Bool.false_eq_true, if_false, hmore]
          exact ⟨rfl, Or.inl ⟨hmore, rfl⟩⟩
    · cases call with
      | next =>
          change Keeps _ _ (next included excluded fuel s) (Kept excludes includes)
          rw [next, if_pos hmore]
          have hkeeps := hfollows.keeps .next trivial
          have hexclude' : Excluding excluded (nextInclude included s) excludes := by
            cases excludes <;> exact hexclude
          exact scan_keeps fuel (including_of_call hkeeps) hexclude' hincludes hexcludes (by omega) hbound' hbound
      | skipTo target =>
          have hsuffix := List.dropWhile_suffix (l := includes) fun span => decide (span.doc < target)
          have hremaining := hincludes.sublist hsuffix.sublist
          have hlength := hsuffix.length_le
          have hkept : (Kept excludes includes).dropWhile (·.doc < target) =
              Kept excludes (includes.dropWhile (·.doc < target)) := by
            rw [Kept, Kept, dropWhile_eq_filter hincludes,
              dropWhile_eq_filter (hincludes.sublist List.filter_sublist), List.filter_comm]
          change Keeps _ _ (skipTo included excluded fuel s target) ((Kept excludes includes).dropWhile (·.doc < target))
          rw [hkept, skipTo, if_pos hmore]
          have hkeeps := hfollows.keeps (.skipTo target) hlegal
          have hincluding : Including included { s with
              includeSpans := (included.skipTo s.includeSpans target).2
              moreInclude := (included.skipTo s.includeSpans target).1 } (includes.dropWhile (·.doc < target)) :=
            including_of_call hkeeps
          have hexclude' : Excluding excluded { s with
              includeSpans := (included.skipTo s.includeSpans target).2
              moreInclude := (included.skipTo s.includeSpans target).1 } excludes := by
            cases excludes <;> exact hexclude
          generalize ({ s with
            includeSpans := (included.skipTo s.includeSpans target).2
            moreInclude := (included.skipTo s.includeSpans target).1 } : NotSpans σ τ) = s'
            at hincluding hexclude' ⊢
          generalize includes.dropWhile (·.doc < target) = remaining at hincluding hremaining hlength ⊢
          dsimp only
          cases remaining with
          | nil =>
              have hexhausted : s'.moreInclude = false := hincluding
              rw [if_neg (by simp [hexhausted])]
              exact ⟨rfl, Or.inl ⟨hexhausted, rfl⟩⟩
          | cons include_ rest =>
              obtain ⟨hmore', hspan, hfollows'⟩ := hincluding
              rw [List.pairwise_cons] at hremaining
              rw [List.length_cons] at hlength
              obtain ⟨hleft, hspans, hmore''⟩ := excluding_left included hexclude' hbound'
              rw [if_pos hmore']
              generalize incrementExclude included excluded fuel (skipExclude included excluded s') = s''
                at hleft hspans hmore'' ⊢
              rw [← hspans] at hleft hspan hfollows'
              have hiff := noIntersection_iff hexcludes hleft
              rw [hspan] at hiff hleft
              have hleftSuffix := left_suffix include_ excludes
              have hkeptLeft := kept_left excludes hremaining.1
              have hleftLength := hleftSuffix.length_le
              rw [hmore'] at hmore''
              by_cases hno : noIntersection included excluded s'' = true
              · rw [if_pos hno, Kept, List.filter_cons_of_pos (by simpa using hiff.mp hno)]
                exact ⟨rfl, hspan, Or.inr ⟨hmore'', rest, _, hfollows', hleft, hremaining.2,
                  hexcludes.sublist hleftSuffix.sublist, by omega, by omega, hkeptLeft.symm⟩⟩
              · rw [if_neg hno, Kept, List.filter_cons_of_neg (by simpa using fun h => hno (hiff.mpr h)), next,
                  if_pos hmore'']
                change Keeps _ _ _ (Kept excludes rest)
                rw [← hkeptLeft]
                have hkeeps' := hfollows'.keeps .next trivial
                have hexclude'' : Excluding excluded (nextInclude included s'') (Left include_ excludes) := by
                  cases hcases : Left include_ excludes <;> rw [hcases] at hleft <;> exact hleft
                exact scan_keeps fuel (including_of_call hkeeps') hexclude'' hremaining.2
                  (hexcludes.sublist hleftSuffix.sublist) (by omega) (by omega) (by omega)

end NotSpans

/-! ### SpanOrQuery -/

theorem SpanQueue.lessThan_eq (first second : Span) : SpanQueue.lessThan first second = decide (first < second) := by
  unfold SpanQueue.lessThan
  split_ifs
  · rw [decide_eq_decide, Span.lt_iff]
    omega
  · rw [decide_eq_decide, Span.lt_iff]
    omega
  · rw [decide_eq_decide, Span.lt_iff]
    omega

namespace OrSpans
open PriorityQueue
variable {spans : Spans σ}

theorem strictWeakOn_lessThan : BinaryHeap.StrictWeakOn (lessThan spans) fun _ => True where
  asymm x y _ _ h := by
    rw [lessThan, SpanQueue.lessThan_eq] at h ⊢
    rw [decide_eq_true_iff] at h
    rw [decide_eq_false_iff_not]
    exact h.asymm
  trans x y z _ _ _ h h' := by
    rw [lessThan, SpanQueue.lessThan_eq, decide_eq_false_iff_not, not_lt] at h h' ⊢
    exact h'.trans h

/-- A clause is at a span and goes on with these ones. -/
def GoesOn (spans : Spans σ) (clause : σ × List Span) : Prop :=
  spans.Follows clause.1 (some (spans.span clause.1).doc) clause.2 ∧
    (spans.span clause.1 :: clause.2).Pairwise (· ≤ ·)

/-- The spans that the clauses are at, and those that they go on with. -/
def total (spans : Spans σ) (clauses : Multiset (σ × List Span)) : Multiset Span :=
  clauses.bind fun clause => spans.span clause.1 ::ₘ (clause.2 : Multiset Span)

theorem total_cons (clause : σ × List Span) (clauses : Multiset (σ × List Span)) :
    total spans (clause ::ₘ clauses) = spans.span clause.1 ::ₘ (clause.2 : Multiset Span) + total spans clauses := by
  rw [total, Multiset.cons_bind, total]

/-- The queue has clauses with these spans. -/
def Holding (spans : Spans σ) (queue : PriorityQueue σ) (all : Multiset Span) : Prop :=
  ∃ clauses : Multiset (σ × List Span), Holds (lessThan spans) queue (clauses.map Prod.fst) ∧
    (∀ clause ∈ clauses, GoesOn spans clause) ∧ all = total spans clauses

theorem top_cases {queue : PriorityQueue σ} {clauses : Multiset (σ × List Span)}
    (hholds : Holds (lessThan spans) queue (clauses.map Prod.fst)) (hall : ∀ clause ∈ clauses, GoesOn spans clause) :
    clauses = 0 ∧ queue.top = none ∧ queue.empty = true ∨
    ∃ top rest clauses', clauses = (top, rest) ::ₘ clauses' ∧ queue.top = some top ∧ queue.empty = false ∧
      Holds (lessThan spans) (queue.pop (lessThan spans)).2 (clauses'.map Prod.fst) ∧
      ∀ span ∈ total spans clauses, spans.span top ≤ span := by
  by_cases hzero : clauses = 0
  · subst hzero
    exact Or.inl ⟨rfl, hholds.top_of_eq_zero, hholds.empty_iff.mpr rfl⟩
  · have hne : clauses.map Prod.fst ≠ 0 := by simpa using hzero
    obtain ⟨top, others, queue', helements, htop, hpop, hholds', -, hleast⟩ := hholds.pop strictWeakOn_lessThan hne
    have hmem : top ∈ clauses.map Prod.fst := helements ▸ Multiset.mem_cons_self top others
    obtain ⟨⟨top', rest⟩, hclause, rfl⟩ := Multiset.mem_map.mp hmem
    obtain ⟨clauses', rfl⟩ := Multiset.exists_cons_of_mem hclause
    rw [Multiset.map_cons] at helements
    obtain rfl := (Multiset.cons_inj_right _).mp helements
    refine Or.inr ⟨top', rest, clauses', rfl, htop, ?_, by rw [hpop]; exact hholds', ?_⟩
    · rw [← Bool.not_eq_true, hholds.empty_iff]
      exact hne
    · intro span hspan
      have hbehind : ∀ clause ∈ (top', rest) ::ₘ clauses', spans.span top' ≤ spans.span clause.1 := by
        intro clause hclause'
        rcases Multiset.mem_cons.mp hclause' with rfl | hmem'
        · exact le_rfl
        · have hless := hleast clause.1 (Multiset.mem_map_of_mem _ hmem')
          rw [lessThan, SpanQueue.lessThan_eq, decide_eq_false_iff_not, not_lt] at hless
          exact hless
      rw [total, Multiset.mem_bind] at hspan
      obtain ⟨clause, hclause', hspan⟩ := hspan
      apply (hbehind clause hclause').trans
      rcases Multiset.mem_cons.mp hspan with rfl | hrest
      · exact le_rfl
      · exact (List.pairwise_cons.mp (hall clause hclause').2).1 span hrest

theorem moved_holds {queue : PriorityQueue σ} {top : σ} {rest : List Span} {clauses : Multiset (σ × List Span)}
    (htop : queue.top = some top)
    (hholds : Holds (lessThan spans) queue (((top, rest) ::ₘ clauses).map Prod.fst)) (moved : σ)
    (rest' : List Span) :
    Holds (lessThan spans) (queue.changeTop (lessThan spans) moved) (((moved, rest') ::ₘ clauses).map Prod.fst) := by
  rw [Multiset.map_cons] at hholds ⊢
  exact (hholds.changeTop strictWeakOn_lessThan htop moved).1

theorem filter_goesOn {clause : σ × List Span} (h : GoesOn spans clause) {target : Int}
    (hlt : (spans.span clause.1).doc < target) :
    (spans.span clause.1 ::ₘ (clause.2 : Multiset Span)).filter (fun span => ¬ span.doc < target) =
      (clause.2.dropWhile (·.doc < target) : List Span) := by
  have hnot : ¬ ¬ (spans.span clause.1).doc < target := not_not.mpr hlt
  rw [Multiset.filter_cons_of_neg (p := fun span : Span => ¬ span.doc < target) _ hnot, Multiset.filter_coe,
    dropWhile_eq_filter (List.pairwise_cons.mp h.2).2]

theorem filter_self {all : Multiset Span} {top : Span} {target : Int} (hge : ¬ top.doc < target)
    (hleast : ∀ span ∈ all, top ≤ span) : all.filter (fun span => ¬ span.doc < target) = all := by
  rw [Multiset.filter_eq_self]
  intro span hmem
  have hle := Span.doc_le (hleast span hmem)
  omega

/-- So many clauses are before the target. -/
def before (spans : Spans σ) (target : Int) (clauses : Multiset (σ × List Span)) : Nat :=
  clauses.countP fun clause => (spans.span clause.1).doc < target

theorem before_cons_of_lt {clause : σ × List Span} {clauses : Multiset (σ × List Span)} {target : Int}
    (h : (spans.span clause.1).doc < target) :
    before spans target (clause ::ₘ clauses) = before spans target clauses + 1 :=
  Multiset.countP_cons_of_pos (p := fun clause : σ × List Span => (spans.span clause.1).doc < target) clauses h

theorem before_cons_of_not_lt {clause : σ × List Span} {clauses : Multiset (σ × List Span)} {target : Int}
    (h : ¬ (spans.span clause.1).doc < target) :
    before spans target (clause ::ₘ clauses) = before spans target clauses :=
  Multiset.countP_cons_of_neg (p := fun clause : σ × List Span => (spans.span clause.1).doc < target) clauses h

theorem skip_holding (target : Int) (fuel : Nat) (skipCalled : Bool) {queue : PriorityQueue σ}
    {clauses : Multiset (σ × List Span)} (hholds : Holds (lessThan spans) queue (clauses.map Prod.fst))
    (hall : ∀ clause ∈ clauses, GoesOn spans clause) (hfuel : before spans target clauses ≤ fuel) :
    Holding spans (skip spans target fuel skipCalled queue).2
      ((total spans clauses).filter fun span => ¬ span.doc < target) := by
  have hdone : ∀ {queue : PriorityQueue σ} {clauses : Multiset (σ × List Span)},
      Holds (lessThan spans) queue (clauses.map Prod.fst) → (∀ clause ∈ clauses, GoesOn spans clause) →
      (∀ span ∈ total spans clauses, ¬ span.doc < target) →
      Holding spans queue ((total spans clauses).filter fun span => ¬ span.doc < target) :=
    fun hholds hall hge => ⟨_, hholds, hall, Multiset.filter_eq_self.mpr hge⟩
  induction fuel generalizing skipCalled queue clauses with
  | zero =>
      rw [skip]
      apply hdone hholds hall
      intro span hspan
      rw [total, Multiset.mem_bind] at hspan
      obtain ⟨clause, hclause, hspan⟩ := hspan
      have hge := Multiset.countP_eq_zero.mp (Nat.le_zero.mp hfuel) clause hclause
      rcases Multiset.mem_cons.mp hspan with rfl | hrest
      · exact hge
      · have hle := Span.doc_le ((List.pairwise_cons.mp (hall clause hclause).2).1 span hrest)
        omega
  | succ fuel ih =>
      rw [skip]
      rcases top_cases hholds hall with ⟨rfl, htop, -⟩ | ⟨top, rest, clauses', rfl, htop, -, hpop, hleast⟩
      · rw [htop]
        exact hdone hholds hall fun span hspan => absurd hspan (Multiset.notMem_zero _)
      · rw [htop]
        dsimp only
        have hgoes := hall (top, rest) (Multiset.mem_cons_self _ _)
        have hothers : ∀ clause ∈ clauses', GoesOn spans clause :=
          fun clause hmem => hall clause (Multiset.mem_cons_of_mem hmem)
        by_cases hlt : (spans.span top).doc < target
        · rw [if_pos hlt]
          have hcount : before spans target clauses' ≤ fuel := by
            rw [before_cons_of_lt hlt] at hfuel
            exact Nat.le_of_succ_le_succ hfuel
          have hfilter := filter_goesOn hgoes hlt
          have hsorted := (List.pairwise_cons.mp hgoes.2).2
          have hlegal : ∀ doc, some (spans.span top).doc = some doc → doc < target := by
            rintro doc hdoc
            cases hdoc
            exact hlt
          rw [total_cons, Multiset.filter_add, hfilter]
          have hsub := hsorted.sublist (List.dropWhile_suffix (l := rest) fun span => decide (span.doc < target)).sublist
          generalize hremaining : rest.dropWhile (·.doc < target) = remaining at hsub ⊢
          cases remaining with
          | nil =>
              rw [(hgoes.1.skipTo_nil hlegal hremaining).1, if_neg Bool.false_ne_true]
              simpa using ih true hpop hothers hcount
          | cons span rest' =>
              obtain ⟨htrue, hspan, hfollows⟩ := hgoes.1.skipTo_cons hlegal hremaining
              rw [htrue, if_pos rfl]
              have hge := neg_of_dropWhile_eq_cons hremaining
              rw [decide_eq_false_iff_not] at hge
              rw [← hspan] at hge hfollows hsub
              have hgoes' : GoesOn spans ((spans.skipTo top target).2, rest') := ⟨hfollows, hsub⟩
              have hrec := ih true (moved_holds htop hholds (spans.skipTo top target).2 rest')
                (fun clause hmem => by
                  rcases Multiset.mem_cons.mp hmem with rfl | hmem
                  · exact hgoes'
                  · exact hothers clause hmem)
                (by
                  rw [before_cons_of_not_lt hge]
                  exact hcount)
              have hself : ((spans.span (spans.skipTo top target).2 ::ₘ (rest' : Multiset Span)).filter
                  fun span => ¬ span.doc < target) = spans.span (spans.skipTo top target).2 ::ₘ (rest' : Multiset Span) := by
                apply filter_self hge
                intro span' hmem
                rcases Multiset.mem_cons.mp hmem with rfl | hmem
                · exact le_rfl
                · exact (List.pairwise_cons.mp hsub).1 span' hmem
              rw [total_cons, Multiset.filter_add, hself, hspan] at hrec
              exact hrec
        · rw [if_neg hlt]
          apply hdone hholds hall
          intro span hspan
          have hle := Span.doc_le (hleast span hspan)
          omega

theorem skip_called (target : Int) (fuel : Nat) (queue : PriorityQueue σ) :
    (skip spans target fuel true queue).1 = true := by
  induction fuel generalizing queue with
  | zero => rfl
  | succ fuel ih =>
      rw [skip]
      cases queue.top with
      | none => rfl
      | some top =>
          dsimp only
          split_ifs
          · exact ih _
          · exact ih _
          · rfl

/-- The queue has what is still to come; the clause on top is at the span that the enumeration is at. -/
def Inv (spans : Spans σ) (s : OrSpans σ) (position : Option Int) (pending : List Span) : Prop :=
  (s.queue = none ∧ position = some (-1) ∧ pending.Pairwise (· ≤ ·) ∧ s.clauses.length < INT_MAX ∧
    ∃ lists, List.Forall₂ (fun clause list => spans.Enumerates clause list ∧ list.Pairwise (· ≤ ·)) s.clauses lists ∧
      (pending : Multiset Span) = lists.flatten) ∨
  (∃ queue, s.queue = some queue ∧ position = none ∧ pending = [] ∧ Holding spans queue 0) ∨
  ∃ queue span, s.queue = some queue ∧ position = some span.doc ∧ (span :: pending).Pairwise (· ≤ ·) ∧
    Holding spans queue (span ::ₘ (pending : Multiset Span))

theorem keeps_of_holding {queue : PriorityQueue σ} {remaining : List Span}
    (h : Holding spans queue (remaining : Multiset Span)) (hsorted : remaining.Pairwise (· ≤ ·)) (clauses : List σ) :
    (orSpans spans).Keeps (Inv spans) (!queue.empty, { clauses := clauses, queue := some queue }) remaining := by
  obtain ⟨held, hholds, hall, htotal⟩ := id h
  rcases top_cases hholds hall with ⟨rfl, -, hempty⟩ | ⟨top, rest, clauses', rfl, htop, hempty, -, hleast⟩
  · obtain rfl := (Multiset.coe_eq_zero remaining).mp htotal
    rw [hempty]
    exact ⟨rfl, Or.inr (Or.inl ⟨queue, rfl, rfl, rfl, h⟩)⟩
  · rw [← htotal] at hleast
    have hmem : spans.span top ∈ (remaining : Multiset Span) := by
      rw [htotal, total_cons]
      exact Multiset.mem_add.mpr (Or.inl (Multiset.mem_cons_self _ _))
    cases remaining with
    | nil => exact absurd hmem (Multiset.notMem_zero _)
    | cons span pending =>
        have heq : spans.span top = span := by
          apply le_antisymm (hleast span (Multiset.mem_coe.mpr List.mem_cons_self))
          rcases List.mem_cons.mp (Multiset.mem_coe.mp hmem) with hspan | hspan
          · exact hspan.ge
          · exact (List.pairwise_cons.mp hsorted).1 _ hspan
        rw [hempty]
        refine ⟨rfl, ?_, Or.inr (Or.inr ⟨queue, span, rfl, rfl, hsorted, h⟩)⟩
        simp only [orSpans, Option.bind_some, htop]
        exact heq

/-- The call that `initSpanQueue` makes on each clause. -/
def initCall (target : Int) : SpansCall := if target = -1 then .next else .skipTo target

theorem addClauses_holding (target : Int) {clauses : List σ} {lists : List (List Span)}
    (h : List.Forall₂ (fun clause list => spans.Enumerates clause list ∧ list.Pairwise (· ≤ ·)) clauses lists)
    (hlegal : (initCall target).Legal (some (-1))) {queue : PriorityQueue σ} {all : Multiset Span}
    (hholding : Holding spans queue all) (hroom : queue.size + clauses.length < queue.heapSize) :
    Holding spans (addClauses spans target clauses queue)
      (all + (lists.map (initCall target).remaining).flatten) := by
  induction h generalizing queue all with
  | nil =>
      rw [addClauses]
      exact (add_zero all).symm ▸ hholding
  | cons hclause htail ih =>
      rename_i clause list clauses lists
      rw [List.length_cons] at hroom
      have hmoved : (if target = -1 then spans.next clause else spans.skipTo clause target) =
          spans.call clause (initCall target) := by
        unfold initCall
        split_ifs <;> rfl
      have hkeeps := hclause.1.keeps _ hlegal
      have hsorted : ((initCall target).remaining list).Pairwise (· ≤ ·) := by
        cases initCall target with
        | next => exact hclause.2
        | skipTo target => exact hclause.2.sublist (List.dropWhile_suffix _).sublist
      rw [addClauses, hmoved, List.map_cons, List.flatten_cons, ← Multiset.coe_add, ← add_assoc]
      generalize (initCall target).remaining list = remaining at hkeeps hsorted ⊢
      cases remaining with
      | nil =>
          rw [hkeeps.1, if_neg Bool.false_ne_true, Multiset.coe_nil, add_zero]
          exact ih hholding (by omega)
      | cons span rest =>
          obtain ⟨htrue, hspan, hfollows⟩ := hkeeps
          obtain ⟨held, hholds, hall, rfl⟩ := hholding
          obtain ⟨queue', hadd, hholds'⟩ := hholds.add strictWeakOn_lessThan (by omega)
            (x := (spans.call clause (initCall target)).2)
          have hsize := hholds.card
          have hsize' := hholds'.card
          have hheap := heapSize_add hadd
          rw [Multiset.card_cons] at hsize'
          rw [htrue, if_pos rfl, hadd]
          apply ih
          · refine ⟨((spans.call clause (initCall target)).2, rest) ::ₘ held, by rwa [Multiset.map_cons], ?_, ?_⟩
            · intro clause' hmem
              rcases Multiset.mem_cons.mp hmem with rfl | hmem
              · exact ⟨by rwa [hspan], by rwa [hspan]⟩
              · exact hall clause' hmem
            · rw [total_cons, hspan, ← Multiset.cons_coe, add_comm]
          · omega

/-- The clauses together have the spans of the call, where their merge is sorted. -/
theorem flatten_remaining {pending : List Span} {lists : List (List Span)} (hpending : pending.Pairwise (· ≤ ·))
    (hlists : ∀ list ∈ lists, list.Pairwise (· ≤ ·)) (hmerge : (pending : Multiset Span) = lists.flatten)
    (call : SpansCall) :
    (call.remaining pending : Multiset Span) = (lists.map call.remaining).flatten := by
  cases call with
  | next =>
      change (pending : Multiset Span) = (lists.map id).flatten
      rw [List.map_id]
      exact hmerge
  | skipTo target =>
      have hmap : lists.map (SpansCall.skipTo target).remaining =
          lists.map (List.filter fun span => ¬ span.doc < target) :=
        List.map_congr_left fun list hmem => dropWhile_eq_filter (hlists list hmem) target
      rw [hmap, ← List.filter_flatten, ← Multiset.filter_coe, ← hmerge, Multiset.filter_coe,
        ← dropWhile_eq_filter hpending]
      rfl

theorem remaining_sorted {pending : List Span} (h : pending.Pairwise (· ≤ ·)) (call : SpansCall) :
    (call.remaining pending).Pairwise (· ≤ ·) := by
  cases call with
  | next => exact h
  | skipTo target => exact h.sublist (List.dropWhile_suffix _).sublist

theorem initSpanQueue_keeps (target : Int) {s : OrSpans σ} {pending : List Span} {lists : List (List Span)}
    (hpending : pending.Pairwise (· ≤ ·)) (hroom : s.clauses.length < INT_MAX)
    (hlists : List.Forall₂ (fun clause list => spans.Enumerates clause list ∧ list.Pairwise (· ≤ ·)) s.clauses lists)
    (hmerge : (pending : Multiset Span) = lists.flatten) (hlegal : (initCall target).Legal (some (-1))) :
    (orSpans spans).Keeps (Inv spans) (initSpanQueue spans s target) ((initCall target).remaining pending) := by
  have hsorted : ∀ list ∈ lists, list.Pairwise (· ≤ ·) := by
    intro list hmem
    obtain ⟨index, hlt, rfl⟩ := List.getElem_of_mem hmem
    exact (hlists.get (hlists.length_eq ▸ hlt) hlt).2
  have hnew : Holding spans (PriorityQueue.new s.clauses.length) 0 :=
    ⟨0, holds_new _ _, fun clause hmem => absurd hmem (Multiset.notMem_zero clause), rfl⟩
  have hheap : (PriorityQueue.new s.clauses.length : PriorityQueue σ).size + s.clauses.length <
      (PriorityQueue.new s.clauses.length : PriorityQueue σ).heapSize := by
    unfold PriorityQueue.new
    dsimp only
    split_ifs <;> omega
  have hholding := addClauses_holding target hlists hlegal hnew hheap
  rw [zero_add, ← flatten_remaining hpending hsorted hmerge] at hholding
  exact keeps_of_holding hholding (remaining_sorted hpending _) s.clauses

theorem next_keeps {s : OrSpans σ} {queue : PriorityQueue σ} {span : Span} {pending : List Span}
    (hqueue : s.queue = some queue) (hsorted : (span :: pending).Pairwise (· ≤ ·))
    (h : Holding spans queue (span ::ₘ (pending : Multiset Span))) :
    (orSpans spans).Keeps (Inv spans) (next spans s) pending := by
  obtain ⟨held, hholds, hall, htotal⟩ := h
  rw [List.pairwise_cons] at hsorted
  rcases top_cases hholds hall with ⟨rfl, -, -⟩ | ⟨top, rest, clauses', rfl, htop, -, hpop, hleast⟩
  · exact absurd htotal (Multiset.cons_ne_zero)
  · have hspan : spans.span top = span := by
      have hmem : spans.span top ∈ span ::ₘ (pending : Multiset Span) := by
        rw [htotal, total_cons]
        exact Multiset.mem_add.mpr (Or.inl (Multiset.mem_cons_self _ _))
      apply le_antisymm (hleast span (htotal ▸ Multiset.mem_cons_self _ _))
      rcases Multiset.mem_cons.mp hmem with heq | hmem
      · exact heq.ge
      · exact hsorted.1 _ hmem
    have hgoes := hall (top, rest) (Multiset.mem_cons_self _ _)
    have hothers : ∀ clause ∈ clauses', GoesOn spans clause :=
      fun clause hmem => hall clause (Multiset.mem_cons_of_mem hmem)
    rw [total_cons, hspan, Multiset.cons_add, Multiset.cons_inj_right] at htotal
    obtain ⟨clauses, _⟩ := s
    subst hqueue
    rw [next]
    dsimp only
    rw [htop]
    dsimp only
    cases rest with
    | nil =>
        rw [hgoes.1.next_nil.1, if_neg Bool.false_ne_true]
        apply keeps_of_holding _ hsorted.2
        exact ⟨clauses', hpop, hothers, by rw [htotal, Multiset.coe_nil, zero_add]⟩
    | cons span' rest' =>
        obtain ⟨htrue, hspan', hfollows⟩ := hgoes.1.next_cons
        rw [htrue, if_pos rfl]
        have hholds' := moved_holds htop hholds (spans.next top).2 rest'
        have hholding : Holding spans (queue.changeTop (lessThan spans) (spans.next top).2) pending := by
          refine ⟨_, hholds', ?_, ?_⟩
          · intro clause hmem
            rcases Multiset.mem_cons.mp hmem with rfl | hmem
            · exact ⟨by rwa [hspan'], by rw [hspan']; exact (List.pairwise_cons.mp hgoes.2).2⟩
            · exact hothers clause hmem
          · rw [total_cons, hspan', htotal, ← Multiset.cons_coe]
        have hnonempty : (queue.changeTop (lessThan spans) (spans.next top).2).empty = false := by
          rw [← Bool.not_eq_true, hholds'.empty_iff, Multiset.map_cons]
          exact Multiset.cons_ne_zero
        have hkeeps := keeps_of_holding hholding hsorted.2 clauses
        rw [hnonempty] at hkeeps
        exact hkeeps

theorem skip_moves {target : Int} {queue : PriorityQueue σ} {top : σ} (htop : queue.top = some top)
    (hlt : (spans.span top).doc < target) (fuel : Nat) (hfuel : 0 < fuel) :
    (skip spans target fuel false queue).1 = true := by
  obtain ⟨fuel, rfl⟩ : ∃ n, fuel = n + 1 := ⟨fuel - 1, by omega⟩
  rw [skip, htop]
  dsimp only
  rw [if_pos hlt]
  split_ifs
  · exact skip_called target fuel _
  · exact skip_called target fuel _

theorem skipTo_keeps {clauses : List σ} {queue : PriorityQueue σ} {span : Span} {pending : List Span} {target : Int}
    (hsorted : (span :: pending).Pairwise (· ≤ ·)) (h : Holding spans queue (span ::ₘ (pending : Multiset Span)))
    (hlt : span.doc < target) :
    (orSpans spans).Keeps (Inv spans) (skipTo spans { clauses := clauses, queue := some queue } target)
      ((SpansCall.skipTo target).remaining pending) := by
  obtain ⟨held, hholds, hall, htotal⟩ := h
  rcases top_cases hholds hall with ⟨rfl, -, -⟩ | ⟨top, rest, clauses', rfl, htop, -, -, hleast⟩
  · exact absurd htotal Multiset.cons_ne_zero
  · have hcard := hholds.card
    rw [Multiset.card_map, Multiset.card_cons] at hcard
    have hbefore : before spans target ((top, rest) ::ₘ clauses') ≤ queue.size := by
      rw [← hcard, ← Multiset.card_cons]
      exact Multiset.countP_le_card _ _
    have hle := Span.doc_le (hleast span (htotal ▸ Multiset.mem_cons_self _ _))
    have hskipped := skip_moves htop (lt_of_le_of_lt hle hlt) queue.size (by omega)
    have hholding := skip_holding target queue.size false hholds hall hbefore
    have hrest := (List.pairwise_cons.mp hsorted).2
    rw [← htotal, Multiset.filter_cons_of_neg (p := fun span : Span => ¬ span.doc < target) _ (not_not.mpr hlt),
      Multiset.filter_coe, ← dropWhile_eq_filter hrest] at hholding
    rw [skipTo]
    dsimp only
    rw [if_pos hskipped]
    exact keeps_of_holding hholding (hrest.sublist (List.dropWhile_suffix _).sublist) clauses

theorem exhausted_keeps {clauses : List σ} {queue : PriorityQueue σ} (h : Holding spans queue 0) (call : SpansCall) :
    (orSpans spans).Keeps (Inv spans) ((orSpans spans).call { clauses := clauses, queue := some queue } call)
      (call.remaining []) := by
  obtain ⟨held, hholds, hall, htotal⟩ := id h
  rcases top_cases hholds hall with ⟨rfl, htop, -⟩ | ⟨top, rest, clauses', rfl, -, -, -, -⟩
  · have hnext : next spans { clauses := clauses, queue := some queue } =
        (false, { clauses := clauses, queue := some queue }) := by
      rw [next]
      dsimp only
      rw [htop]
    have hkeeps : (orSpans spans).Keeps (Inv spans) (false, { clauses := clauses, queue := some queue }) [] :=
      ⟨rfl, Or.inr (Or.inl ⟨queue, rfl, rfl, rfl, h⟩)⟩
    cases call with
    | next =>
        change (orSpans spans).Keeps (Inv spans) (next spans { clauses := clauses, queue := some queue }) []
        rw [hnext]
        exact hkeeps
    | skipTo target =>
        have hskip : skip spans target queue.size false queue = (false, queue) := by
          cases queue.size with
          | zero => rfl
          | succ size => rw [skip, htop]
        change (orSpans spans).Keeps (Inv spans) (skipTo spans { clauses := clauses, queue := some queue } target) []
        rw [skipTo]
        dsimp only
        rw [hskip, if_neg Bool.false_ne_true, hnext]
        exact hkeeps
  · rw [total_cons, Multiset.cons_add] at htotal
    exact absurd htotal.symm Multiset.cons_ne_zero

theorem orSpans_follows {s : OrSpans σ} {pending : List Span} {lists : List (List Span)} (hqueue : s.queue = none)
    (hroom : s.clauses.length < INT_MAX)
    (hlists : List.Forall₂ (fun clause list => spans.Enumerates clause list ∧ list.Pairwise (· ≤ ·)) s.clauses lists)
    (hpending : pending.Pairwise (· ≤ ·)) (hmerge : pending.Perm lists.flatten) :
    (orSpans spans).Enumerates s pending := by
  apply follows_of_invariant (Inv spans)
  · exact Or.inl ⟨hqueue, rfl, hpending, hroom, lists, hlists, Multiset.coe_eq_coe.mpr hmerge⟩
  · rintro ⟨clauses, _⟩ position pending call hinv hlegal
    rcases hinv with ⟨rfl, rfl, hpending, hroom, lists, hlists, hmerge⟩ | ⟨queue, rfl, rfl, rfl, h⟩ |
      ⟨queue, span, rfl, rfl, hsorted, h⟩
    · cases call with
      | next => exact initSpanQueue_keeps (-1) hpending hroom hlists hmerge trivial
      | skipTo target =>
          have hinit : initCall target = .skipTo target := by
            have hlt := hlegal (-1) rfl
            exact if_neg (by omega)
          have hkeeps := initSpanQueue_keeps target hpending hroom hlists hmerge (hinit.symm ▸ hlegal)
          rw [hinit] at hkeeps
          exact hkeeps
    · exact exhausted_keeps h call
    · cases call with
      | next => exact next_keeps (s := { clauses := clauses, queue := some queue }) rfl hsorted h
      | skipTo target => exact skipTo_keeps hsorted h (hlegal span.doc rfl)

end OrSpans

end LucenePlusPlus
