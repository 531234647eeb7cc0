import LucenePlusPlus.PorterRefinement

/-!
Each step of the stemmer does with the word in the buffer what the step of the Porter algorithm does with the word.
-/

namespace LucenePlusPlus.PorterStemmer
open LoggedProgram (ofState modify ask result result_bind result_bind_of_eq bind_of_eq ofState_of_eq)
open Porter (hasVowel endsDouble endsCvc applies before longestRule)

variable {s : PorterStemmer} {w v text : WString} {n : Nat} {suffix : String} {α : Type}

/-- The whole suffix has been compared, and the whole replacement is in the buffer. -/
def Access.Whole (ops : MemoryOps) : Access → Prop
  | .compare window suffix => ops.memcmp window suffix = (window == suffix)
  | .replace window text => ops.memmove window text = text

/-- A suffix is not longer than the word, has its last letter, and its first bytes are those of the end of the word. -/
def Looks (suffix : String) (w : WString) : Prop :=
  ((letters suffix).getLast? = w.getLast? ∧ (letters suffix).length ≤ w.length) ∧
    memory.memcmp (w.drop (w.length - (letters suffix).length)) (letters suffix) = true

/-- None of the suffixes before the first that the word ends with looks like one. -/
def TellsApart (suffixes : List String) (w : WString) : Prop :=
  ∀ suffix ∈ suffixes.takeWhile (fun suffix => !applies suffix w), ¬Looks suffix w

/-- The letters of a text that are not copied are in the place already. -/
def Copied (old text : WString) : Prop := memory.memmove (old.take text.length) text = text

instance {old : WString} : Decidable (Copied old text) := inferInstanceAs (Decidable (_ = _))

theorem tellsApart_nil : TellsApart [] w ↔ True := iff_true_intro fun _ hmem => absurd hmem List.not_mem_nil

theorem tellsApart_cons_of (h : applies suffix w) (suffixes : List String) : TellsApart (suffix :: suffixes) w ↔ True := by
  simp [TellsApart, h]

theorem tellsApart_cons_of_not (h : ¬applies suffix w) (suffixes : List String) :
    TellsApart (suffix :: suffixes) w ↔ ¬Looks suffix w ∧ TellsApart suffixes w := by
  simp [TellsApart, h]

/-- The program ends with `a` and `s'`, and what it asks the memory is done for the whole exactly if `P`. -/
def Runs (P : Prop) (program : Stem α) (s : PorterStemmer) (a : α) (s' : PorterStemmer) : Prop :=
  ∃ log, program whole s = (log, some (a, s')) ∧ ((∀ access ∈ log, access.Whole memory) ↔ P)

theorem runs_silent {program : Stem α} {a : α} {s' : PorterStemmer} (h : program whole s = ([], some (a, s'))) :
    Runs True program s a s' := ⟨[], h, iff_true_intro fun _ hmem => absurd hmem List.not_mem_nil⟩

theorem runs_ofState {f : PorterStemmer → Option α} {a : α} (h : f s = some a) : Runs True (ofState f) s a s :=
  runs_silent (ofState_of_eq h)

variable {P Q : Prop} {β : Type}

theorem Runs.iff {program : Stem α} {a : α} {s' : PorterStemmer} (h : Runs P program s a s') (hiff : P ↔ Q) :
    Runs Q program s a s' := propext hiff ▸ h

theorem Runs.bind {program : Stem α} {next : α → Stem β} {a : α} {b : β} {s' s'' : PorterStemmer}
    (h : Runs P program s a s') (hnext : Runs Q (next a) s' b s'') : Runs (P ∧ Q) (program >>= next) s b s'' := by
  obtain ⟨log, heq, hlog⟩ := h
  obtain ⟨log', heq', hlog'⟩ := hnext
  exact ⟨log ++ log', by rw [bind_of_eq heq, heq'], List.forall_mem_append.trans (and_congr hlog hlog')⟩

theorem runs_bind {program : Stem α} {next : α → Stem β} {a : α} {b : β} {s' s'' : PorterStemmer}
    (h : Runs True program s a s') (hnext : Runs Q (next a) s' b s'') : Runs Q (program >>= next) s b s'' :=
  (h.bind hnext).iff (and_iff_right trivial)

theorem Runs.result_eq {program : Stem α} {a : α} {s' : PorterStemmer} (h : Runs P program s a s') :
    result program whole s = some (a, s') := by
  obtain ⟨log, heq, -⟩ := h
  rw [result, heq]

/-- A step of the stemmer leaves this word in the buffer. -/
def Leaves (P : Prop) (program : Stem Unit) (s : PorterStemmer) (w : WString) (n : Nat) : Prop :=
  ∃ s', Runs P program s () s' ∧ Holds s' w n

theorem Leaves.iff {program : Stem Unit} (h : Leaves P program s w n) (hiff : P ↔ Q) : Leaves Q program s w n :=
  propext hiff ▸ h

theorem leaves_pure (h : Holds s w n) : Leaves True (pure ()) s w n := ⟨s, runs_silent rfl, h⟩

theorem leaves_and {program : Stem α} {next : α → Stem Unit} {a : α} {s' : PorterStemmer}
    (h : Runs P program s a s') (hnext : Leaves Q (next a) s' w n) : Leaves (P ∧ Q) (program >>= next) s w n := by
  obtain ⟨s'', hruns, hholds⟩ := hnext
  exact ⟨s'', h.bind hruns, hholds⟩

theorem leaves_bind {program : Stem α} {next : α → Stem Unit} {a : α} {s' : PorterStemmer}
    (h : Runs True program s a s') (hnext : Leaves Q (next a) s' w n) : Leaves Q (program >>= next) s w n :=
  (leaves_and h hnext).iff (and_iff_right trivial)

theorem leaves_seq {program next : Stem Unit} (h : Leaves P program s v n)
    (hnext : ∀ s', Holds s' v n → Leaves Q next s' w n) : Leaves (P ∧ Q) (do program; next) s w n := by
  obtain ⟨s', hruns, hholds⟩ := h
  exact leaves_and hruns (hnext s' hholds)

theorem Holds.withJ (h : Holds s w n) (j : Int) : Holds { s with j } w n := ⟨h.len, h.k, h.word⟩

theorem memcmp_self (bytes : Nat) (text : WString) : memcmp bytes text text = true := by
  induction text generalizing bytes with
  | nil => rfl
  | cons c text ih =>
    rw [memcmp]
    split
    · exact beq_self_eq_true _
    · rw [beq_self_eq_true, Bool.true_and, ih]

theorem Holds.ends_of_applies (h : Holds s w n) (hw : w ≠ []) (hsuffix : letters suffix ≠ []) (happ : applies suffix w) :
    ∃ s', Runs True (PorterStemmer.ends (letters suffix)) s true s' ∧ Holds s' w n ∧ UpTo s' (before suffix w) := by
  have hlen := length_before happ
  have hk := h.k
  rw [applies] at happ
  refine ⟨_, ⟨_, by rw [h.ends hw hsuffix, happ, if_pos rfl], ?_⟩, h.withJ _, ?_, ?_⟩
  · rw [isSuffixOf_iff_drop, beq_iff_eq] at happ
    refine iff_true_intro fun access hmem => ?_
    split at hmem
    · rw [List.mem_singleton.mp hmem, happ]
      exact (memcmp_self _ _).trans (beq_self_eq_true _).symm
    · exact absurd hmem List.not_mem_nil
  · dsimp only
    omega
  · change s.b.take _ = _
    have hword : (s.b.take w.length).take (before suffix w).length = w.take (before suffix w).length := by rw [h.word]
    rw [List.take_take, Nat.min_eq_left (by omega)] at hword
    rw [hword, before, List.length_take, Nat.min_eq_left (Nat.sub_le _ _)]

theorem Holds.ends_of_not (h : Holds s w n) (hw : w ≠ []) (hsuffix : letters suffix ≠ []) (happ : ¬applies suffix w) :
    Runs (¬Looks suffix w) (PorterStemmer.ends (letters suffix)) s false s := by
  rw [Bool.not_eq_true, applies] at happ
  refine ⟨_, by rw [h.ends hw hsuffix, happ]; rfl, ?_⟩
  rw [isSuffixOf_iff_drop] at happ
  rw [Looks]
  split
  case isTrue hends =>
    rw [List.forall_mem_singleton, Access.Whole, happ, and_iff_right hends, Bool.not_eq_true]
  case isFalse hends =>
    exact iff_of_true (fun _ hmem => absurd hmem List.not_mem_nil) fun hlooks => hends hlooks.1

theorem UpTo.setto {old : WString} (h : UpTo s v) (hlen : s.b.length = n) (hword : s.b.take (v ++ old).length = v ++ old)
    (hle : text.length ≤ old.length) : Leaves (Copied old text) (PorterStemmer.setto text) s (v ++ text) n := by
  have hj := h.j
  have hnat : (s.j + 1).toNat = v.length := by omega
  have hbuffer := congrArg List.length hword
  rw [List.length_take, List.length_append] at hbuffer
  have hroom : 0 ≤ s.j + 1 ∧ s.j + 1 + text.length ≤ s.b.length := by omega
  have hwindow : s.windowAfter text.length = old.take text.length := by
    have hdrop := congrArg (List.drop v.length) hword
    rw [List.drop_take, List.drop_left, List.length_append, Nat.add_sub_cancel_left] at hdrop
    rw [windowAfter, hnat, ← hdrop, List.take_take, Nat.min_eq_left hle]
  refine leaves_bind (runs_ofState (if_pos hroom)) ⟨_, ⟨_, rfl, ?_⟩, ?_, ?_, ?_⟩
  · dsimp only
    rw [List.forall_mem_singleton, hwindow]
    rfl
  · rw [hnat, h.word]
    change (v ++ text ++ s.b.drop (v.length + text.length)).length = n
    rw [List.length_append, List.length_append, List.length_drop]
    omega
  · rw [List.length_append]
    push_cast
    omega
  · rw [hnat, h.word]
    exact List.take_left

theorem UpTo.r {old : WString} (h : UpTo s v) (hs : Holds s w n) (hw : w = v ++ old) (hle : text.length ≤ old.length) :
    Leaves (0 < Porter.measure v → Copied old text) (PorterStemmer.r text) s
      (if 0 < Porter.measure v then v ++ text else w) n := by
  refine leaves_bind (runs_ofState h.m) ?_
  split_ifs with hpos
  · subst hw
    exact (h.setto hs.len hs.word hle).iff (imp_iff_right hpos).symm
  · exact (leaves_pure hs).iff (iff_of_true trivial fun h => absurd h hpos)

theorem Holds.move (h : Holds s (v ++ text) n) {by_ : Int} (hby : by_ = -(text.length : Int)) :
    Leaves True (PorterStemmer.move by_) s v n := by
  have hk := h.k
  refine ⟨_, runs_silent rfl, h.len, ?_, ?_⟩
  · rw [List.length_append] at hk
    push_cast at hk
    dsimp only
    omega
  · have hword : (s.b.take (v ++ text).length).take v.length = (v ++ text).take v.length := by rw [h.word]
    rwa [List.take_take, Nat.min_eq_left (by rw [List.length_append]; omega), List.take_left] at hword

/-- The suffixes of the rules are told apart, and the replacement of the rule that is found is copied as a whole. -/
def WholeRules (rules : List (String × String)) (w : WString) : Prop :=
  TellsApart (rules.map Prod.fst) w ∧ ∀ rule ∈ rules.find? fun rule => applies rule.1 w,
    0 < Porter.measure (before rule.1 w) → Copied (letters rule.1) (letters rule.2)

theorem Holds.tryRules (h : Holds s w n) (hw : w ≠ []) {rules : List (String × String)}
    (hrules : ∀ rule ∈ rules, letters rule.1 ≠ [] ∧ (letters rule.2).length ≤ (letters rule.1).length) :
    Leaves (WholeRules rules w) (PorterStemmer.tryRules rules) s
      (Porter.replaceFound w (rules.find? fun rule => applies rule.1 w)) n := by
  induction rules with
  | nil => exact (leaves_pure h).iff (by simp [WholeRules, tellsApart_nil])
  | cons rule rules ih =>
    rw [List.forall_mem_cons] at hrules
    rw [PorterStemmer.tryRules, WholeRules, List.map_cons]
    by_cases happ : applies rule.1 w
    · obtain ⟨s', hends, hholds, hupTo⟩ := h.ends_of_applies hw hrules.1.1 happ
      simp only [List.find?_cons, happ, tellsApart_cons_of happ, true_and, Option.mem_some_iff, forall_eq']
      exact leaves_bind hends (hupTo.r hholds (before_append happ) hrules.1.2)
    · simp only [List.find?_cons, happ, tellsApart_cons_of_not happ, and_assoc]
      exact leaves_and (h.ends_of_not hw hrules.1.1 happ) (ih hrules.2)

theorem mem_caseOf {cases : List (Char × List α)} {c : WChar} {a : α} (h : a ∈ caseOf cases c) :
    ∃ x ∈ cases, a ∈ x.2 := by
  induction cases with
  | nil => exact absurd h List.not_mem_nil
  | cons x cases ih =>
    rw [caseOf, List.map_cons, List.lookup_cons] at h
    cases hx : c == letter x.1 with
    | true =>
      rw [hx] at h
      exact ⟨x, List.mem_cons_self, h⟩
    | false =>
      rw [hx] at h
      obtain ⟨y, hy, hmem⟩ := ih h
      exact ⟨y, List.mem_cons_of_mem _ hy, hmem⟩

theorem Holds.charAt_pred (h : Holds s w n) (hw : 2 ≤ w.length) : s.charAt (s.k - 1) = w.reverse[1]? := by
  have hk : s.k - 1 = ((w.length - 2 : Nat) : Int) := by
    have := h.k
    omega
  rw [hk, charAt_eq h.word (by omega), List.getElem?_reverse (by omega)]
  rfl

theorem getElem?_reverse_zero (w : WString) : w.reverse[0]? = w.getLast? := by
  rw [← List.head?_eq_getElem?, List.head?_reverse]

theorem getLast?_of_applies (hsuffix : letters suffix ≠ []) (happ : applies suffix w) :
    (letters suffix).getLast? = w.getLast? := by
  have hword := congrArg List.getLast? (before_append happ)
  rw [List.getLast?_append_of_ne_nil _ hsuffix] at hword
  exact hword.symm

theorem exists_reverse_one (hw : 1 < w.length) : ∃ c, w.reverse[1]? = some c :=
  ⟨_, List.getElem?_eq_getElem (by rw [List.length_reverse]; exact hw)⟩

theorem not_applies_of_length (h : w.length < (letters suffix).length) : ¬applies suffix w := by
  intro happ
  have := length_before happ
  omega

/-- A word of one letter ends with none of the suffixes, and has no letter before the last. -/
theorem none_of_one_letter (name : α → String) {rules : List α} (h : ∀ rule ∈ rules, 1 < (letters (name rule)).length)
    (hw : w.length ≤ 1) : rules.find? (fun rule => applies (name rule) w) = none ∧ w.reverse[1]? = none := by
  refine ⟨List.find?_eq_none.mpr fun rule hrule => not_applies_of_length (hw.trans_lt (h rule hrule)), ?_⟩
  rw [List.getElem?_eq_none_iff, List.length_reverse]
  exact hw

theorem step2Cases_rules :
    (∀ x ∈ step2Cases, ∀ rule ∈ x.2, letters rule.1 ≠ [] ∧ (letters rule.2).length ≤ (letters rule.1).length) ∧
    (step2Cases.Pairwise fun a b => letter a.1 ≠ letter b.1) ∧
    (∀ x ∈ step2Cases, ∀ rule ∈ x.2, (letters rule.1).reverse[1]? = some (letter x.1)) ∧
    (Porter.step2Rules.Pairwise fun a b => ¬letters a.1 <:+ letters b.1) ∧
    ∀ rule ∈ Porter.step2Rules, 1 < (letters rule.1).length := by
  decide

theorem Holds.step2 (h : Holds s w n) (hw : w ≠ []) :
    Leaves (∀ c ∈ w.reverse[1]?, WholeRules (caseOf step2Cases c) w) step2 s (Porter.step2 w) n := by
  obtain ⟨hrules, hkeys, hletters, hpair, hlong⟩ := step2Cases_rules
  have hk := h.k
  have hpos := List.length_pos_iff.mpr hw
  rw [Porter.step2, Porter.replaceSuffix, longestRule_eq_find? _ hpair]
  refine leaves_bind (runs_ofState rfl) ?_
  split_ifs with hzero
  · obtain ⟨hnone, hshort⟩ := none_of_one_letter Prod.fst hlong (w := w) (by omega)
    rw [hnone, hshort]
    exact (leaves_pure h).iff (iff_of_true trivial fun _ hmem => by cases hmem)
  · have hlt : 1 < w.length := by omega
    obtain ⟨c, hc⟩ := exists_reverse_one hlt
    simp only [hc, Option.mem_some_iff, forall_eq']
    refine leaves_bind (runs_ofState ((h.charAt_pred hlt).trans hc)) ?_
    have hfind := find?_caseOf Prod.fst 1 hkeys hletters hc
    have hflat : step2Cases.flatMap Prod.snd = Porter.step2Rules := rfl
    rw [← hflat, ← hfind]
    exact h.tryRules hw fun rule hrule => by
      obtain ⟨x, hx, hmem⟩ := mem_caseOf hrule
      exact hrules x hx rule hmem

theorem step3Cases_rules :
    (∀ x ∈ step3Cases, ∀ rule ∈ x.2, letters rule.1 ≠ [] ∧ (letters rule.2).length ≤ (letters rule.1).length) ∧
    (step3Cases.Pairwise fun a b => letter a.1 ≠ letter b.1) ∧
    (∀ x ∈ step3Cases, ∀ rule ∈ x.2, (letters rule.1).reverse[0]? = some (letter x.1)) ∧
    (Porter.step3Rules.Pairwise fun a b => ¬letters a.1 <:+ letters b.1) := by
  decide

theorem Holds.step3 (h : Holds s w n) (hw : w ≠ []) :
    Leaves (∀ c ∈ w.getLast?, WholeRules (caseOf step3Cases c) w) step3 s (Porter.step3 w) n := by
  obtain ⟨hrules, hkeys, hletters, hpair⟩ := step3Cases_rules
  rw [Porter.step3, Porter.replaceSuffix, longestRule_eq_find? _ hpair]
  have hlast := List.getLast?_eq_some_getLast hw
  simp only [hlast, Option.mem_some_iff, forall_eq']
  refine leaves_bind (runs_ofState ((h.charAt_last hw).trans hlast)) ?_
  have hfind := find?_caseOf Prod.fst 0 hkeys hletters ((getElem?_reverse_zero w).trans hlast)
  have hflat : step3Cases.flatMap Prod.snd = Porter.step3Rules := rfl
  rw [← hflat, ← hfind]
  exact h.tryRules hw fun rule hrule => by
    obtain ⟨x, hx, hmem⟩ := mem_caseOf hrule
    exact hrules x hx rule hmem

theorem UpTo.charAt_j (h : UpTo s v) (hv : v ≠ []) : s.charAt s.j = v.getLast? := by
  have hpos := List.length_pos_iff.mpr hv
  have hj : s.j = ((v.length - 1 : Nat) : Int) := by
    have := h.j
    omega
  rw [hj, charAt_eq h.word (by omega), List.getLast?_eq_getElem?]

theorem Holds.endsInStep4 (h : Holds s w n) (hw : w ≠ []) (hsuffix : letters suffix ≠ []) (happ : applies suffix w)
    (hion : suffix = "ion" → before suffix w ≠ []) :
    ∃ s', Runs True (PorterStemmer.endsInStep4 suffix) s (Porter.canGo w suffix) s' ∧ Holds s' w n ∧
      UpTo s' (before suffix w) := by
  obtain ⟨s', hends, hholds, hupTo⟩ := h.ends_of_applies hw hsuffix happ
  refine ⟨s', runs_bind hends ?_, hholds, hupTo⟩
  rw [if_pos rfl, Porter.canGo]
  split_ifs with hname
  · have hlast := List.getLast?_eq_some_getLast (hion hname)
    rw [hlast, decide_eq_false (not_not.mpr hname), Bool.false_or]
    exact runs_bind (runs_ofState ((hupTo.charAt_j (hion hname)).trans hlast)) (runs_silent rfl)
  · rw [decide_eq_true hname]
    exact runs_silent rfl

theorem Holds.tryEnds (h : Holds s w n) (hw : w ≠ []) {suffixes : List String}
    (hne : ∀ suffix ∈ suffixes, letters suffix ≠ [])
    (hion : suffixes.Pairwise fun a b => a = "ion" → (letters a).getLast? ≠ (letters b).getLast?)
    (hword : w ≠ letters "ion") :
    ∃ s', Runs (TellsApart suffixes w) (PorterStemmer.tryEnds suffixes) s
        ((suffixes.find? fun suffix => applies suffix w).any (Porter.canGo w)) s' ∧ Holds s' w n ∧
      ∀ suffix, (suffixes.find? fun suffix => applies suffix w) = some suffix → Porter.canGo w suffix →
        UpTo s' (before suffix w) := by
  induction suffixes generalizing s with
  | nil => exact ⟨s, (runs_silent rfl).iff tellsApart_nil.symm, h, fun _ hnone => absurd hnone (by simp)⟩
  | cons first suffixes ih =>
    rw [List.forall_mem_cons] at hne
    rw [List.pairwise_cons] at hion
    rw [PorterStemmer.tryEnds]
    by_cases happ : applies first w
    · have hbefore : first = "ion" → before first w ≠ [] := by
        rintro rfl hnil
        have heq := before_append happ
        rw [hnil, List.nil_append] at heq
        exact hword heq
      obtain ⟨s', hends, hholds, hupTo⟩ := h.endsInStep4 hw hne.1 happ hbefore
      simp only [List.find?_cons, happ, tellsApart_cons_of happ]
      cases hgo : Porter.canGo w first with
      | true =>
        rw [hgo] at hends
        refine ⟨s', runs_bind hends (by rw [if_pos rfl, Option.any_some, hgo]; exact runs_silent rfl), hholds, ?_⟩
        rintro _ ⟨⟩ -
        exact hupTo
      | false =>
        have hname : first = "ion" := by
          by_contra hname
          rw [Porter.canGo, decide_eq_true hname] at hgo
          cases hgo
        -- the suffixes after `ion` do not have its last letter
        have hother : ∀ other ∈ suffixes, (letters other).getLast? ≠ w.getLast? := by
          intro other hmem hlast
          exact hion.1 other hmem hname ((getLast?_of_applies hne.1 happ).trans hlast.symm)
        have hnone : suffixes.find? (fun suffix => applies suffix w) = none := by
          rw [List.find?_eq_none]
          exact fun other hmem happ' => hother other hmem (getLast?_of_applies (hne.2 other hmem) happ')
        have htells : TellsApart suffixes w := fun other hmem hlooks =>
          hother other ((List.takeWhile_sublist _).subset hmem) hlooks.1.1
        obtain ⟨s'', hruns, hholds', -⟩ := ih hholds hne.2 hion.2
        rw [hgo] at hends
        rw [hnone] at hruns
        refine ⟨s'', runs_bind hends ?_, hholds', ?_⟩
        · rw [if_neg Bool.false_ne_true, Option.any_some, hgo]
          exact hruns.iff (iff_true_intro htells)
        · rintro _ ⟨⟩ hgo'
          rw [hgo] at hgo'
          cases hgo'
    · have hends : Runs (¬Looks first w) (PorterStemmer.endsInStep4 first) s false s :=
        ((h.ends_of_not hw hne.1 happ).bind (runs_silent rfl)).iff (and_iff_left trivial)
      obtain ⟨s', hruns, hholds, hupTo⟩ := ih h hne.2 hion.2
      simp only [List.find?_cons, happ, tellsApart_cons_of_not happ]
      exact ⟨s', hends.bind hruns, hholds, hupTo⟩

theorem step4Cases_suffixes :
    (∀ x ∈ step4Cases, (∀ suffix ∈ x.2, letters suffix ≠ []) ∧
      x.2.Pairwise fun a b => a = "ion" → (letters a).getLast? ≠ (letters b).getLast?) ∧
    (step4Cases.Pairwise fun a b => letter a.1 ≠ letter b.1) ∧
    (∀ x ∈ step4Cases, ∀ suffix ∈ x.2, (letters suffix).reverse[1]? = some (letter x.1)) ∧
    (Porter.step4Suffixes.Pairwise fun a b => ¬letters a <:+ letters b) ∧
    ∀ suffix ∈ Porter.step4Suffixes, 1 < (letters suffix).length := by
  decide

theorem caseOf_eq (cases : List (Char × List α)) (c : WChar) : caseOf cases c = [] ∨ ∃ x ∈ cases, caseOf cases c = x.2 := by
  induction cases with
  | nil => exact .inl rfl
  | cons x cases ih =>
    rw [caseOf, List.map_cons, List.lookup_cons]
    cases c == letter x.1 with
    | true => exact .inr ⟨x, List.mem_cons_self, rfl⟩
    | false =>
      obtain hnil | ⟨y, hy, heq⟩ := ih
      · exact .inl hnil
      · exact .inr ⟨y, List.mem_cons_of_mem _ hy, heq⟩

theorem Holds.step4 (h : Holds s w n) (hw : w ≠ []) (hword : w ≠ letters "ion") :
    Leaves (∀ c ∈ w.reverse[1]?, TellsApart (caseOf step4Cases c) w) step4 s (Porter.step4 w) n := by
  obtain ⟨hsuffixes, hkeys, hletters, hpair, hlong⟩ := step4Cases_suffixes
  have hk := h.k
  have hpos := List.length_pos_iff.mpr hw
  rw [Porter.step4, longestRule_eq_find? id hpair]
  refine leaves_bind (runs_ofState rfl) ?_
  split_ifs with hzero
  · obtain ⟨hnone, hshort⟩ := none_of_one_letter id hlong (w := w) (by omega)
    rw [hnone, hshort]
    exact (leaves_pure h).iff (iff_of_true trivial fun _ hmem => by cases hmem)
  · have hlt : 1 < w.length := by omega
    obtain ⟨c, hc⟩ := exists_reverse_one hlt
    simp only [hc, Option.mem_some_iff, forall_eq']
    refine leaves_bind (runs_ofState ((h.charAt_pred hlt).trans hc)) ?_
    have hfind := find?_caseOf id 1 hkeys hletters hc
    have hflat : step4Cases.flatMap Prod.snd = Porter.step4Suffixes := rfl
    have hcase : (∀ suffix ∈ caseOf step4Cases c, letters suffix ≠ []) ∧
        (caseOf step4Cases c).Pairwise fun a b =>
          a = "ion" → (letters a).getLast? ≠ (letters b).getLast? := by
      obtain hnil | ⟨x, hx, heq⟩ := caseOf_eq step4Cases c
      · rw [hnil]
        exact ⟨fun _ hmem => absurd hmem List.not_mem_nil, List.Pairwise.nil⟩
      · rw [heq]
        exact hsuffixes x hx
    obtain ⟨s', hruns, hholds, hupTo⟩ := h.tryEnds hw hcase.1 hcase.2 hword
    rw [← hflat, ← hfind]
    refine (leaves_and (Q := True) hruns ?_).iff (and_iff_left trivial)
    change ∀ suffix, (caseOf step4Cases c).find? (fun suffix => applies (id suffix) w) = some suffix → _ at hupTo
    change Leaves _ (if ((caseOf step4Cases c).find? fun suffix => applies (id suffix) w).any (Porter.canGo w) then
      _ else _) _ _ _
    cases hfound : (caseOf step4Cases c).find? fun suffix => applies (id suffix) w with
    | none => exact leaves_pure hholds
    | some suffix =>
      rw [Option.any_some]
      dsimp only
      cases hgo : Porter.canGo w suffix with
      | false => exact leaves_pure hholds
      | true =>
        have hup := hupTo suffix hfound hgo
        rw [if_pos rfl, Bool.true_and]
        refine leaves_bind (runs_ofState hup.m) ?_
        simp only [decide_eq_true_eq]
        split_ifs
        · exact ⟨_, runs_silent rfl, hholds.len, hup.j, hup.word⟩
        · exact leaves_pure hholds

theorem Holds.step4_ion (h : Holds s (letters "ion") n) : result PorterStemmer.step4 whole s = none := by
  have hk : s.k = 2 := by
    have hk := h.k
    have hlen : (letters "ion").length = 3 := by decide
    omega
  have hc : s.charAt (s.k - 1) = some (letter 'o') := (h.charAt_pred (by decide)).trans (by decide)
  obtain ⟨s', hends, -, hupTo⟩ := h.ends_of_applies (by decide) (by decide) (show applies "ion" (letters "ion") by decide)
  have hj : s'.j < 0 := by
    have hj := hupTo.j
    have hlen : (before "ion" (letters "ion")).length = 0 := by decide
    omega
  have hcase : caseOf step4Cases (letter 'o') = ["ion", "ou"] := by decide
  have hnone : s'.charAt s'.j = none := if_neg (by omega)
  have hfirst : result (ofState fun s : PorterStemmer => some s.k : Stem Int) whole s = some (s.k, s) := rfl
  rw [PorterStemmer.step4, result_bind_of_eq hfirst, if_neg (by omega),
    result_bind_of_eq (runs_ofState hc).result_eq, hcase, PorterStemmer.tryEnds, PorterStemmer.endsInStep4, result_bind,
    result_bind, result_bind_of_eq hends.result_eq, if_pos rfl, if_pos rfl, result_bind, LoggedProgram.result_ofState, hnone]
  rfl

/-! ### Steps 1c and 5 -/

theorem getLast?_eq_iff_applies {l : Char} (hw : w ≠ []) (hsuffix : letters suffix = [letter l]) :
    w.getLast hw = letter l ↔ applies suffix w := by
  rw [applies, hsuffix, List.isSuffixOf_iff_suffix]
  constructor
  · intro h
    exact ⟨w.dropLast, by rw [← h, List.dropLast_append_getLast]⟩
  · rintro ⟨front, rfl⟩
    exact List.getLast_concat

theorem Holds.step1c (h : Holds s w n) (hw : w ≠ []) : Leaves True step1c s (Porter.step1c w) n := by
  have hy : letters "y" ≠ [] := by decide
  rw [Porter.step1c]
  by_cases happ : applies "y" w
  · obtain ⟨s', hends, hholds, hupTo⟩ := h.ends_of_applies hw hy happ
    rw [happ, Bool.true_and]
    refine leaves_bind hends (leaves_bind (runs_ofState hupTo.vowelinstem) ?_)
    split_ifs
    · have hlen := length_before happ
      have hone : (letters "y").length = 1 := by decide
      have hk := hholds.k
      have hnat : s'.k.toNat = (before "y" w).length := by omega
      have hle := hholds.le
      have hlast : (before "y" w ++ letters "i").length = (before "y" w).length + 1 := by
        rw [List.length_append]
        rfl
      refine ⟨_, runs_silent rfl, ?_, ?_, ?_⟩
      · exact (List.length_set ..).trans hholds.len
      · dsimp only
        rw [hlast]
        omega
      · have hbuffer : (before "y" w).length < s'.b.length := by
          rw [hholds.len]
          omega
        change (s'.b.set s'.k.toNat (letter 'i')).take _ = _
        rw [hnat, hlast, List.take_succ_eq_append_getElem (by rw [List.length_set]; exact hbuffer),
          List.take_set_of_le (Nat.le_refl _), hupTo.word, List.getElem_set_self]
        rfl
    · exact leaves_pure hholds
  · rw [Bool.not_eq_true] at happ
    rw [happ, Bool.false_and, if_neg Bool.false_ne_true]
    have hlooks : ¬Looks "y" w := by
      rintro ⟨⟨hlast, -⟩, -⟩
      rw [List.getLast?_eq_some_getLast hw] at hlast
      have happ' := (getLast?_eq_iff_applies hw (show letters "y" = [letter 'y'] by decide)).mp (Option.some.inj hlast.symm)
      rw [happ] at happ'
      cases happ'
    refine (leaves_and (h.ends_of_not hw hy ?_) (leaves_pure h)).iff (iff_of_true ⟨hlooks, trivial⟩ trivial)
    rw [happ]
    exact Bool.false_ne_true

theorem consonants_snoc (p : Bool) (w : WString) (c : WChar) :
    ∃ q, Porter.consonants p (w ++ [c]) = Porter.consonants p w ++ [Porter.isConsonant q c] := by
  induction w generalizing p with
  | nil => exact ⟨p, rfl⟩
  | cons d w ih =>
    obtain ⟨q, heq⟩ := ih (Porter.isConsonant p d)
    exact ⟨q, by rw [List.cons_append, Porter.consonants, heq, Porter.consonants, List.cons_append]⟩

theorem changes_snoc_false (f : List Bool) : Porter.changes (f ++ [false]) = Porter.changes f := by
  induction f with
  | nil => rfl
  | cons x f ih =>
    cases x with
    | true => rw [List.cons_append, changes_true, changes_true, ih]
    | false =>
      cases f with
      | nil => rfl
      | cons y f =>
        cases y with
        | false => exact ih
        | true => exact congrArg (· + 1) ih

theorem measure_snoc_e (w : WString) : Porter.measure (w ++ letters "e") = Porter.measure w := by
  obtain ⟨q, heq⟩ := consonants_snoc false w (letter 'e')
  have hletter : letters "e" = [letter 'e'] := by decide
  have hfalse : Porter.isConsonant q (letter 'e') = false := by cases q <;> decide
  rw [Porter.measure, Porter.measure, Porter.shape, Porter.shape, hletter, heq, hfalse, changes_snoc_false]

theorem ne_nil_of_measure (h : 0 < Porter.measure v) : v ≠ [] := by
  rintro rfl
  exact absurd h (by decide)

theorem losesE_eq (h : Holds s w n) (hw : w ≠ []) (hj : UpTo s w) :
    s.losesE = some (applies "e" w &&
      (1 < Porter.measure (before "e" w) || (Porter.measure (before "e" w) = 1 && !endsCvc (before "e" w)))) := by
  have hletter : letters "e" = [letter 'e'] := by decide
  rw [losesE, h.charAt_last hw, List.getLast?_eq_some_getLast hw]
  simp only [Option.bind_eq_bind, Option.bind_some, getLast?_eq_iff_applies hw hletter]
  by_cases happ : applies "e" w
  · have hbefore := before_append happ
    have hmeasure : Porter.measure w = Porter.measure (before "e" w) :=
      (congrArg Porter.measure hbefore).trans (measure_snoc_e _)
    have hlen := length_before happ
    have hone : (letters "e").length = 1 := by decide
    have hk := h.k
    have hprefix : s.b.take (before "e" w).length = before "e" w := by
      have hword : (s.b.take w.length).take (before "e" w).length = w.take (before "e" w).length := by rw [h.word]
      rw [List.take_take, Nat.min_eq_left (by omega)] at hword
      rw [hword, before, List.length_take, Nat.min_eq_left (Nat.sub_le _ _)]
    rw [if_pos happ, hj.m, hmeasure, cvc_eq hprefix (by omega), happ, Bool.true_and]
    simp only [Option.bind_some]
    split_ifs with hmany hsome
    · rw [decide_eq_true hmany, Bool.true_or]
    · rw [decide_eq_false hmany, decide_eq_true hsome, Bool.false_or, Bool.true_and]
    · rw [decide_eq_false hmany, decide_eq_false hsome, Bool.false_or, Bool.false_and]
  · rw [if_neg happ, Bool.eq_false_iff.mpr happ, Bool.false_and]

theorem losesL_eq (h : Holds s w n) (hw : w ≠ []) {u : WString} (hj : UpTo s u) (hmeasure : Porter.measure u = Porter.measure w) :
    s.losesL = some (1 < Porter.measure w && endsDouble w && applies "l" w) := by
  have hletter : letters "l" = [letter 'l'] := by decide
  rw [losesL, h.charAt_last hw, List.getLast?_eq_some_getLast hw]
  simp only [Option.bind_eq_bind, Option.bind_some, getLast?_eq_iff_applies hw hletter]
  by_cases happ : applies "l" w
  · rw [if_pos happ, doublec_eq h.word h.k, hj.m, hmeasure, happ, Bool.and_true]
    simp only [Option.bind_some]
    cases endsDouble w with
    | true => rw [if_pos rfl, Bool.and_true]
    | false => rw [if_neg Bool.false_ne_true, Bool.and_false]
  · rw [if_neg happ, Bool.eq_false_iff.mpr happ, Bool.and_false]

theorem endsDouble_length (h : endsDouble w) : 2 ≤ w.length := by
  rw [endsDouble, Bool.and_eq_true, Bool.and_eq_true, decide_eq_true_iff] at h
  exact h.1.1

theorem Holds.move_last (h : Holds s w n) (hw : w ≠ []) : Leaves True (PorterStemmer.move (-1)) s w.dropLast n := by
  rw [← List.dropLast_append_getLast hw] at h
  exact h.move (by simp)

/-- The last part of `step5`, when `j` is still where the word ended before the first. -/
theorem Holds.step5b (h : Holds s w n) (hw : w ≠ []) {u : WString} (hj : UpTo s u)
    (hmeasure : Porter.measure u = Porter.measure w) :
    Leaves True (do if ← ofState losesL then PorterStemmer.move (-1) else pure ()) s (Porter.step5b w) n := by
  rw [Porter.step5b]
  refine leaves_bind (runs_ofState (losesL_eq h hw hj hmeasure)) ?_
  split_ifs
  · exact h.move_last hw
  · exact leaves_pure h

theorem Holds.step5 (h : Holds s w n) (hw : w ≠ []) : Leaves True step5 s (Porter.step5b (Porter.step5a w)) n := by
  have h₁ : Holds { s with j := s.k } w n := h.withJ _
  have hloses := losesE_eq h₁ hw h.upTo
  have hj : Runs True (modify fun s : PorterStemmer => { s with j := s.k } : Stem Unit) s () { s with j := s.k } :=
    runs_silent rfl
  refine leaves_bind hj ?_
  rw [Porter.step5a]
  split_ifs with hcond
  · have happ : applies "e" w := (Bool.and_eq_true _ _ ▸ hcond).1
    have hbefore := before_append happ
    have hmeasure : Porter.measure w = Porter.measure (before "e" w) :=
      (congrArg Porter.measure hbefore).trans (measure_snoc_e _)
    have hne : before "e" w ≠ [] := by
      rintro hnil
      rw [hnil] at hcond
      exact absurd hcond (by rw [happ]; decide)
    rw [hcond] at hloses
    have h₂ := h₁
    rw [hbefore] at h₂
    obtain ⟨s', hmove, hholds⟩ := h₂.move (show (-1 : Int) = -((letters "e").length : Int) by decide)
    have hruns : Runs True (do if ← ofState losesE then PorterStemmer.move (-1) else pure () : Stem Unit)
        { s with j := s.k } () s' := runs_bind (runs_ofState hloses) (by rw [if_pos rfl]; exact hmove)
    have hupTo : UpTo s' w := by
      obtain ⟨_, heq, -⟩ := hmove
      cases heq
      exact ⟨h.upTo.j, h.upTo.word⟩
    exact leaves_bind hruns (hholds.step5b hne hupTo hmeasure)
  · rw [Bool.not_eq_true] at hcond
    rw [hcond] at hloses
    have hruns : Runs True (do if ← ofState losesE then PorterStemmer.move (-1) else pure () : Stem Unit)
        { s with j := s.k } () { s with j := s.k } :=
      runs_bind (runs_ofState hloses) (by rw [if_neg Bool.false_ne_true]; exact runs_silent rfl)
    exact leaves_bind hruns (h₁.step5b hw h.upTo rfl)

theorem find?_cons_of (name : α → String) (a : α) {rules : List α} (h : applies (name a) w) :
    (a :: rules).find? (fun rule => applies (name rule) w) = some a := by
  simp only [List.find?_cons, h]

theorem find?_cons_of_not (name : α → String) (a : α) {rules : List α} (h : ¬applies (name a) w) :
    (a :: rules).find? (fun rule => applies (name rule) w) = rules.find? fun rule => applies (name rule) w := by
  simp only [List.find?_cons, h]

theorem applies_two_iff {l : Char} (hw : 2 ≤ w.length) (hlast : w.getLast? = some (letter l))
    (hsuffix : letters suffix = [letter l, letter l]) : applies suffix w ↔ w.reverse[1]? = some (letter l) := by
  rw [applies, hsuffix, List.isSuffixOf_iff_suffix, ← List.reverse_prefix]
  rw [← getElem?_reverse_zero] at hlast
  cases hrev : w.reverse with
  | nil => rw [hrev] at hlast; cases hlast
  | cons c rest =>
    rw [hrev, List.getElem?_cons_zero, Option.some.injEq] at hlast
    subst hlast
    cases rest with
    | nil =>
      have := congrArg List.length hrev
      rw [List.length_reverse, List.length_singleton] at this
      omega
    | cons d rest =>
      change [letter l, letter l] <+: letter l :: d :: rest ↔ some d = some (letter l)
      rw [List.cons_prefix_cons, List.cons_prefix_cons, Option.some.injEq]
      exact ⟨fun h => h.2.1.symm, fun h => ⟨rfl, h.symm, List.nil_prefix⟩⟩

theorem Holds.step1a (h : Holds s w n) (hw : 2 ≤ w.length) :
    Leaves (applies "s" w → TellsApart ["sses", "ies"] w) step1a s (Porter.step1a w) n := by
  have hne : w ≠ [] := List.ne_nil_of_length_pos (by omega)
  have hlast := List.getLast?_eq_some_getLast hne
  have hs : letters "s" = [letter 's'] := by decide
  rw [Porter.step1a, longestRule_eq_find? Prod.fst (by decide)]
  refine leaves_bind (runs_ofState ((h.charAt_last hne).trans hlast)) ?_
  by_cases hends : w.getLast hne = letter 's'
  · have happ : applies "s" w := (getLast?_eq_iff_applies hne hs).mp hends
    rw [if_pos hends]
    refine Leaves.iff ?_ (imp_iff_right happ).symm
    by_cases hsses : applies "sses" w
    · rw [tellsApart_cons_of hsses]
      obtain ⟨s', hresult, hholds, -⟩ := h.ends_of_applies hne (by decide) hsses
      rw [find?_cons_of Prod.fst ("sses", "ss") hsses]
      refine leaves_bind hresult ?_
      have hword : w = before "sses" w ++ letters "ss" ++ letters "es" := by
        rw [List.append_assoc]
        exact before_append hsses
      rw [hword] at hholds
      exact hholds.move (by decide)
    rw [find?_cons_of_not Prod.fst ("sses", "ss") hsses]
    rw [tellsApart_cons_of_not hsses]
    refine leaves_and (h.ends_of_not hne (by decide) hsses) ?_
    by_cases hies : applies "ies" w
    · rw [tellsApart_cons_of hies]
      obtain ⟨s', hresult, hholds, hupTo⟩ := h.ends_of_applies hne (by decide) hies
      rw [find?_cons_of Prod.fst ("ies", "i") hies]
      have hword := hholds.word
      rw [before_append hies] at hword
      exact leaves_bind hresult ((hupTo.setto hholds.len hword (by decide)).iff (iff_true_intro (by decide)))
    rw [find?_cons_of_not Prod.fst ("ies", "i") hies]
    rw [tellsApart_cons_of_not hies, tellsApart_nil]
    refine leaves_and (h.ends_of_not hne (by decide) hies) ?_
    obtain ⟨c, hc⟩ := exists_reverse_one hw
    refine leaves_bind (runs_ofState ((h.charAt_pred hw).trans hc)) ?_
    have htwo := applies_two_iff hw (hlast.trans (congrArg some hends)) (show letters "ss" = [letter 's', letter 's'] by decide)
    rw [hc, Option.some.injEq] at htwo
    by_cases hss : applies "ss" w
    · rw [find?_cons_of Prod.fst ("ss", "ss") hss, if_neg (not_not.mpr (htwo.mp hss))]
      dsimp only
      rw [← before_append hss]
      exact leaves_pure h
    · rw [find?_cons_of_not Prod.fst ("ss", "ss") hss, find?_cons_of Prod.fst ("s", "") happ, if_pos (fun heq => hss (htwo.mpr heq))]
      have hword := before_append happ
      have h' := h
      rw [hword] at h'
      have hnil : letters "" = [] := by decide
      dsimp only
      rw [hnil, List.append_nil]
      exact h'.move (by decide)
  · have hnot : ∀ {suffix : String}, (letters suffix).getLast? = some (letter 's') → ¬applies suffix w := by
      intro suffix hsuffix happ
      have hword := congrArg List.getLast? (before_append happ)
      rw [List.getLast?_append, hsuffix, hlast, Option.some_or] at hword
      exact hends (Option.some.inj hword)
    rw [find?_cons_of_not Prod.fst ("sses", "ss") (hnot (by decide)),
      find?_cons_of_not Prod.fst ("ies", "i") (hnot (by decide)),
      find?_cons_of_not Prod.fst ("ss", "ss") (hnot (by decide)),
      find?_cons_of_not Prod.fst ("s", "") (hnot (by decide)), if_neg hends]
    exact (leaves_pure h).iff (iff_of_true trivial fun happ => absurd happ (hnot (by decide)))

theorem ne_nil_of_hasVowel (h : hasVowel v) : v ≠ [] := by
  rintro rfl
  exact absurd h (by decide)

/-- A word that ends with a double `l`, `s` or `z` does not end consonant, vowel, consonant. -/
theorem not_endsCvc_of_endsDouble (h : endsDouble w) (hlast : w.getLast?.any (letters "lsz").contains) :
    endsCvc w = false := by
  have hlen := endsDouble_length h
  have hshape : (Porter.shape w).length = w.length := length_consonants _ _
  rw [endsDouble, Bool.and_eq_true, Bool.and_eq_true, beq_iff_eq] at h
  rw [List.getLast?_eq_getElem?, h.1.2] at hlast
  by_cases hthree : w.length < 3
  · rw [endsCvc, decide_eq_false (by omega)]
    simp only [Bool.false_and]
  · obtain ⟨i, hi⟩ : ∃ i, w.length = i + 3 := ⟨w.length - 3, by omega⟩
    have hcons : (Porter.shape w)[w.length - 2]? = some true := by
      have hlt : i + 1 < w.length := by omega
      have hlt' : i < (Porter.shape w).length := by omega
      have hget := consonants_succ false w i
      rw [hi] at hlast ⊢
      change w[i + 1]?.any _ = true at hlast
      change (Porter.shape w)[i + 1]? = _
      rw [← Porter.shape, List.getElem?_eq_getElem hlt, List.getElem?_eq_getElem hlt', Option.bind_some,
        Option.map_some] at hget
      rw [List.getElem?_eq_getElem hlt, Option.any_some, List.contains_iff_mem] at hlast
      rw [hget]
      have hall : ∀ c ∈ letters "lsz", ∀ p, Porter.isConsonant p c = true := by decide
      rw [hall _ hlast]
    rw [endsCvc, hcons]
    simp

/-- The end of what is before `-ed` or `-ing` is told apart, and no `e` has to be copied over the `i` of `-ing`. -/
def WholeRestore (taken : String) (v : WString) : Prop :=
  TellsApart ["at", "bl", "iz"] v ∧ (taken = "ing" → longestRule id ["at", "bl", "iz"] v = none)

/-- An `e` is put behind a suffix that is found on what is before `-ed` or `-ing`. -/
theorem Holds.addsE {taken : String} (h : Holds s v n) (found : String) (hv : v ≠ [])
    (hword : s.b.take (v ++ letters taken).length = v ++ letters taken) (he : 1 ≤ (letters taken).length)
    (hsuffix : letters suffix ≠ []) (hfound : letters found = letters suffix ++ letters "e") (happ : applies suffix v) :
    ∃ s', Runs True (PorterStemmer.ends (letters suffix)) s true s' ∧
      Leaves (Copied (letters suffix ++ letters taken) (letters found)) (PorterStemmer.setto (letters found)) s'
        (v ++ letters "e") n := by
  obtain ⟨s', hruns, hholds, hupTo⟩ := h.ends_of_applies hv hsuffix happ
  have hb : s'.b = s.b := by
    obtain ⟨log, heq, -⟩ := hruns
    rw [h.ends hv hsuffix, Prod.mk.injEq, Option.some.injEq, Prod.mk.injEq] at heq
    have hstate := heq.2.2
    split_ifs at hstate <;> rw [← hstate]
  have hword' : s'.b.take (before suffix v ++ (letters suffix ++ letters taken)).length =
      before suffix v ++ (letters suffix ++ letters taken) := by
    rw [← List.append_assoc, ← before_append happ, hb, hword]
  have hle : (letters found).length ≤ (letters suffix ++ letters taken).length := by
    rw [hfound, List.length_append, List.length_append]
    exact Nat.add_le_add_left he _
  have hset := hupTo.setto hholds.len hword' hle
  have hfixed : before suffix v ++ letters found = v ++ letters "e" := by
    rw [hfound, ← List.append_assoc, ← before_append happ]
  rw [hfixed] at hset
  exact ⟨s', hruns, hset⟩

theorem Holds.undouble (h : Holds s v n) (hv : v ≠ []) (hdouble : endsDouble v) :
    Leaves True PorterStemmer.undouble s (if !v.getLast?.any (letters "lsz").contains then v.dropLast
      else if Porter.measure v = 1 && endsCvc v then v ++ letters "e" else v) n := by
  have hlast := List.getLast?_eq_some_getLast hv
  have hlen := endsDouble_length hdouble
  obtain ⟨s', hmove, hholds⟩ := h.move_last hv
  have hback : s' = { s with k := s.k + -1 } := by
    obtain ⟨_, heq, -⟩ := hmove
    cases heq
    rfl
  have hpred : s'.charAt s'.k = v.getLast? := by
    have hd := hdouble
    rw [endsDouble, Bool.and_eq_true, Bool.and_eq_true, beq_iff_eq] at hd
    have hk := h.k
    have hk' : s'.k = ((v.length - 2 : Nat) : Int) := by
      rw [hback]
      dsimp only
      omega
    rw [hk', List.getLast?_eq_getElem?, hd.1.2, hback]
    exact charAt_eq h.word (by omega)
  refine leaves_bind hmove (leaves_bind (runs_ofState (hpred.trans hlast)) ?_)
  rw [hlast, Option.any_some]
  cases hlsz : (letters "lsz").contains (v.getLast hv) with
  | true =>
    have hnot : endsCvc v = false :=
      not_endsCvc_of_endsDouble hdouble (by rw [hlast, Option.any_some, hlsz])
    rw [Bool.not_true, if_neg Bool.false_ne_true, hnot, Bool.and_false, if_neg Bool.false_ne_true, if_pos rfl]
    refine ⟨_, runs_silent rfl, ?_⟩
    subst hback
    refine ⟨h.len, ?_, h.word⟩
    have := h.k
    dsimp only
    omega
  | false =>
    rw [Bool.not_false, if_pos rfl, if_neg Bool.false_ne_true]
    exact leaves_pure hholds

theorem UpTo.restore {taken : String} (htaken : taken = "ed" ∨ taken = "ing") (hj : UpTo s v) (h : Holds s v n) (hv : v ≠ [])
    (hword : s.b.take (v ++ letters taken).length = v ++ letters taken) :
    Leaves (WholeRestore taken v) PorterStemmer.restore s (Porter.restore v) n := by
  have he : 1 ≤ (letters taken).length := by obtain rfl | rfl := htaken <;> decide
  have hcopied : ∀ rule ∈ [("at", "ate"), ("bl", "ble"), ("iz", "ize")],
      (Copied (letters rule.1 ++ letters taken) (letters rule.2) ↔ taken ≠ "ing") := by
    obtain rfl | rfl := htaken <;> decide
  rw [Porter.restore, WholeRestore, longestRule_eq_find? id (by decide)]
  by_cases hat : applies "at" v
  · obtain ⟨s', hruns, hleaves⟩ := h.addsE "ate" hv hword he (by decide) (by decide) hat
    rw [find?_cons_of id "at" hat, tellsApart_cons_of hat]
    exact (leaves_bind hruns (hleaves.iff (hcopied ("at", "ate") (by decide)))).iff (by simp)
  rw [find?_cons_of_not id "at" hat, tellsApart_cons_of_not hat, and_assoc]
  refine leaves_and (h.ends_of_not hv (by decide) hat) ?_
  by_cases hbl : applies "bl" v
  · obtain ⟨s', hruns, hleaves⟩ := h.addsE "ble" hv hword he (by decide) (by decide) hbl
    rw [find?_cons_of id "bl" hbl, tellsApart_cons_of hbl]
    exact (leaves_bind hruns (hleaves.iff (hcopied ("bl", "ble") (by decide)))).iff (by simp)
  rw [find?_cons_of_not id "bl" hbl, tellsApart_cons_of_not hbl, and_assoc]
  refine leaves_and (h.ends_of_not hv (by decide) hbl) ?_
  by_cases hiz : applies "iz" v
  · obtain ⟨s', hruns, hleaves⟩ := h.addsE "ize" hv hword he (by decide) (by decide) hiz
    rw [find?_cons_of id "iz" hiz, tellsApart_cons_of hiz]
    exact (leaves_bind hruns (hleaves.iff (hcopied ("iz", "ize") (by decide)))).iff (by simp)
  rw [find?_cons_of_not id "iz" hiz, tellsApart_cons_of_not hiz, and_assoc]
  refine leaves_and (h.ends_of_not hv (by decide) hiz) (Leaves.iff (P := True) ?_ (by simp [tellsApart_nil]))
  refine leaves_bind (runs_ofState (doublec_eq h.word h.k)) ?_
  dsimp only [List.find?_nil]
  cases hdouble : endsDouble v with
  | true =>
    rw [Bool.true_and, if_pos rfl]
    exact h.undouble hv hdouble
  | false =>
    rw [Bool.false_and, if_neg Bool.false_ne_true, if_neg Bool.false_ne_true]
    refine leaves_bind (runs_ofState hj.m) ?_
    by_cases hone : Porter.measure v = 1
    · rw [if_pos hone, decide_eq_true hone, Bool.true_and]
      refine leaves_bind (runs_ofState (cvc_eq h.word h.k)) ?_
      split_ifs
      · have hset := @UpTo.setto _ _ (letters "e") _ _ hj h.len hword he
        exact hset.iff (iff_true_intro (by obtain rfl | rfl := htaken <;> decide))
      · exact leaves_pure h
    · rw [if_neg hone, decide_eq_false hone, Bool.false_and, if_neg Bool.false_ne_true]
      exact leaves_pure h

/-- The suffixes of step 1b are told apart, and so is what is done after `-ed` and `-ing`. -/
def WholeStep1b (w : WString) : Prop :=
  TellsApart ["eed", "ed", "ing"] w ∧ ∀ suffix ∈ longestRule id ["eed", "ed", "ing"] w,
    suffix ≠ "eed" → hasVowel (before suffix w) → WholeRestore suffix (before suffix w)

theorem Holds.takesOff (h : Holds s w n) (hupTo : UpTo s (before suffix w)) (hsuffix : suffix = "ed" ∨ suffix = "ing")
    (happ : applies suffix w) : Leaves (hasVowel (before suffix w) → WholeRestore suffix (before suffix w)) (do
      if ← ofState vowelinstem then do
        modify fun s => { s with k := s.j }
        PorterStemmer.restore
      else pure ()) s (if hasVowel (before suffix w) then Porter.restore (before suffix w) else w) n := by
  refine leaves_bind (runs_ofState hupTo.vowelinstem) ?_
  split_ifs with hvowel
  · have hmodify : Runs True (modify fun s : PorterStemmer => { s with k := s.j } : Stem Unit) s () { s with k := s.j } :=
      runs_silent rfl
    have hword := h.word
    rw [before_append happ] at hword
    have hrestore := @UpTo.restore { s with k := s.j } _ n suffix hsuffix ⟨hupTo.j, hupTo.word⟩
      ⟨h.len, hupTo.j, hupTo.word⟩ (ne_nil_of_hasVowel hvowel) hword
    exact (leaves_bind hmodify hrestore).iff (imp_iff_right hvowel).symm
  · exact (leaves_pure h).iff (iff_of_true trivial fun h => absurd h hvowel)

theorem Holds.step1b (h : Holds s w n) (hw : w ≠ []) : Leaves (WholeStep1b w) step1b s (Porter.step1b w) n := by
  rw [Porter.step1b, WholeStep1b, longestRule_eq_find? id (by decide)]
  by_cases heed : applies "eed" w
  · obtain ⟨s', hresult, hholds, hupTo⟩ := h.ends_of_applies hw (by decide) heed
    rw [find?_cons_of id "eed" heed, tellsApart_cons_of heed]
    refine leaves_bind hresult (leaves_bind (runs_ofState hupTo.m) (Leaves.iff (P := True) ?_ (by simp)))
    dsimp only
    rw [if_pos rfl]
    split_ifs
    · have hword : w = before "eed" w ++ letters "ee" ++ letters "d" := by
        rw [List.append_assoc]
        exact before_append heed
      rw [hword] at hholds
      exact hholds.move (by decide)
    · exact leaves_pure hholds
  rw [find?_cons_of_not id "eed" heed, tellsApart_cons_of_not heed, and_assoc]
  refine leaves_and (h.ends_of_not hw (by decide) heed) ?_
  by_cases hed : applies "ed" w
  · obtain ⟨s', hruns, hholds, hupTo⟩ := h.ends_of_applies hw (by decide) hed
    rw [find?_cons_of id "ed" hed, tellsApart_cons_of hed]
    have hor : Runs True endsEdOrIng s true s' := runs_bind hruns (runs_silent rfl)
    exact (leaves_bind hor (hholds.takesOff hupTo (.inl rfl) hed)).iff (by simp)
  rw [find?_cons_of_not id "ed" hed, tellsApart_cons_of_not hed, and_assoc]
  have hnot := h.ends_of_not hw (by decide) hed
  by_cases hing : applies "ing" w
  · obtain ⟨s', hruns, hholds, hupTo⟩ := h.ends_of_applies hw (by decide) hing
    rw [find?_cons_of id "ing" hing, tellsApart_cons_of hing]
    have hor : Runs (¬Looks "ed" w) endsEdOrIng s true s' := (hnot.bind hruns).iff (and_iff_left trivial)
    exact leaves_and hor ((hholds.takesOff hupTo (.inr rfl) hing).iff (by simp))
  · rw [find?_cons_of_not id "ing" hing, tellsApart_cons_of_not hing, tellsApart_nil, and_assoc, ← and_assoc]
    have hor : Runs (¬Looks "ed" w ∧ ¬Looks "ing" w) endsEdOrIng s false s :=
      hnot.bind (h.ends_of_not hw (by decide) hing)
    exact leaves_and hor ((leaves_pure h).iff (by simp))

end LucenePlusPlus.PorterStemmer
