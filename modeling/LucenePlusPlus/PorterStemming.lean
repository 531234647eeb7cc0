import LucenePlusPlus.PorterSteps

/-!
When the stemmer gives what the Porter algorithm gives, with suffixes compared and replacements copied as a number of bytes.
-/

namespace LucenePlusPlus.PorterStemmer
open LoggedProgram (result result_bind bind_of_eq Congr congr_pure congr_ofState congr_modify congr_bind congr_ite congr_ask)
open Porter (applies before longestRule)

variable {s : PorterStemmer} {w v : WString} {n : Nat}

theorem append_ne_nil {text : WString} (h : text ≠ []) : v ++ text ≠ [] := fun hnil =>
  h (List.append_eq_nil_iff.mp hnil).2

theorem step1a_ne_nil (hw : 2 ≤ w.length) : Porter.step1a w ≠ [] := by
  rw [Porter.step1a, longestRule_eq_find? Prod.fst (by decide)]
  cases hfound : [("sses", "ss"), ("ies", "i"), ("ss", "ss"), ("s", "")].find? fun rule => applies rule.1 w with
  | none =>
    dsimp only
    exact List.ne_nil_of_length_pos (by omega)
  | some rule =>
    have happ := List.find?_some hfound
    have hlen := length_before happ
    have hmem := List.mem_of_find?_eq_some hfound
    simp only [List.mem_cons, List.not_mem_nil, or_false] at hmem
    obtain rfl | rfl | rfl | rfl := hmem
    · exact append_ne_nil (by decide)
    · exact append_ne_nil (by decide)
    · exact append_ne_nil (by decide)
    · have hone : (letters "s").length = 1 := by decide
      dsimp only at hlen ⊢
      exact List.append_ne_nil_of_left_ne_nil (List.ne_nil_of_length_pos (by omega)) _

theorem restore_ne_nil (hv : v ≠ []) : Porter.restore v ≠ [] := by
  rw [Porter.restore]
  cases longestRule id ["at", "bl", "iz"] v with
  | some suffix => exact append_ne_nil (by decide)
  | none =>
    dsimp only
    split_ifs with hdouble
    · have hlen := endsDouble_length (Bool.and_eq_true _ _ ▸ hdouble).1
      refine List.ne_nil_of_length_pos ?_
      rw [List.length_dropLast]
      omega
    · exact append_ne_nil (by decide)
    · exact hv

theorem step1b_ne_nil (hw : w ≠ []) : Porter.step1b w ≠ [] := by
  rw [Porter.step1b]
  cases longestRule id ["eed", "ed", "ing"] w with
  | none => exact hw
  | some suffix =>
    dsimp only
    split_ifs with heed hmeasure hvowel
    · exact append_ne_nil (by decide)
    · exact hw
    · exact restore_ne_nil (ne_nil_of_hasVowel hvowel)
    · exact hw

theorem step1c_ne_nil (hw : w ≠ []) : Porter.step1c w ≠ [] := by
  rw [Porter.step1c]
  split_ifs
  · exact append_ne_nil (by decide)
  · exact hw

theorem replaceFound_ne_nil (hw : w ≠ []) (found : Option (String × String)) : Porter.replaceFound w found ≠ [] := by
  cases found with
  | none => exact hw
  | some rule =>
    rw [Porter.replaceFound]
    split_ifs with hmeasure
    · exact List.append_ne_nil_of_left_ne_nil (ne_nil_of_measure hmeasure) _
    · exact hw

theorem step4_ne_nil (hw : w ≠ []) : Porter.step4 w ≠ [] := by
  rw [Porter.step4]
  cases longestRule id Porter.step4Suffixes w with
  | none => exact hw
  | some suffix =>
    dsimp only
    split_ifs with hcond
    · rw [Bool.and_eq_true, decide_eq_true_iff] at hcond
      exact ne_nil_of_measure (Nat.lt_of_succ_lt hcond.2)
    · exact hw

theorem Holds.step1ab (h : Holds s w n) (hw : 2 ≤ w.length) :
    Leaves ((applies "s" w → TellsApart ["sses", "ies"] w) ∧ WholeStep1b (Porter.step1a w)) step1ab s
      (Porter.step1b (Porter.step1a w)) n :=
  leaves_seq (h.step1a hw) fun _ h₁ => h₁.step1b (step1a_ne_nil hw)

theorem beforeStep4_ne_nil (hw : 2 ≤ w.length) : Porter.beforeStep4 w ≠ [] :=
  replaceFound_ne_nil (replaceFound_ne_nil (step1c_ne_nil (step1b_ne_nil (step1a_ne_nil hw))) _) _

/-- Along the steps of the algorithm, no end of the word looks like a suffix that is tried and that it does not have, and the
letters of each replacement that are not copied are in the buffer. -/
structure WholeSteps (w : WString) : Prop where
  step1a : applies "s" w → TellsApart ["sses", "ies"] w
  step1b : WholeStep1b (Porter.step1a w)
  step2 : ∀ c ∈ (Porter.step1c (Porter.step1b (Porter.step1a w))).reverse[1]?,
    WholeRules (caseOf step2Cases c) (Porter.step1c (Porter.step1b (Porter.step1a w)))
  step3 : ∀ c ∈ (Porter.step2 (Porter.step1c (Porter.step1b (Porter.step1a w)))).getLast?,
    WholeRules (caseOf step3Cases c) (Porter.step2 (Porter.step1c (Porter.step1b (Porter.step1a w))))
  step4 : ∀ c ∈ (Porter.beforeStep4 w).reverse[1]?, TellsApart (caseOf step4Cases c) (Porter.beforeStep4 w)

theorem Holds.toStep4 (h : Holds s w n) (hw : 2 ≤ w.length) : ∃ s' log, Holds s' (Porter.beforeStep4 w) n ∧
    ((∀ access ∈ log, access.Whole memory) ∧
      (∀ c ∈ (Porter.beforeStep4 w).reverse[1]?, TellsApart (caseOf step4Cases c) (Porter.beforeStep4 w)) ↔ WholeSteps w) ∧
    ∀ rest : Stem Unit, (do
      PorterStemmer.step1ab
      PorterStemmer.step1c
      PorterStemmer.step2
      PorterStemmer.step3
      rest : Stem Unit) whole s = (log ++ (rest whole s').1, (rest whole s').2) := by
  have h₁ := step1b_ne_nil (step1a_ne_nil hw)
  have h₂ := step1c_ne_nil h₁
  have h₃ : Porter.step2 (Porter.step1c (Porter.step1b (Porter.step1a w))) ≠ [] := replaceFound_ne_nil h₂ _
  obtain ⟨s₁, ⟨log₁, hab, hlog₁⟩, hholds₁⟩ := h.step1ab hw
  obtain ⟨s₂, ⟨log₂, hc, hlog₂⟩, hholds₂⟩ := hholds₁.step1c h₁
  obtain ⟨s₃, ⟨log₃, htwo, hlog₃⟩, hholds₃⟩ := hholds₂.step2 h₂
  obtain ⟨s₄, ⟨log₄, hthree, hlog₄⟩, hholds₄⟩ := hholds₃.step3 h₃
  refine ⟨s₄, log₁ ++ (log₂ ++ (log₃ ++ log₄)), hholds₄, ?_, fun rest => ?_⟩
  · rw [List.forall_mem_append, List.forall_mem_append, List.forall_mem_append, hlog₁, hlog₂, hlog₃, hlog₄]
    constructor
    · rintro ⟨⟨⟨hone, hab⟩, -, htwo, hthree⟩, hfour⟩
      exact ⟨hone, hab, htwo, hthree, hfour⟩
    · intro hall
      exact ⟨⟨⟨hall.step1a, hall.step1b⟩, trivial, hall.step2, hall.step3⟩, hall.step4⟩
  · rw [bind_of_eq hab, bind_of_eq hc, bind_of_eq htwo, bind_of_eq hthree]
    simp only [List.append_assoc]

theorem Holds.steps (h : Holds s w n) (hw : 2 ≤ w.length) (hion : Porter.beforeStep4 w ≠ letters "ion") :
    Leaves (WholeSteps w) PorterStemmer.steps s
      (Porter.step5b (Porter.step5a (Porter.step4 (Porter.beforeStep4 w)))) n := by
  have hne := beforeStep4_ne_nil hw
  obtain ⟨s₄, log, hholds₄, hlog, hrest⟩ := h.toStep4 hw
  obtain ⟨s₅, hfour, hholds₅⟩ := hholds₄.step4 hne hion
  obtain ⟨s₆, hfive, hholds₆⟩ := hholds₅.step5 (step4_ne_nil hne)
  have hlast : Runs _ (PorterStemmer.step4 >>= fun _ => PorterStemmer.step5) s₄ () s₆ := hfour.bind hfive
  obtain ⟨log', heq, hlog'⟩ := hlast.iff (and_iff_left trivial)
  refine ⟨s₆, ⟨log ++ log', ?_, ?_⟩, hholds₆⟩
  · rw [PorterStemmer.steps, hrest]
    exact congrArg (fun r => (log ++ r.1, r.2)) heq
  · rw [List.forall_mem_append, hlog', hlog]

theorem Holds.steps_ion (h : Holds s w n) (hw : 2 ≤ w.length) (hion : Porter.beforeStep4 w = letters "ion") :
    result PorterStemmer.steps whole s = none := by
  obtain ⟨s₄, log, hholds₄, -, hrest⟩ := h.toStep4 hw
  rw [hion] at hholds₄
  rw [PorterStemmer.steps, result, hrest]
  change result (PorterStemmer.step4 >>= fun _ => PorterStemmer.step5) whole s₄ = none
  rw [result_bind, hholds₄.step4_ion, Option.bind_none]

theorem holds_start (word : WString) : Holds { b := word, k := word.length - 1, j := 0, dirty := false } word word.length :=
  ⟨rfl, by dsimp only; omega, List.take_length⟩

/-- With whole comparisons and copies the stemmer gives the stem of the word, unless it comes to step 4 with `ion`. -/
theorem stem_whole (word : WString) (hion : 2 < word.length → Porter.beforeStep4 word ≠ letters "ion") :
    ((∀ access ∈ (stem whole word).1, access.Whole memory) ↔ (2 < word.length → WholeSteps word)) ∧
      ∃ changed s, (stem whole word).2 = some (changed, s) ∧ s.getResult = Porter.stem word := by
  rw [stem, Porter.stem]
  dsimp only
  by_cases hshort : word.length ≤ 2
  · rw [if_pos (by omega), if_pos hshort]
    refine ⟨iff_of_true (fun _ hmem => absurd hmem List.not_mem_nil) fun hlong => absurd hshort (not_le.mpr hlong), _, _, rfl, ?_⟩
    rw [getResult, List.take_of_length_le (by dsimp only; omega)]
  · rw [if_neg (by omega), if_neg hshort]
    obtain ⟨s', ⟨log, heq, hlog⟩, hholds⟩ := (holds_start word).steps (by omega) (hion (by omega))
    rw [stepsAndDirty, bind_of_eq heq]
    refine ⟨?_, s'.dirty || (word.length - 1 : Int) ≠ s'.k,
      { s' with dirty := s'.dirty || (word.length - 1 : Int) ≠ s'.k }, rfl, ?_⟩
    · change (∀ access ∈ log ++ [], _) ↔ _
      rw [List.append_nil, hlog]
      exact (imp_iff_right (not_le.mp hshort)).symm
    · have hk : (s'.k + 1).toNat = (Porter.step5b (Porter.step5a (Porter.step4 (Porter.beforeStep4 word)))).length := by
        have := hholds.k
        omega
      change s'.b.take (s'.k + 1).toNat = _
      rw [hk, hholds.word]

theorem stem_whole_ion {word : WString} (hword : 2 < word.length) (hion : Porter.beforeStep4 word = letters "ion") :
    (stem whole word).2 = none := by
  rw [stem]
  dsimp only
  rw [if_neg (by omega)]
  change result (stepsAndDirty _) whole _ = none
  rw [stepsAndDirty, result_bind, (holds_start word).steps_ion (by omega) hion, Option.bind_none]

/-! ### Memory operations that agree -/

def Access.Agree (ops ops' : MemoryOps) : Access → Prop
  | .compare window suffix => ops.memcmp window suffix = ops'.memcmp window suffix
  | .replace window text => ops.memmove window text = ops'.memmove window text

theorem congr_ends (text : WString) : Congr Access.Agree (ends text) := by
  refine congr_bind (congr_ofState _) fun _ => congr_ite (congr_pure _) ?_
  refine congr_bind (congr_ofState _) fun _ => congr_ite (congr_pure _) (congr_ask fun ops ops' s h => ?_)
  change ops.memcmp _ _ = ops'.memcmp _ _ at h
  rw [h]

theorem congr_setto (text : WString) : Congr Access.Agree (setto text) := by
  refine congr_bind (congr_ofState _) fun _ => congr_ask fun ops ops' s h => ?_
  change ops.memmove _ _ = ops'.memmove _ _ at h
  rw [h]

theorem congr_r (text : WString) : Congr Access.Agree (r text) :=
  congr_bind (congr_ofState _) fun _ => congr_ite (congr_setto _) (congr_pure _)

theorem congr_move (by_ : Int) : Congr Access.Agree (move by_) := congr_modify _

theorem congr_step1a : Congr Access.Agree step1a := by
  refine congr_bind (congr_ofState _) fun _ => congr_ite ?_ (congr_pure _)
  refine congr_bind (congr_ends _) fun _ => congr_ite (congr_move _) ?_
  refine congr_bind (congr_ends _) fun _ => congr_ite (congr_setto _) ?_
  exact congr_bind (congr_ofState _) fun _ => congr_ite (congr_move _) (congr_pure _)

theorem congr_undouble : Congr Access.Agree undouble :=
  congr_bind (congr_move _) fun _ => congr_bind (congr_ofState _) fun _ => congr_ite (congr_move _) (congr_pure _)

theorem congr_restore : Congr Access.Agree restore := by
  refine congr_bind (congr_ends _) fun _ => congr_ite (congr_setto _) ?_
  refine congr_bind (congr_ends _) fun _ => congr_ite (congr_setto _) ?_
  refine congr_bind (congr_ends _) fun _ => congr_ite (congr_setto _) ?_
  refine congr_bind (congr_ofState _) fun _ => congr_ite congr_undouble ?_
  refine congr_bind (congr_ofState _) fun _ => congr_ite ?_ (congr_pure _)
  exact congr_bind (congr_ofState _) fun _ => congr_ite (congr_setto _) (congr_pure _)

theorem congr_step1b : Congr Access.Agree step1b := by
  refine congr_bind (congr_ends _) fun _ => congr_ite ?_ ?_
  · exact congr_bind (congr_ofState _) fun _ => congr_ite (congr_move _) (congr_pure _)
  · refine congr_bind (congr_bind (congr_ends _) fun _ => congr_ite (congr_pure _) (congr_ends _)) fun _ =>
      congr_ite ?_ (congr_pure _)
    refine congr_bind (congr_ofState _) fun _ => congr_ite ?_ (congr_pure _)
    exact congr_bind (congr_modify _) fun _ => congr_restore

theorem congr_step1c : Congr Access.Agree step1c := by
  refine congr_bind (congr_ends _) fun _ => congr_ite ?_ (congr_pure _)
  exact congr_bind (congr_ofState _) fun _ => congr_ite (congr_modify _) (congr_pure _)

theorem congr_tryRules (rules : List (String × String)) : Congr Access.Agree (tryRules rules) := by
  induction rules with
  | nil => exact congr_pure _
  | cons rule rules ih => exact congr_bind (congr_ends _) fun _ => congr_ite (congr_r _) ih

theorem congr_step2 : Congr Access.Agree step2 := by
  refine congr_bind (congr_ofState _) fun _ => congr_ite (congr_pure _) ?_
  exact congr_bind (congr_ofState _) fun _ => congr_tryRules _

theorem congr_step3 : Congr Access.Agree step3 := congr_bind (congr_ofState _) fun _ => congr_tryRules _

theorem congr_tryEnds (suffixes : List String) : Congr Access.Agree (tryEnds suffixes) := by
  induction suffixes with
  | nil => exact congr_pure _
  | cons suffix suffixes ih =>
    refine congr_bind ?_ fun _ => congr_ite (congr_pure _) ih
    refine congr_bind (congr_ends _) fun _ => congr_ite (congr_ite ?_ (congr_pure _)) (congr_pure _)
    exact congr_bind (congr_ofState _) fun _ => congr_pure _

theorem congr_step4 : Congr Access.Agree step4 := by
  refine congr_bind (congr_ofState _) fun _ => congr_ite (congr_pure _) ?_
  refine congr_bind (congr_ofState _) fun _ => congr_bind (congr_tryEnds _) fun _ => congr_ite ?_ (congr_pure _)
  exact congr_bind (congr_ofState _) fun _ => congr_ite (congr_modify _) (congr_pure _)

theorem congr_step5 : Congr Access.Agree step5 := by
  refine congr_bind (congr_modify _) fun _ => congr_bind ?_ fun _ => ?_
  · exact congr_bind (congr_ofState _) fun _ => congr_ite (congr_move _) (congr_pure _)
  · exact congr_bind (congr_ofState _) fun _ => congr_ite (congr_move _) (congr_pure _)

theorem congr_steps : Congr Access.Agree steps :=
  congr_bind (congr_bind congr_step1a fun _ => congr_step1b) fun _ => congr_bind congr_step1c fun _ =>
    congr_bind congr_step2 fun _ => congr_bind congr_step3 fun _ => congr_bind congr_step4 fun _ => congr_step5

/-- Where two memories agree on all that the one is asked, the stemmer does the same with both. -/
theorem stem_congr {ops : MemoryOps} (ops' : MemoryOps) {word : WString}
    (h : ∀ access ∈ (stem ops word).1, access.Agree ops ops') : stem ops' word = stem ops word := by
  rw [stem] at h ⊢
  rw [stem]
  dsimp only at h ⊢
  split_ifs at h ⊢
  · rfl
  · refine congr_bind congr_steps (fun _ => congr_bind (congr_modify _) fun _ => congr_ofState _) ops ops' _ h

theorem agree_iff_whole {ops : MemoryOps} {access : Access} : access.Agree whole ops ↔ access.Whole ops := by
  cases access with
  | compare window suffix => exact eq_comm
  | replace window text => exact eq_comm

theorem agree_comm {ops ops' : MemoryOps} {access : Access} (h : access.Agree ops ops') : access.Agree ops' ops := by
  cases access with
  | compare window suffix => exact h.symm
  | replace window text => exact h.symm

/-- Every suffix is compared and every replacement is copied as a whole, no letter outside of the buffer is looked at, and
what is left is the stem of the word. -/
def AppliesRules (word : WString) : Prop :=
  (∀ access ∈ (stem memory word).1, access.Whole memory) ∧
    ∃ changed s, (stem memory word).2 = some (changed, s) ∧ s.getResult = Porter.stem word

/-- The stemmer follows the algorithm exactly when the first bytes of the suffixes and replacements that the algorithm comes
to do for the whole of them, and it does not come to step 4 with `ion`. -/
theorem porter_stem_iff (word : WString) : AppliesRules word ↔
    (2 < word.length → WholeSteps word ∧ Porter.beforeStep4 word ≠ letters "ion") := by
  constructor
  · rintro ⟨hlog, changed, s, hresult, -⟩
    have heq : stem whole word = stem memory word :=
      stem_congr whole fun access hmem => agree_comm (agree_iff_whole.mpr (hlog access hmem))
    have hion : 2 < word.length → Porter.beforeStep4 word ≠ letters "ion" := by
      intro hlen hion
      rw [← heq, stem_whole_ion hlen hion] at hresult
      cases hresult
    rw [← heq] at hlog
    exact fun hlen => ⟨(stem_whole word hion).1.mp hlog hlen, hion hlen⟩
  · intro hword
    obtain ⟨hlog, hresult⟩ := stem_whole word fun hlen => (hword hlen).2
    have hwhole := hlog.mpr fun hlen => (hword hlen).1
    have heq : stem memory word = stem whole word :=
      stem_congr memory fun access hmem => agree_iff_whole.mpr (hwhole access hmem)
    rw [AppliesRules, heq]
    exact ⟨hwhole, hresult⟩

/-- `relational` becomes `relati`. -/
theorem relational_is_not_stemmed : ¬∀ word : WString, (∀ c ∈ word, letter 'a' ≤ c ∧ c ≤ letter 'z') → AppliesRules word := by
  intro h
  obtain ⟨-, changed, s, hresult, hword⟩ := h (letters "relational") (by decide)
  have hcode : (stem memory (letters "relational")).2.map (fun r => r.2.getResult) = some (letters "relati") := by
    decide
  have hstem : Porter.stem (letters "relational") = letters "relat" := by decide
  rw [hresult, Option.map_some, hword, hstem] at hcode
  exact absurd hcode (by decide)

end LucenePlusPlus.PorterStemmer
