import LucenePlusPlus.FieldCache
import Mathlib.Data.List.TakeWhile

/-!
What the arrays of a field are: each document has the value of the last term of the field that it is found under.
-/

namespace LucenePlusPlus

variable {α : Type}

/-- The value of the last entry with the document, or else the one of a document without entries. -/
def lastValue (entries : List (α × List Nat)) (zero : α) (doc : Nat) : α :=
  ((entries.filter fun entry => doc ∈ entry.2).getLast?.map Prod.fst).getD zero

namespace IndexReader

/-- The terms of a field, with their documents. -/
def termsOf (reader : IndexReader) (field : WString) : List (Term × List Nat) :=
  reader.postings.filter fun posting => posting.1.field = field

/-- The terms before the first one that is not converted, with what they are converted to. -/
def converted (parse : Parser α) (postings : List (Term × List Nat)) : List (α × List Nat) :=
  (postings.takeWhile fun posting => (parse posting.1.text).isOk).filterMap fun posting =>
    (parse posting.1.text).toOption.map fun value => (value, posting.2)

/-- The error of the first term that is not converted. -/
def refusal (parse : Parser α) (postings : List (Term × List Nat)) : Option FillError :=
  postings.findSome? fun posting =>
    match parse posting.1.text with
    | .ok _ => none
    | .error error => some error

/-- The array of a field, if it can be made: the terms from one on where the parser asks to stop have no part in it. -/
def arrayOf (parse : Parser α) (zero : α) (reader : IndexReader) (field : WString) : Except FillError (List α) :=
  match refusal parse (reader.termsOf field) with
  | some .numberFormatException => .error .numberFormatException
  | some .luceneException => .error .luceneException
  | _ => .ok ((List.range reader.maxDoc).map (lastValue (converted parse (reader.termsOf field)) zero))

/-- The terms of a field that have numbers, from `1` on; there is one for each document at most. -/
def numbered (reader : IndexReader) (field : WString) : List (Nat × List Nat) :=
  ((reader.termsOf field).take reader.maxDoc).zipIdx.map fun posting => (posting.2 + 1, posting.1.2)

def indexOf (reader : IndexReader) (field : WString) : CacheValue :=
  .stringIndex ((List.range reader.maxDoc).map (lastValue (reader.numbered field) 0))
    ([] :: ((reader.termsOf field).take reader.maxDoc).map fun posting => posting.1.text)

end IndexReader

section Lists
variable {postings : List (Term × List Nat)} {field : WString}

theorem lastValue_nil (zero : α) (doc : Nat) : lastValue [] zero doc = zero := rfl

theorem lastValue_cons (entry : α × List Nat) (entries : List (α × List Nat)) (zero : α) (doc : Nat) :
    lastValue (entry :: entries) zero doc = lastValue entries (if doc ∈ entry.2 then entry.1 else zero) doc := by
  rw [lastValue, lastValue, List.filter_cons]
  by_cases hdoc : doc ∈ entry.2
  · rw [if_pos (decide_eq_true hdoc), if_pos hdoc, List.getLast?_cons]
    cases (entries.filter fun entry => decide (doc ∈ entry.2)).getLast? <;> rfl
  · rw [if_neg (by simpa using hdoc), if_neg hdoc]

theorem foldl_set_eq (docs : List Nat) (value : α) (array : List α) :
    docs.foldl (fun array doc => array.set doc value) array =
      array.mapIdx fun doc old => if doc ∈ docs then value else old := by
  induction docs generalizing array with
  | nil => exact List.ext_getElem (by simp) fun i hi hi' => by simp
  | cons doc docs ih =>
      rw [List.foldl_cons, ih]
      refine List.ext_getElem (by simp) fun i hi hi' => ?_
      rw [List.getElem_mapIdx, List.getElem_mapIdx, List.getElem_set]
      by_cases hdoc : doc = i
      · subst hdoc
        simp
      · simp [hdoc, Ne.symm hdoc]

theorem mapIdx_lastValue_cons (entry : α × List Nat) (entries : List (α × List Nat)) (array : List α) :
    (entry.2.foldl (fun array doc => array.set doc entry.1) array).mapIdx (fun doc old => lastValue entries old doc) =
      array.mapIdx fun doc old => lastValue (entry :: entries) old doc := by
  rw [foldl_set_eq, List.mapIdx_mapIdx]
  refine List.ext_getElem (by simp) fun i hi hi' => ?_
  rw [List.getElem_mapIdx, List.getElem_mapIdx, lastValue_cons]
  rfl

theorem mapIdx_replicate_eq (f : Nat → α → α) (zero : α) (n : Nat) :
    (List.replicate n zero).mapIdx f = (List.range n).map fun doc => f doc zero :=
  List.ext_getElem (by simp) fun i hi hi' => by simp

/-- From the start of a named field on, its terms are those up to the first one of another field. -/
theorem takeWhile_dropWhile_eq (hsorted : postings.Pairwise fun posting posting' => posting.1 < posting'.1) :
    ((postings.dropWhile fun posting => posting.1 < ⟨field, []⟩).takeWhile fun posting => posting.1.field = field) =
      postings.filter fun posting => posting.1.field = field := by
  have hle : ∀ {posting : Term × List Nat}, ¬ posting.1 < ⟨field, []⟩ → field ≤ posting.1.field := fun hnot =>
    not_lt.mp fun hlt => hnot (Term.lt_iff.mpr (Or.inl hlt))
  induction postings with
  | nil => rfl
  | cons posting rest ih =>
      obtain ⟨hlt, hrest⟩ := List.pairwise_cons.mp hsorted
      by_cases hbefore : posting.1 < ⟨field, []⟩
      · have hne : posting.1.field ≠ field := by
          rcases Term.lt_iff.mp hbefore with hless | ⟨-, hless⟩
          · exact hless.ne
          · exact absurd hless (List.not_lt_nil _)
        rw [List.dropWhile_cons_of_pos (by simpa using hbefore), List.filter_cons_of_neg (by simpa using hne), ih hrest]
      · have hbehind : ∀ posting' ∈ rest, ¬ posting'.1 < ⟨field, []⟩ := fun posting' hmem hless =>
          hbefore ((hlt posting' hmem).trans hless)
        have hdrop : rest.dropWhile (fun posting => posting.1 < ⟨field, []⟩) = rest := by
          rw [List.dropWhile_eq_self_iff]
          exact fun hpos => by simpa using hbehind _ (List.getElem_mem hpos)
        rw [List.dropWhile_cons_of_neg (by simpa using hbefore)]
        by_cases hfield : posting.1.field = field
        · rw [List.takeWhile_cons_of_pos (by simpa using hfield), List.filter_cons_of_pos (by simpa using hfield),
            ← ih hrest, hdrop]
        · rw [List.takeWhile_cons_of_neg (by simpa using hfield), eq_comm, List.filter_eq_nil_iff]
          intro posting' hmem heq
          have heq := of_decide_eq_true heq
          rcases List.mem_cons.mp hmem with rfl | hmem
          · exact hfield heq
          · have hpast : field < posting.1.field := lt_of_le_of_ne (hle hbefore) (Ne.symm hfield)
            have hgo := (hlt posting' hmem).le
            exact absurd (Term.lt_iff.mpr (Or.inl (heq ▸ hpast))) (not_lt.mpr hgo)

theorem terms_takeWhile (reader : IndexReader) (hfield : field ≠ []) :
    (reader.terms ⟨field, []⟩).takeWhile (fun posting => posting.1.field = field) = reader.termsOf field := by
  rw [IndexReader.terms, if_neg fun heq => hfield (Term.mk.inj heq).1]
  exact takeWhile_dropWhile_eq reader.sorted

theorem fill_eq (parse : Parser α) (field : WString) (postings : List (Term × List Nat)) (array : List α) :
    fill parse field postings array =
      match IndexReader.refusal parse (postings.takeWhile fun posting => posting.1.field = field) with
      | some .numberFormatException => .error .numberFormatException
      | some .luceneException => .error .luceneException
      | _ => .ok (array.mapIdx fun doc old => lastValue
          (IndexReader.converted parse (postings.takeWhile fun posting => posting.1.field = field)) old doc) := by
  have hnil : array = array.mapIdx fun doc old => lastValue [] old doc :=
    List.ext_getElem (by simp) fun i hi hi' => by simp [lastValue_nil]
  induction postings generalizing array with
  | nil => exact congrArg Except.ok hnil
  | cons posting rest ih =>
      obtain ⟨term, docs⟩ := posting
      rw [fill]
      by_cases hfield : term.field = field
      · rw [if_neg (not_not.mpr hfield), List.takeWhile_cons_of_pos (by simpa using hfield), IndexReader.refusal,
          IndexReader.converted, List.findSome?_cons]
        cases hparse : parse term.text with
        | error error =>
            rw [List.takeWhile_cons_of_neg (by simp [hparse, Except.isOk, Except.toBool])]
            cases error <;> first | rfl | exact congrArg Except.ok hnil
        | ok value =>
            rw [List.takeWhile_cons_of_pos (by simp [hparse, Except.isOk, Except.toBool])]
            have hlast := ih (docs.foldl (fun array doc => array.set doc value) array)
              (List.ext_getElem (by simp) fun i hi hi' => by simp [lastValue_nil])
            rw [List.filterMap_cons_some (b := (value, docs)) (by simp [hparse, Except.toOption])]
            rw [← mapIdx_lastValue_cons]
            exact hlast
      · rw [if_pos hfield, List.takeWhile_cons_of_neg (by simpa using hfield)]
        exact congrArg Except.ok hnil

theorem createArray_eq (parse : Parser α) (zero : α) (reader : IndexReader) (hfield : field ≠ []) :
    createArray parse zero reader field = reader.arrayOf parse zero field := by
  rw [createArray, fill_eq, terms_takeWhile reader hfield, IndexReader.arrayOf, mapIdx_replicate_eq]

theorem fillIndex_eq (field : WString) (size : Nat) (postings : List (Term × List Nat)) (array : List Nat)
    (mterms : List WString) :
    fillIndex field size postings array mterms =
      (array.mapIdx fun doc old => lastValue ((((postings.takeWhile fun posting => posting.1.field = field).take
          (size - mterms.length)).zipIdx mterms.length).map fun posting => (posting.2, posting.1.2)) old doc,
        mterms ++ ((postings.takeWhile fun posting => posting.1.field = field).take (size - mterms.length)).map
          fun posting => posting.1.text) := by
  have hnil : array = array.mapIdx fun doc old => lastValue [] old doc :=
    List.ext_getElem (by simp) fun i hi hi' => by simp [lastValue_nil]
  induction postings generalizing array mterms with
  | nil => simpa [fillIndex] using hnil
  | cons posting rest ih =>
      obtain ⟨term, docs⟩ := posting
      rw [fillIndex]
      by_cases hstop : term.field ≠ field ∨ size ≤ mterms.length
      · rw [if_pos hstop]
        have hnone : ((((term, docs) :: rest).takeWhile fun posting => posting.1.field = field).take
            (size - mterms.length)) = [] := by
          rcases hstop with hfield | hsize
          · rw [List.takeWhile_cons_of_neg (by simpa using hfield), List.take_nil]
          · rw [Nat.sub_eq_zero_of_le hsize, List.take_zero]
        rw [hnone]
        simpa using hnil
      · rw [if_neg hstop]
        push Not at hstop
        obtain ⟨hfield, hsize⟩ := hstop
        have hroom : size - mterms.length = (size - (mterms ++ [term.text]).length) + 1 := by
          rw [List.length_append, List.length_singleton]
          omega
        rw [List.takeWhile_cons_of_pos (by simpa using hfield), hroom, List.take_succ_cons, List.zipIdx_cons,
          List.map_cons, List.map_cons, ← mapIdx_lastValue_cons,
          ih _ _ (List.ext_getElem (by simp) fun i hi hi' => by simp [lastValue_nil]), List.append_assoc,
          List.length_append, List.length_singleton]
        rfl

theorem createIndex_eq (reader : IndexReader) (hfield : field ≠ []) :
    StringIndexCache.createValue reader field = reader.indexOf field := by
  have hnumbers : ((reader.termsOf field).take reader.maxDoc).zipIdx 1 =
      ((reader.termsOf field).take reader.maxDoc).zipIdx.map fun posting => (posting.1, posting.2 + 1) := by
    rw [List.zipIdx_eq_map_add]
    refine List.map_congr_left fun posting _ => ?_
    rw [Nat.add_comm]
  rw [StringIndexCache.createValue, fillIndex_eq, terms_takeWhile reader hfield, mapIdx_replicate_eq]
  simp only [List.length_singleton, Nat.add_sub_cancel, hnumbers, List.map_map, List.singleton_append]
  rfl

end Lists

end LucenePlusPlus
