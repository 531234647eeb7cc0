import LucenePlusPlus.TermInfosReader

/-!
The ordinals of terms. The first entry of the index is before all terms and has none itself, and neither has the cursor
after the last term, so that a term before the first that is in the index has nothing to be compared with, and a
term after the last one neither.
-/

namespace LucenePlusPlus

section Lists
variable {α : Type*}

/-- Every `n`-th of them, from the first one. -/
def everyNth (n : Nat) : List α → List α
  | [] => []
  | a :: as => a :: everyNth n (as.drop (n - 1))
termination_by as => as.length
decreasing_by
  rw [List.length_drop, List.length_cons]
  omega

theorem getElem?_everyNth {n : Nat} (hpos : 0 < n) (as : List α) (j : Nat) : (everyNth n as)[j]? = as[j * n]? := by
  induction j generalizing as with
  | zero =>
      cases as with
      | nil => rw [everyNth]; rfl
      | cons a as => rw [everyNth, Nat.zero_mul]; rfl
  | succ j ih =>
      cases as with
      | nil => rw [everyNth]; rfl
      | cons a as =>
          rw [everyNth, List.getElem?_cons_succ, ih, List.getElem?_drop, Nat.succ_mul]
          rw [show j * n + n = (n - 1 + j * n) + 1 by omega, List.getElem?_cons_succ]

theorem getElem?_of_lt_takeWhile {p : α → Bool} {as : List α} {i : Nat} (hi : i < (as.takeWhile p).length) :
    ∃ a, as[i]? = some a ∧ p a = true := by
  obtain ⟨rest, heq⟩ := List.takeWhile_prefix (l := as) p
  refine ⟨(as.takeWhile p)[i], ?_, List.all_eq_true.mp List.all_takeWhile _ (List.getElem_mem hi)⟩
  rw [← List.getElem?_eq_getElem hi]
  nth_rewrite 1 [← heq]
  exact List.getElem?_append_left hi

theorem lt_length_takeWhile {p : α → Bool} {as : List α} {j : Nat}
    (h : ∀ i ≤ j, ∃ a, as[i]? = some a ∧ p a = true) : j < (as.takeWhile p).length := by
  induction j generalizing as with
  | zero =>
      obtain ⟨a, ha, hp⟩ := h 0 le_rfl
      cases as with
      | nil => cases ha
      | cons b as =>
          cases ha
          rw [List.takeWhile_cons_of_pos hp]
          exact Nat.succ_pos _
  | succ j ih =>
      obtain ⟨a, ha, hp⟩ := h 0 (Nat.zero_le _)
      cases as with
      | nil => cases ha
      | cons b as =>
          cases ha
          rw [List.takeWhile_cons_of_pos hp, List.length_cons]
          refine Nat.succ_lt_succ (ih fun i hi => ?_)
          exact h (i + 1) (Nat.succ_le_succ hi)

theorem getElem?_of_forall₂ {β : Type*} {R : α → β → Prop} {as : List α} {bs : List β} (h : List.Forall₂ R as bs)
    (i : Nat) :
    (as[i]? = none → bs[i]? = none) ∧ ∀ a, as[i]? = some a → ∃ b, bs[i]? = some b ∧ R a b := by
  induction h generalizing i with
  | nil => exact ⟨fun _ => rfl, fun a ha => by cases ha⟩
  | cons hab hrest ih =>
      cases i with
      | zero =>
          constructor
          · intro hnone
            cases hnone
          · intro a ha
            cases ha
            exact ⟨_, rfl, hab⟩
      | succ i => exact ih i

end Lists

open TermInfosWriter (TermRecord indexRecords before)

theorem TermBuffer.toTerm_ofRecord (fieldInfos : TermVectors.FieldNames) (r : TermRecord) :
    (TermBuffer.ofRecord fieldInfos r).toTerm =
      if (r.term fieldInfos).field = [] then none else some (r.term fieldInfos) := rfl

/-- The entry is what has been written for the term. -/
structure IndexEntry.Loads (f : TermFile) (r : TermRecord) (entry : IndexEntry) : Prop where
  term : entry.term = (TermBuffer.ofRecord f.fieldInfos r).toTerm
  docFreq : entry.info.docFreq = r.ti.docFreq
  freqPointer : entry.info.freqPointer = r.ti.freqPointer
  proxPointer : entry.info.proxPointer = r.ti.proxPointer
  pointer : entry.pointer = r.pointer

namespace TermInfosReader
open SegmentTermEnum (StandsAt)

/-- There are no terms any more. -/
def Ended (f : TermFile) (e : SegmentTermEnum) : Prop := (f.entries.length : Int) - 1 ≤ e.position

theorem next_of_ended {f : TermFile} {e : SegmentTermEnum} (h : Ended f e) :
    ∃ e', e.next f = .ok (false, e') ∧ Ended f e' :=
  ⟨_, by rw [SegmentTermEnum.next, if_pos (ge_iff_le.mpr h)], le_trans h (Int.le_add_one le_rfl)⟩

variable {f : TermFile} {records : List TermRecord} {k : Nat} {r : TermRecord} {e : SegmentTermEnum}

theorem ended_of_standsAt (hf : f.Holds records) (he : StandsAt f 0 k r e) (hle : records.length ≤ k) :
    Ended f e := by
  have hlength : f.entries.length = records.length := by rw [hf.entries, TermInfosWriter.length_encode]
  have hposition := he.position
  rw [Ended]
  omega

theorem skip_spec (hf : f.Holds records) (j : Nat) (he : StandsAt f 0 k r e)
    (hr : (TermRecord.first :: records)[k]? = some r) :
    ∃ e', skip f j e = .ok e' ∧
      ((∃ r', StandsAt f 0 (k + j) r' e' ∧ (TermRecord.first :: records)[k + j]? = some r') ∨
        Ended f e' ∧ records.length ≤ k + j) := by
  induction j generalizing k r e with
  | zero => exact ⟨e, rfl, .inl ⟨r, he, hr⟩⟩
  | succ j ih =>
      cases hr' : records[k]? with
      | some r' =>
          obtain ⟨e', hnext, he', -⟩ := SegmentTermEnum.next_of_lt hf le_rfl he hr hr'
          obtain ⟨e'', hskip, hend⟩ := ih he' (by rw [List.getElem?_cons_succ]; exact hr')
          rw [Nat.add_right_comm] at hend
          refine ⟨e'', ?_, hend⟩
          rw [skip, hnext]
          exact hskip
      | none =>
          have hle := List.getElem?_eq_none_iff.mp hr'
          obtain ⟨e', hnext, he'⟩ := next_of_ended (ended_of_standsAt hf he hle)
          refine ⟨e', ?_, .inr ⟨he', by omega⟩⟩
          rw [skip, hnext]
          rfl

theorem readIndex_of_ended {indexDivisor : Nat} (rounds : Nat) (h : Ended f e) :
    readIndex f indexDivisor rounds e = .ok [] := by
  cases rounds with
  | zero => rfl
  | succ rounds =>
      obtain ⟨e', hnext, -⟩ := next_of_ended h
      rw [readIndex, hnext]
      rfl

theorem readIndex_spec {indexDivisor : Nat} (hf : f.Holds records) (hindex : f.isIndex = true) {rounds : Nat}
    (he : StandsAt f 0 k r e) (hr : (TermRecord.first :: records)[k]? = some r)
    (hrounds : records.length < k + rounds) :
    ∃ index, readIndex f indexDivisor rounds e = .ok index ∧
      List.Forall₂ (IndexEntry.Loads f) (everyNth indexDivisor (records.drop k)) index := by
  induction rounds generalizing k r e with
  | zero =>
      have hlt := (List.getElem?_eq_some_iff.mp hr).1
      rw [List.length_cons] at hlt
      omega
  | succ rounds ih =>
      cases hr' : records[k]? with
      | none =>
          have hle := List.getElem?_eq_none_iff.mp hr'
          refine ⟨[], readIndex_of_ended _ (ended_of_standsAt hf he hle), ?_⟩
          rw [List.drop_of_length_le hle, everyNth]
          exact .nil
      | some r' =>
          obtain ⟨e', hnext, he', -⟩ := SegmentTermEnum.next_of_lt hf le_rfl he hr hr'
          have hr'' : (TermRecord.first :: records)[k + 1]? = some r' := by rw [List.getElem?_cons_succ]; exact hr'
          obtain ⟨e'', hskip, hend⟩ := skip_spec hf (indexDivisor - 1) he' hr''
          have hloads : IndexEntry.Loads f r' ⟨e'.term, e'.termInfo, e'.indexPointer⟩ :=
            ⟨by rw [SegmentTermEnum.term, he'.termBuffer], he'.docFreq, he'.freqPointer, he'.proxPointer,
              he'.indexPointer hindex⟩
          have hdrop : records.drop k = r' :: records.drop (k + 1) := by
            obtain ⟨hlt, rfl⟩ := List.getElem?_eq_some_iff.mp hr'
            exact List.drop_eq_getElem_cons hlt
          have hrest : ∃ index, readIndex f indexDivisor rounds e'' = .ok index ∧
              List.Forall₂ (IndexEntry.Loads f) (everyNth indexDivisor (records.drop (k + 1 + (indexDivisor - 1))))
                index := by
            rcases hend with ⟨r'', he'', hget⟩ | ⟨hended, hle⟩
            · exact ih he'' hget (by omega)
            · refine ⟨[], readIndex_of_ended _ hended, ?_⟩
              rw [List.drop_of_length_le hle, everyNth]
              exact .nil
          obtain ⟨index, hread, hall⟩ := hrest
          refine ⟨⟨e'.term, e'.termInfo, e'.indexPointer⟩ :: index, ?_, ?_⟩
          · rw [readIndex, hnext]
            simp only [bind, Except.bind, if_true, hskip, hread]
            rfl
          · rw [hdrop, everyNth, List.drop_drop]
            exact .cons hloads hall

theorem compareTo_pos_iff {t u : Term} : 0 < t.compareTo u ↔ u < t := by
  rw [← not_le, le_iff_lt_or_eq, Term.compareTo_neg_iff, Term.compareTo_eq_zero_iff, ← le_iff_lt_or_eq, not_le]

/-- From a term on the loop goes to the first that is not before `t`; when there is none it ends without a term. -/
theorem advance_spec {shift : Int} (hf : f.Holds records) (hshift : 0 ≤ shift) (t : Term) {rounds : Nat}
    (he : StandsAt f shift k r e) (hr : (TermRecord.first :: records)[k]? = some r)
    (hfields : ∀ i r', k ≤ i → (TermRecord.first :: records)[i]? = some r' → (r'.term f.fieldInfos).field ≠ [])
    (hrounds : records.length < k + rounds) :
    (∃ j r' e', k ≤ j ∧ (TermRecord.first :: records)[j]? = some r' ∧ advance f t rounds e = .ok e' ∧
      StandsAt f shift j r' e' ∧ t ≤ r'.term f.fieldInfos ∧
        ∀ i r'', k ≤ i → i < j → (TermRecord.first :: records)[i]? = some r'' → r''.term f.fieldInfos < t) ∨
    (∀ i r', k ≤ i → (TermRecord.first :: records)[i]? = some r' → r'.term f.fieldInfos < t) ∧
      ((∃ e', advance f t rounds e = .ok e' ∧ e'.term = none) ∨ advance f t rounds e = .error .readPastEOF) := by
  induction rounds generalizing k r e with
  | zero =>
      have hlt := (List.getElem?_eq_some_iff.mp hr).1
      rw [List.length_cons] at hlt
      omega
  | succ rounds ih =>
      have hterm : e.term = some (r.term f.fieldInfos) := by
        rw [SegmentTermEnum.term, he.termBuffer, TermBuffer.toTerm_ofRecord, if_neg (hfields k r le_rfl hr)]
      rw [advance, hterm]
      simp only [compareTo, bind, Except.bind]
      by_cases hcmp : t.compareTo (r.term f.fieldInfos) > 0
      · have hbefore : r.term f.fieldInfos < t := compareTo_pos_iff.mp hcmp
        rw [if_pos hcmp]
        cases hr' : records[k]? with
        | some r' =>
            obtain ⟨e', hnext, he', -⟩ := SegmentTermEnum.next_of_lt hf hshift he hr hr'
            have hmore := ih he' (by rw [List.getElem?_cons_succ]; exact hr')
              (fun i r'' hi => hfields i r'' (Nat.le_of_succ_le hi)) (by omega)
            simp only [hnext, if_true]
            rcases hmore with ⟨j, r'', e'', hj, hget, hadvance, hat, hle, hall⟩ | ⟨hall, hend⟩
            · refine .inl ⟨j, r'', e'', Nat.le_of_succ_le hj, hget, hadvance, hat, hle, ?_⟩
              intro i r₃ hi hij hget'
              rcases Nat.eq_or_lt_of_le hi with rfl | hlt
              · rw [hr] at hget'
                cases hget'
                exact hbefore
              · exact hall i r₃ hlt hij hget'
            · refine .inr ⟨?_, hend⟩
              intro i r₃ hi hget'
              rcases Nat.eq_or_lt_of_le hi with rfl | hlt
              · rw [hr] at hget'
                cases hget'
                exact hbefore
              · exact hall i r₃ hlt hget'
        | none =>
            have hle := List.getElem?_eq_none_iff.mp hr'
            refine .inr ⟨?_, ?_⟩
            · intro i r' hi hget'
              have hlt := (List.getElem?_eq_some_iff.mp hget').1
              rw [List.length_cons] at hlt
              obtain rfl : i = k := by omega
              rw [hr] at hget'
              cases hget'
              exact hbefore
            · rcases SegmentTermEnum.next_of_length_le hf he hle with ⟨e', hnext, hnone⟩ | herror
              · exact .inl ⟨e', by rw [hnext]; rfl, hnone⟩
              · exact .inr (by rw [herror])
      · rw [if_neg hcmp]
        refine .inl ⟨k, r, e, le_rfl, hr, rfl, he, not_lt.mp (mt compareTo_pos_iff.mpr hcmp), ?_⟩
        intro i r'' hi hlt
        omega

end TermInfosReader

namespace TermDictionary
variable (d : TermDictionary)

theorem getElem?_indexRecords (i : Nat) : (indexRecords d.indexInterval d.records)[i]? =
    if i * d.indexInterval < d.records.length then some (before d.records (i * d.indexInterval)) else none := by
  have hpos := d.indexInterval_pos
  have hiff : i < (d.records.length + d.indexInterval - 1) / d.indexInterval ↔
      i * d.indexInterval < d.records.length := by
    rw [← Nat.succ_le_iff, Nat.le_div_iff_mul_le hpos, Nat.succ_mul]
    omega
  rw [indexRecords, List.getElem?_map]
  split
  · rename_i h
    rw [List.getElem?_range (hiff.mpr h)]
    rfl
  · rename_i h
    rw [List.getElem?_eq_none (by rw [List.length_range]; exact not_lt.mp (mt hiff.mp h))]
    rfl

/-- The index that is kept: entry `j` is before term `j * interval`. -/
def Keeps (interval : Nat) (index : List IndexEntry) : Prop :=
  ∀ j, (d.records.length ≤ j * interval → index[j]? = none) ∧
    (j * interval < d.records.length →
      ∃ entry, index[j]? = some entry ∧ entry.Loads d.indexFile (before d.records (j * interval)))

theorem exists_keeps {indexDivisor : Nat} (hpos : 0 < indexDivisor) :
    ∃ index, TermInfosReader.readIndex d.indexFile indexDivisor (d.indexFile.entries.length + 1) .new = .ok index ∧
      d.Keeps (d.indexInterval * indexDivisor) index := by
  have hholds := d.indexFile_holds
  have hlength : d.indexFile.entries.length = (indexRecords d.indexInterval d.records).length := by
    rw [hholds.entries, TermInfosWriter.length_encode]
  have hspec : ∃ index, TermInfosReader.readIndex d.indexFile indexDivisor (d.indexFile.entries.length + 1) .new =
      .ok index ∧ List.Forall₂ (IndexEntry.Loads d.indexFile)
        (everyNth indexDivisor ((indexRecords d.indexInterval d.records).drop 0)) index :=
    TermInfosReader.readIndex_spec hholds rfl (SegmentTermEnum.standsAt_new d.indexFile) rfl (by omega)
  obtain ⟨index, hread, hall⟩ := hspec
  refine ⟨index, hread, fun j => ?_⟩
  have hget := getElem?_of_forall₂ hall j
  rw [List.drop_zero, getElem?_everyNth hpos, getElem?_indexRecords, Nat.mul_assoc, Nat.mul_comm indexDivisor] at hget
  constructor
  · intro hle
    exact hget.1 (if_neg (not_lt.mpr hle))
  · intro hlt
    exact hget.2 _ (if_pos hlt)

variable {d}

theorem lt_of_getElem? {i j : Nat} {u v : Term} (hi : d.terms[i]? = some u) (hj : d.terms[j]? = some v)
    (hij : i < j) : u < v := by
  obtain ⟨hilt, rfl⟩ := List.getElem?_eq_some_iff.mp hi
  obtain ⟨hjlt, rfl⟩ := List.getElem?_eq_some_iff.mp hj
  exact List.pairwise_iff_getElem.mp d.sorted i j hilt hjlt hij

theorem le_of_getElem? {i j : Nat} {u v : Term} (hi : d.terms[i]? = some u) (hj : d.terms[j]? = some v)
    (hij : i ≤ j) : u ≤ v := by
  rcases Nat.eq_or_lt_of_le hij with rfl | hlt
  · exact (Option.some.inj (hi.symm.trans hj)).le
  · exact (lt_of_getElem? hi hj hlt).le

theorem field_ne_nil {u v : Term} (hle : u ≤ v) (hne : u.field ≠ []) : v.field ≠ [] := by
  intro hnil
  rcases le_iff_lt_or_eq.mp hle with hlt | rfl
  · rcases Term.lt_iff.mp hlt with hfield | ⟨hfield, -⟩
    · exact List.not_lt_nil _ (hnil ▸ hfield)
    · exact hne (hfield.trans hnil)
  · exact hne hnil

theorem getElem?_terms {k : Nat} {r : TermRecord} (h : d.records[k]? = some r) :
    d.terms[k]? = some (r.term d.fieldInfos) := by
  rw [terms, List.getElem?_map, h]
  rfl

theorem exists_record {k : Nat} {u : Term} (h : d.terms[k]? = some u) :
    ∃ r, d.records[k]? = some r ∧ r.term d.fieldInfos = u := by
  rw [terms, List.getElem?_map] at h
  exact Option.map_eq_some_iff.mp h

theorem ordinal_eq {k : Nat} {t u : Term} (hk : d.terms[k]? = some u) (hle : t ≤ u)
    (hall : ∀ i v, i < k → d.terms[i]? = some v → v < t) : d.ordinal t = if t = u then (k : Int) else -1 := by
  rw [ordinal]
  split
  · rename_i hmem
    have hget : d.terms[d.terms.idxOf t]? = some t := List.getElem?_idxOf hmem
    have hge : k ≤ d.terms.idxOf t := not_lt.mp fun hlt => lt_irrefl t (hall _ t hlt hget)
    have hle' : d.terms.idxOf t ≤ k := not_lt.mp fun hlt => not_lt.mpr hle (lt_of_getElem? hk hget hlt)
    have heq : d.terms.idxOf t = k := le_antisymm hle' hge
    rw [heq] at hget ⊢
    rw [if_pos (Option.some.inj (hget.symm.trans hk))]
  · rename_i hmem
    have hne : t ≠ u := fun h => hmem (h ▸ List.mem_of_getElem? hk)
    rw [if_neg hne]

/-! ### The entry from where to look -/

/-- There is a term in the index which is not after `t`, and whose field has a name. -/
def Indexed (d : TermDictionary) (interval : Nat) (t : Term) : Prop :=
  ∃ i u, 0 < i ∧ i * interval < d.terms.length ∧ d.terms[i * interval - 1]? = some u ∧ u.field ≠ [] ∧ u ≤ t

theorem luceneCompare_eq_false_iff {t : Term} {other : Option Term} :
    (!luceneCompare (some t) other) = true ↔ ∀ u, other = some u → u ≤ t := by
  cases other with
  | none => simp [luceneCompare]
  | some u => simp [luceneCompare, Term.compareTo_neg_iff]

theorem length_terms : d.terms.length = d.records.length := List.length_map ..

theorem term_of_loads {k : Nat} {u : Term} {entry : IndexEntry} (hpos : 0 < k) (hk : d.terms[k - 1]? = some u)
    (hentry : entry.Loads d.indexFile (before d.records k)) :
    entry.term = if u.field = [] then none else some u := by
  obtain ⟨r, hr, rfl⟩ := exists_record hk
  have hbefore : (TermRecord.first :: d.records)[k]? = some r := by
    rw [← Nat.succ_pred_eq_of_pos hpos, List.getElem?_cons_succ]
    exact hr
  rw [hentry.term, before, List.getD_eq_getElem?_getD, hbefore]
  rfl

theorem exists_offset {interval : Nat} (hinterval : 0 < interval) (hne : d.terms ≠ []) {index : List IndexEntry}
    (hkeeps : d.Keeps interval index) (t : Term) :
    ∃ (i : Nat) (entry : IndexEntry), TermInfosReader.getIndexOffset index t = i ∧ index[i]? = some entry ∧
      i * interval < d.terms.length ∧ entry.Loads d.indexFile (before d.records (i * interval)) ∧
        (entry.term = none ∧ ¬ d.Indexed interval t ∨
          ∃ u, 0 < i ∧ d.terms[i * interval - 1]? = some u ∧ u.field ≠ [] ∧ u ≤ t) := by
  have hlength : 0 < d.terms.length := List.length_pos_of_ne_nil hne
  -- The entries up to one that has a term not after `t` have none, or one not after `t`.
  have hupTo : ∀ i, i * interval < d.terms.length →
      (∀ u, 0 < i → d.terms[i * interval - 1]? = some u → u.field ≠ [] → u ≤ t) →
        ∃ entry, index[i]? = some entry ∧ (!luceneCompare (some t) entry.term) = true := by
    intro i hlt hterm
    obtain ⟨entry, hget, hentry⟩ := (hkeeps i).2 (by rwa [← length_terms])
    refine ⟨entry, hget, luceneCompare_eq_false_iff.mpr fun u hu => ?_⟩
    rcases Nat.eq_zero_or_pos i with rfl | hpos
    · rw [hentry.term, Nat.zero_mul] at hu
      cases hu
    · have hmul : 0 < i * interval := Nat.mul_pos hpos hinterval
      obtain ⟨v, hv⟩ : ∃ v, d.terms[i * interval - 1]? = some v := ⟨_, List.getElem?_eq_getElem (by omega)⟩
      rw [term_of_loads hmul hv hentry] at hu
      split at hu
      · cases hu
      · rename_i hfield
        cases hu
        exact hterm _ hpos hv hfield
  have hfirst : 0 < (index.takeWhile fun entry => !luceneCompare (some t) entry.term).length := by
    refine lt_length_takeWhile fun i hi => ?_
    obtain rfl := Nat.le_zero.mp hi
    exact hupTo 0 (by omega) fun u hpos => absurd hpos (lt_irrefl 0)
  obtain ⟨i, hi⟩ := Nat.exists_eq_succ_of_ne_zero hfirst.ne'
  obtain ⟨entry, hget, hcompare⟩ := getElem?_of_lt_takeWhile
    (show i < (index.takeWhile fun entry => !luceneCompare (some t) entry.term).length by omega)
  have hlt : i * interval < d.terms.length := by
    by_contra hnot
    rw [(hkeeps i).1 (by rw [← length_terms]; exact not_lt.mp hnot)] at hget
    cases hget
  obtain ⟨entry', hget', hentry⟩ := (hkeeps i).2 (by rwa [← length_terms])
  obtain rfl : entry' = entry := Option.some.inj (hget'.symm.trans hget)
  refine ⟨i, entry', ?_, hget, hlt, hentry, ?_⟩
  · rw [TermInfosReader.getIndexOffset, hi]
    push_cast
    ring
  · cases hterm : entry'.term with
    | none =>
        refine .inl ⟨rfl, ?_⟩
        rintro ⟨j, u, hj, hjlt, hu, hfield, hle⟩
        have hmul : 0 < j * interval := Nat.mul_pos hj hinterval
        have hji : j ≤ i := by
          refine Nat.lt_succ_iff.mp (hi ▸ lt_length_takeWhile fun i' hi' => hupTo i' ?_ ?_)
          · exact lt_of_le_of_lt (Nat.mul_le_mul_right _ hi') hjlt
          · intro v _ hv _
            exact (le_of_getElem? hv hu (Nat.sub_le_sub_right (Nat.mul_le_mul_right _ hi') 1)).trans hle
        have hmul' : j * interval ≤ i * interval := Nat.mul_le_mul_right _ hji
        obtain ⟨v, hv⟩ : ∃ v, d.terms[i * interval - 1]? = some v := ⟨_, List.getElem?_eq_getElem (by omega)⟩
        have huv : u ≤ v := le_of_getElem? hu hv (Nat.sub_le_sub_right hmul' 1)
        rw [term_of_loads (by omega) hv hentry, if_neg (field_ne_nil huv hfield)] at hterm
        cases hterm
    | some u =>
        refine .inr ⟨u, ?_⟩
        have hpos : 0 < i := by
          refine Nat.pos_of_ne_zero ?_
          rintro rfl
          rw [hentry.term, Nat.zero_mul] at hterm
          cases hterm
        have hmul : 0 < i * interval := Nat.mul_pos hpos hinterval
        obtain ⟨v, hv⟩ : ∃ v, d.terms[i * interval - 1]? = some v := ⟨_, List.getElem?_eq_getElem (by omega)⟩
        have heq := term_of_loads hmul hv hentry
        rw [hterm] at heq
        split at heq
        · cases heq
        · rename_i hfield
          cases heq
          exact ⟨hpos, hv, hfield, luceneCompare_eq_false_iff.mp hcompare u hterm⟩

open TermInfosReader
open SegmentTermEnum (StandsAt)

theorem new_eq_ok {indexDivisor : Int} {reader : TermInfosReader}
    (h : TermInfosReader.new d.file d.indexFile indexDivisor = .ok reader) :
    indexDivisor = -1 ∧ reader = ⟨d.file, -1, none⟩ ∨
      0 < indexDivisor ∧ ∃ index, d.Keeps (d.indexInterval * indexDivisor.toNat) index ∧
        reader = ⟨d.file, toInt32 (d.indexInterval * indexDivisor), some index⟩ := by
  rw [TermInfosReader.new] at h
  split at h
  · cases h
  · rename_i hdivisor
    split at h
    · rename_i hload
      have hpos : 0 < indexDivisor := by
        by_contra hnot
        exact hdivisor ⟨by omega, hload⟩
      obtain ⟨index, hread, hkeeps⟩ := d.exists_keeps (show 0 < indexDivisor.toNat by omega)
      rw [hread] at h
      cases h
      exact .inr ⟨hpos, index, hkeeps, rfl⟩
    · rename_i hnot
      cases h
      exact .inl ⟨not_not.mp hnot, rfl⟩

theorem exists_new (d : TermDictionary) {indexDivisor : Int} (hpos : 0 < indexDivisor) :
    ∃ reader, TermInfosReader.new d.file d.indexFile indexDivisor = .ok reader := by
  obtain ⟨index, hread, -⟩ := d.exists_keeps (show 0 < indexDivisor.toNat by omega)
  refine ⟨⟨d.file, toInt32 (d.indexInterval * indexDivisor), some index⟩, ?_⟩
  rw [TermInfosReader.new, if_neg (by omega), if_pos (by omega), hread]
  rfl

/-- The search from where the enumerator has been set. -/
def lookFrom (d : TermDictionary) (t : Term) (enumerator : SegmentTermEnum) : Except Failure (Int × SegmentTermEnum) := do
  let enumerator ← advance d.file t (d.file.entries.length + 1) enumerator
  let cmp ← compareTo t enumerator.term
  return (if cmp = 0 then enumerator.position else -1, enumerator)

theorem lookFrom_of_none {t : Term} {e : SegmentTermEnum} (h : e.term = none) :
    d.lookFrom t e = .error .nullPointer := by
  rw [lookFrom, advance, h]
  rfl

/-- A term that is not after the last one is found, or something after it; the count is less by the shift. -/
theorem lookFrom_spec {k : Nat} {u t : Term} {r : TermRecord} {e : SegmentTermEnum} {shift : Int} (hshift : 0 ≤ shift)
    (hpos : 0 < k) (hr : d.records[k - 1]? = some r) (hu : r.term d.fieldInfos = u) (hfield : u.field ≠ [])
    (hle : u ≤ t) (he : StandsAt d.file shift k r e) :
    (∃ v ∈ d.terms, t ≤ v) ∧
      (∃ e', d.lookFrom t e = .ok (if t ∈ d.terms then d.ordinal t - shift else d.ordinal t, e')) ∨
    (∀ v ∈ d.terms, v < t) ∧ ∃ error, d.lookFrom t e = .error error := by
  have hterms : d.terms[k - 1]? = some u := hu ▸ getElem?_terms hr
  have hget : ∀ {j : Nat} {r' : TermRecord}, 0 < j → (TermRecord.first :: d.records)[j]? = some r' →
      d.terms[j - 1]? = some (r'.term d.fieldInfos) := by
    intro j r' hj hr'
    rw [← Nat.succ_pred_eq_of_pos hj, List.getElem?_cons_succ] at hr'
    exact getElem?_terms hr'
  have hlength : d.file.entries.length = d.records.length := by
    rw [d.file_holds.entries, TermInfosWriter.length_encode]
  have hcons : (TermRecord.first :: d.records)[k]? = some r := by
    rw [← Nat.succ_pred_eq_of_pos hpos, List.getElem?_cons_succ]
    exact hr
  have hfields : ∀ i r', k ≤ i → (TermRecord.first :: d.records)[i]? = some r' →
      (r'.term d.fieldInfos).field ≠ [] := by
    intro i r' hi hr'
    exact field_ne_nil (le_of_getElem? hterms (hget (by omega) hr') (by omega)) hfield
  rcases advance_spec d.file_holds hshift t he hcons hfields
    (show d.records.length < k + (d.file.entries.length + 1) by omega) with
    ⟨j, r', e', hj, hr', hadvance, hat, hle', hall⟩ | ⟨hall, hend⟩
  · left
    have hj' := hget (by omega) hr'
    have hterm : e'.term = some (r'.term d.fieldInfos) := by
      rw [SegmentTermEnum.term, hat.termBuffer, TermBuffer.toTerm_ofRecord]
      exact if_neg (hfields j r' hj hr')
    have hbefore : ∀ i v, i < j - 1 → d.terms[i]? = some v → v < t := by
      intro i v hi hv
      rcases Nat.lt_or_ge i (k - 1) with hlt | hge
      · exact lt_of_lt_of_le (lt_of_getElem? hv hterms hlt) hle
      · obtain ⟨r'', hr'', rfl⟩ := exists_record hv
        exact hall (i + 1) r'' (by omega) (by omega) (by rw [List.getElem?_cons_succ]; exact hr'')
    have hordinal := ordinal_eq hj' hle' hbefore
    refine ⟨⟨_, List.mem_of_getElem? hj', hle'⟩, e', ?_⟩
    rw [lookFrom, hadvance]
    simp only [bind, Except.bind, hterm, compareTo, Term.compareTo_eq_zero_iff]
    by_cases heq : t = r'.term d.fieldInfos
    · have hmem : t ∈ d.terms := heq ▸ List.mem_of_getElem? hj'
      have hposition := hat.position
      rw [if_pos heq, if_pos hmem, hordinal, if_pos heq, hposition, Nat.cast_sub (show 1 ≤ j by omega)]
      rfl
    · have hnot : t ∉ d.terms := fun hmem => by
        rw [ordinal, if_pos hmem, if_neg heq] at hordinal
        omega
      rw [if_neg heq, if_neg hnot, hordinal, if_neg heq]
      rfl
  · right
    refine ⟨?_, ?_⟩
    · intro v hv
      obtain ⟨i, hi⟩ := List.getElem?_of_mem hv
      rcases Nat.lt_or_ge i (k - 1) with hlt | hge
      · exact lt_of_lt_of_le (lt_of_getElem? hi hterms hlt) hle
      · obtain ⟨r'', hr'', rfl⟩ := exists_record hi
        exact hall (i + 1) r'' (by omega) (by rw [List.getElem?_cons_succ]; exact hr'')
    · rcases hend with ⟨e', hadvance, hnone⟩ | herror
      · refine ⟨.nullPointer, ?_⟩
        rw [lookFrom, hadvance]
        simp only [bind, Except.bind, hnone, compareTo]
      · refine ⟨.readPastEOF, ?_⟩
        rw [lookFrom, herror]
        rfl

/-- The index has a term for `t`, the dictionary has one that is not before it, and if `t` is there the distance of
the index entries is an `int32_t`. -/
structure Reaches (d : TermDictionary) (interval : Nat) (t : Term) : Prop where
  indexed : d.Indexed interval t
  notAfter : ∃ u ∈ d.terms, t ≤ u
  fits : t ∈ d.terms → interval < 0x80000000

theorem toInt32_le (n : Nat) : toInt32 n ≤ n := by
  rw [toInt32]
  omega

theorem toInt32_eq_iff (n : Nat) : toInt32 n = n ↔ n < 0x80000000 := by
  rw [toInt32]
  omega

theorem getPosition_exact_iff (d : TermDictionary) (hne : d.terms ≠ []) {indexDivisor : Int} {reader : TermInfosReader}
    (hnew : TermInfosReader.new d.file d.indexFile indexDivisor = .ok reader) (enumerator : SegmentTermEnum)
    (t : Term) :
    (∃ e, reader.getPosition enumerator t = .ok (d.ordinal t, e)) ↔
      indexDivisor ≠ -1 ∧ d.Reaches (d.indexInterval * indexDivisor.toNat) t := by
  have hlength : d.file.entries.length = d.terms.length := by
    rw [d.file_holds.entries, TermInfosWriter.length_encode, length_terms]
  have hsome : ¬ d.file.entries.length = 0 := by
    rw [hlength]
    exact (List.length_pos_of_ne_nil hne).ne'
  rcases new_eq_ok hnew with ⟨rfl, rfl⟩ | ⟨hpos, index, hkeeps, rfl⟩
  · constructor
    · rintro ⟨e, he⟩
      rw [getPosition, if_neg hsome] at he
      cases he
    · rintro ⟨h, -⟩
      exact absurd rfl h
  · have hnat : (d.indexInterval : Int) * indexDivisor = (d.indexInterval * indexDivisor.toNat : Nat) := by
      rw [Nat.cast_mul, Int.toNat_of_nonneg hpos.le]
    have hinterval : 0 < d.indexInterval * indexDivisor.toNat := Nat.mul_pos d.indexInterval_pos (by omega)
    rw [hnat]
    generalize d.indexInterval * indexDivisor.toNat = interval at hkeeps hinterval ⊢
    obtain ⟨i, entry, hoffset, hentry, hlt, hloads, hcases⟩ := exists_offset hinterval hne hkeeps t
    have hlook : getPosition ⟨d.file, toInt32 interval, some index⟩ enumerator t = d.lookFrom t
        (enumerator.seek entry.pointer.toNat (i * toInt32 interval - 1) entry.term entry.info) := by
      rw [getPosition, if_neg hsome, lookFrom]
      simp only [ensureIndexIsRead, bind, Except.bind, seekEnum, hoffset, Int.natCast_nonneg, if_true,
        Int.toNat_natCast, hentry]
    rw [hlook]
    rcases hcases with ⟨hnone, hnot⟩ | ⟨u, hi, hu, hfield, hle⟩
    · rw [lookFrom_of_none (by rw [hnone]; rfl)]
      constructor
      · rintro ⟨e, he⟩
        cases he
      · rintro ⟨-, h⟩
        exact absurd h.indexed hnot
    · obtain ⟨r, hr, rfl⟩ := exists_record hu
      have hk : 0 < i * interval := Nat.mul_pos hi hinterval
      have hshift : 0 ≤ (i : Int) * (interval - toInt32 interval) :=
        mul_nonneg (Int.natCast_nonneg i) (sub_nonneg.mpr (toInt32_le interval))
      have hbefore : before d.records (i * interval) = { r with pointer := (i * interval : Nat) } := by
        rw [before, List.getD_eq_getElem?_getD, ← Nat.succ_pred_eq_of_pos hk, List.getElem?_cons_succ]
        rw [show (i * interval).pred = i * interval - 1 from rfl, hr]
        rfl
      rw [hbefore] at hloads
      have hat : StandsAt d.file ((i : Int) * (interval - toInt32 interval)) (i * interval) r
          (enumerator.seek entry.pointer.toNat (i * toInt32 interval - 1) entry.term entry.info) := by
        have hposition : (i : Int) * toInt32 interval - 1 =
            (i * interval : Nat) - 1 - (i : Int) * (interval - toInt32 interval) := by
          push_cast
          ring
        rw [hloads.pointer, Int.toNat_natCast, hposition, hloads.term]
        refine SegmentTermEnum.standsAt_seek enumerator ?_ ⟨hloads.docFreq, hloads.freqPointer, hloads.proxPointer⟩ rfl
        rw [TermBuffer.toTerm_ofRecord]
        exact fun h => absurd (if_neg hfield ▸ h) (by simp)
      rcases lookFrom_spec hshift hk hr rfl hfield hle hat with ⟨hnotAfter, e', hlook'⟩ | ⟨hall, error, herror⟩
      · rw [hlook']
        constructor
        · rintro ⟨e, he⟩
          refine ⟨by omega, ⟨⟨i, _, hi, hlt, hu, hfield, hle⟩, hnotAfter, fun hmem => ?_⟩⟩
          rw [if_pos hmem] at he
          have hsame : d.ordinal t - (i : Int) * (interval - toInt32 interval) = d.ordinal t :=
            (Prod.mk.inj (Except.ok.inj he)).1
          have hzero : (i : Int) * (interval - toInt32 interval) = 0 := sub_eq_self.mp hsame
          rcases mul_eq_zero.mp hzero with h | h
          · exact absurd h (Int.natCast_ne_zero.mpr hi.ne')
          · exact (toInt32_eq_iff interval).mp (sub_eq_zero.mp h).symm
        · rintro ⟨-, h⟩
          refine ⟨e', ?_⟩
          split
          · rename_i hmem
            rw [(toInt32_eq_iff interval).mpr (h.fits hmem), sub_self, mul_zero, sub_zero]
          · rfl
      · rw [herror]
        constructor
        · rintro ⟨e, he⟩
          cases he
        · rintro ⟨-, h⟩
          obtain ⟨v, hv, hle'⟩ := h.notAfter
          exact absurd hle' (not_le.mpr (hall v hv))

/-- The field is `f`, each text a letter. -/
def recordOf (letter : UInt8) : TermRecord := ⟨0, [letter], ⟨1, 0, 0, 0⟩, 0⟩

def oneTerm : TermDictionary where
  fieldInfos := [[⟨0x66, WChar.f_mem⟩]]
  indexInterval := 128
  records := [recordOf 0x61]
  indexInterval_pos := by decide
  written := by
    intro r hr
    rw [List.mem_singleton.mp hr]
    exact ⟨[⟨0x61, by decide⟩], by decide⟩
  sorted := List.pairwise_singleton _ _

/-- A term that is there, where the search ends without an answer. -/
theorem one_term_is_not_found : oneTerm.terms = [⟨[⟨0x66, by decide⟩], [⟨0x61, by decide⟩]⟩] ∧
    ∃ reader, TermInfosReader.new oneTerm.file oneTerm.indexFile 1 = .ok reader ∧
      reader.getPosition .new ⟨[⟨0x66, by decide⟩], [⟨0x61, by decide⟩]⟩ = .error .nullPointer :=
  ⟨by decide +kernel, _, rfl, rfl⟩

/-- Every term has an entry in the index. -/
def twoTerms : TermDictionary where
  fieldInfos := [[⟨0x66, WChar.f_mem⟩]]
  indexInterval := 1
  records := [recordOf 0x61, recordOf 0x62]
  indexInterval_pos := by decide
  written := by
    intro r hr
    rcases List.mem_pair.mp hr with rfl | rfl
    · exact ⟨[⟨0x61, by decide⟩], by decide⟩
    · exact ⟨[⟨0x62, by decide⟩], by decide⟩
  sorted := by decide

theorem getPosition_exact_iff_two_terms :
    ∃ reader, TermInfosReader.new twoTerms.file twoTerms.indexFile 1 = .ok reader ∧
      ((∃ e, reader.getPosition .new ⟨[⟨0x66, by decide⟩], [⟨0x62, by decide⟩]⟩ =
          .ok (twoTerms.ordinal ⟨[⟨0x66, by decide⟩], [⟨0x62, by decide⟩]⟩, e)) ↔
        (1 : Int) ≠ -1 ∧ twoTerms.Reaches (twoTerms.indexInterval * (1 : Int).toNat)
          ⟨[⟨0x66, by decide⟩], [⟨0x62, by decide⟩]⟩) := by
  obtain ⟨reader, hnew⟩ := exists_new twoTerms (show (0 : Int) < 1 by decide)
  exact ⟨reader, hnew, getPosition_exact_iff twoTerms (by decide) hnew .new _⟩

end TermDictionary
end LucenePlusPlus
