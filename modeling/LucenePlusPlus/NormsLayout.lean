import LucenePlusPlus.NormsWriter

/-!
The file of the norms of a segment: for each field with norms a block of a byte for each document, where the reader
looks for it.
-/

namespace LucenePlusPlus
namespace NormsWriter
open FieldNumbering (Add)

variable {defaultNorm : UInt8} {f : Nat → UInt8} {numDocs upto : Nat} {fields : List Cursor}

def entriesOf (fields : List Cursor) : List (Nat × UInt8) := fields.flatMap Cursor.entries

variable (defaultNorm f numDocs) in
/-- The norms that are left are those of `f` from `upto` on, and `f` is the default norm elsewhere. -/
structure Ready (fields : List Cursor) (upto : Nat) : Prop where
  sorted : ∀ field ∈ fields, field.entries.Pairwise fun entry entry' => entry.1 < entry'.1
  distinct : ((entriesOf fields).map Prod.fst).Nodup
  bounds : ∀ entry ∈ entriesOf fields, upto ≤ entry.1 ∧ entry.1 < numDocs
  norm : ∀ entry ∈ entriesOf fields, f entry.1 = entry.2
  hole : ∀ d, upto ≤ d → d ∉ (entriesOf fields).map Prod.fst → f d = defaultNorm

theorem replicate_eq_map {start count : Nat} (h : ∀ d, start ≤ d → d < start + count → f d = defaultNorm) :
    List.replicate count defaultNorm = (List.range' start count).map f := by
  symm
  refine List.eq_replicate_iff.mpr ⟨by rw [List.length_map, List.length_range'], fun b hmem => ?_⟩
  obtain ⟨d, hd, rfl⟩ := List.mem_map.mp hmem
  rw [List.mem_range'_1] at hd
  exact h d hd.1 hd.2

/-- The norm that is written, the fields after it, and what they have left. -/
structure Taken (fields : List Cursor) (field : Cursor) (fields' : List Cursor) : Prop where
  perm : (entriesOf fields).Perm ((field.docID, field.norm) :: entriesOf fields')
  sorted : ∀ field' ∈ fields', field' ∈ fields ∨ field'.entries = field.rest

theorem taken (before behind : List Cursor) (field : Cursor) :
    Taken (before ++ field :: behind) field (advance (before ++ field :: behind) before.length field) := by
  unfold advance
  have hentries : (entriesOf (before ++ field :: behind)).Perm
      ((field.docID, field.norm) :: (entriesOf before ++ (field.rest ++ entriesOf behind))) := by
    rw [entriesOf, List.flatMap_append, List.flatMap_cons, Cursor.entries]
    exact List.perm_middle
  rcases Cursor.first_spec field.rest with ⟨hfirst, hnil⟩ | ⟨following, hfirst, hrest⟩
  · have hperm := removeAt_perm before behind field
    rw [hfirst]
    refine ⟨hentries.trans (List.Perm.cons _ ?_), fun field' hmem => ?_⟩
    · rw [hnil, List.nil_append, entriesOf, entriesOf, ← List.flatMap_append]
      exact (hperm.flatMap_right _).symm
    · rcases List.mem_append.mp (hperm.mem_iff.mp hmem) with hmem | hmem
      · exact Or.inl (List.mem_append_left _ hmem)
      · exact Or.inl (List.mem_append_right _ (List.mem_cons_of_mem _ hmem))
  · rw [hfirst]
    dsimp only
    rw [List.set_append_right _ _ le_rfl, Nat.sub_self, List.set_cons_zero]
    refine ⟨hentries.trans (List.Perm.cons _ ?_), fun field' hmem => ?_⟩
    · show List.Perm _ ((before ++ following :: behind).flatMap Cursor.entries)
      rw [List.flatMap_append, List.flatMap_cons, hrest]
      exact List.Perm.refl _
    · rcases List.mem_append.mp hmem with hmem | hmem
      · exact Or.inl (List.mem_append_left _ hmem)
      · rcases List.mem_cons.mp hmem with rfl | hmem
        · exact Or.inr hrest
        · exact Or.inl (List.mem_append_right _ (List.mem_cons_of_mem _ hmem))

theorem Ready.least_le {field : Cursor} (h : Ready defaultNorm f numDocs fields upto)
    (hleast : ∀ other ∈ fields, field.docID ≤ other.docID) : ∀ entry ∈ entriesOf fields, field.docID ≤ entry.1 := by
  intro entry hentry
  obtain ⟨other, hother, hentry'⟩ := List.mem_flatMap.mp hentry
  have hfirst := hleast other hother
  rcases List.mem_cons.mp hentry' with rfl | hrest
  · exact hfirst
  · exact hfirst.trans ((List.pairwise_cons.mp (h.sorted other hother)).1 entry hrest).le

theorem Ready.taken {field : Cursor} {fields' : List Cursor} (h : Ready defaultNorm f numDocs fields upto)
    (hmem : field ∈ fields) (hleast : ∀ other ∈ fields, field.docID ≤ other.docID) (htaken : Taken fields field fields') :
    Ready defaultNorm f numDocs fields' (field.docID + 1) := by
  have hnodup : ((field.docID, field.norm) :: entriesOf fields').map Prod.fst |>.Nodup :=
    (htaken.perm.map Prod.fst).nodup_iff.mp h.distinct
  rw [List.map_cons, List.nodup_cons] at hnodup
  have hin : ∀ entry ∈ entriesOf fields', entry ∈ entriesOf fields := fun entry hentry =>
    htaken.perm.mem_iff.mpr (List.mem_cons_of_mem _ hentry)
  refine ⟨fun field' hfield' => ?_, hnodup.2, fun entry hentry => ?_, fun entry hentry => h.norm entry (hin entry hentry),
    fun d hd hnot => ?_⟩
  · rcases htaken.sorted field' hfield' with hold | hrest
    · exact h.sorted field' hold
    · rw [hrest]
      exact (List.pairwise_cons.mp (h.sorted field hmem)).2
  · refine ⟨?_, (h.bounds entry (hin entry hentry)).2⟩
    have hle := h.least_le hleast entry (hin entry hentry)
    have hne : field.docID ≠ entry.1 := by
      intro heq
      exact hnodup.1 (List.mem_map.mpr ⟨entry, hentry, heq.symm⟩)
    omega
  · have hfirst := (h.bounds (field.docID, field.norm) (htaken.perm.mem_iff.mpr List.mem_cons_self)).1
    refine h.hole d (by omega) fun hmem' => ?_
    rw [(htaken.perm.map Prod.fst).mem_iff, List.map_cons, List.mem_cons] at hmem'
    rcases hmem' with rfl | hmem'
    · exact absurd hd (Nat.not_succ_le_self _)
    · exact hnot hmem'

theorem exists_split {α : Type} {xs : List α} {i : Nat} {x : α} (h : xs[i]? = some x) :
    ∃ before behind, xs = before ++ x :: behind ∧ before.length = i := by
  obtain ⟨hlt, hget⟩ := List.getElem?_eq_some_iff.mp h
  refine ⟨xs.take i, xs.drop (i + 1), ?_, List.length_take_of_le hlt.le⟩
  rw [← hget, ← List.drop_eq_getElem_cons hlt, List.take_append_drop]

/-- The bytes are the norms up to where they end, and there are no norms behind. -/
theorem mergeNorms_spec {rounds : Nat} (h : Ready defaultNorm f numDocs fields upto) (hupto : upto ≤ numDocs)
    (hrounds : (entriesOf fields).length < rounds) :
    ∃ upto', mergeNorms defaultNorm rounds fields upto = some ((List.range' upto (upto' - upto)).map f, upto') ∧
      upto ≤ upto' ∧ upto' ≤ numDocs ∧ ∀ d, upto' ≤ d → f d = defaultNorm := by
  induction rounds generalizing fields upto with
  | zero => exact absurd hrounds (Nat.not_lt_zero _)
  | succ rounds ih =>
      cases fields with
      | nil =>
          rw [mergeNorms]
          exact ⟨upto, by rw [Nat.sub_self]; rfl, le_rfl, hupto, fun d hd => h.hole d hd List.not_mem_nil⟩
      | cons first others =>
          obtain ⟨field, hget, hleast⟩ := @findMin_spec others [first] 0 first.docID first rfl rfl fun field hmem => by
            rw [List.mem_singleton.mp hmem]
          rw [List.singleton_append] at hget hleast
          rw [mergeNorms]
          dsimp only
          rw [List.length_singleton] at hget
          generalize findMin 0 first.docID 1 others = minLoc at hget
          rw [List.getD_eq_getElem?_getD, hget, Option.getD_some]
          generalize first :: others = fields at h hrounds hget hleast
          obtain ⟨before, behind, rfl, rfl⟩ := exists_split hget
          have htaken := taken before behind field
          generalize advance (before ++ field :: behind) before.length field = fields' at htaken
          have hmem : field ∈ before ++ field :: behind := List.mem_append_right _ List.mem_cons_self
          have hentry : (field.docID, field.norm) ∈ entriesOf (before ++ field :: behind) :=
            htaken.perm.mem_iff.mpr List.mem_cons_self
          obtain ⟨hge, hlt⟩ := h.bounds _ hentry
          have hlength := htaken.perm.length_eq
          rw [List.length_cons] at hlength
          obtain ⟨upto', hmerge, hle, hle', hbehind⟩ := ih (h.taken hmem hleast htaken) hlt (by omega)
          dsimp only at hge hlt
          rw [max_eq_right hge, hmerge]
          refine ⟨upto', ?_, by omega, hle', hbehind⟩
          have hhole : List.replicate (field.docID - upto) defaultNorm
              = (List.range' upto (field.docID - upto)).map f := by
            refine replicate_eq_map fun d hd hd' => h.hole d hd fun hin => ?_
            obtain ⟨entry, hentry', rfl⟩ := List.mem_map.mp hin
            exact absurd (h.least_le hleast entry hentry') (by omega)
          have hnorm : field.norm = f field.docID := (h.norm _ hentry).symm
          have hparts : upto' - upto = (field.docID - upto) + ((upto' - (field.docID + 1)) + 1) := by omega
          have hstart : upto + (field.docID - upto) = field.docID := by omega
          rw [Option.map_some, hhole, hnorm, hparts, ← List.range'_append_1, List.map_append, hstart,
            List.range'_succ, List.map_cons]

/-- The norms of a field that threads have. -/
def normsOf (perFields : List NormsWriterPerField) (fieldNumber : Nat) : List (Nat × UInt8) :=
  (perFields.filter fun perField => perField.fieldNumber = fieldNumber).flatMap NormsWriterPerField.norms

theorem entriesOf_first (perFields : List NormsWriterPerField) :
    entriesOf (perFields.filterMap fun perField => Cursor.first perField.norms)
      = perFields.flatMap NormsWriterPerField.norms := by
  induction perFields with
  | nil => rfl
  | cons perField perFields ih =>
      rw [List.flatMap_cons, ← ih, List.filterMap_cons]
      rcases Cursor.first_spec perField.norms with ⟨hfirst, hnil⟩ | ⟨field, hfirst, hentries⟩
      · rw [hfirst, hnil, List.nil_append]
      · rw [hfirst, ← hentries]
        rfl

theorem entriesOf_toMerge (perFields : List NormsWriterPerField) (fieldNumber : Nat) :
    entriesOf (toMerge perFields fieldNumber) = normsOf perFields fieldNumber := entriesOf_first _

theorem length_normsOf_lt (perFields : List NormsWriterPerField) (fieldNumber : Nat) :
    (normsOf perFields fieldNumber).length < rounds perFields :=
  Nat.lt_succ_of_le (List.filter_sublist.flatMap NormsWriterPerField.norms).length_le

/-- The norm that is written for a document. -/
def normOf (defaultNorm : UInt8) (norms : List (Nat × UInt8)) (docID : Nat) : UInt8 :=
  (norms.lookup docID).getD defaultNorm

theorem normOf_of_mem {norms : List (Nat × UInt8)} (h : (norms.map Prod.fst).Nodup) {docID : Nat} {norm : UInt8}
    (hmem : (docID, norm) ∈ norms) : normOf defaultNorm norms docID = norm := by
  obtain ⟨before, behind, rfl⟩ := List.append_of_mem hmem
  rw [List.map_append, List.map_cons] at h
  have hnot : ∀ entry ∈ before, (docID != entry.1) = true := by
    intro entry hentry
    refine bne_iff_ne.mpr fun heq => ?_
    exact (List.nodup_append.mp h).2.2 entry.1 (List.mem_map_of_mem hentry) docID List.mem_cons_self heq.symm
  rw [normOf, List.lookup_eq_some_iff.mpr ⟨before, behind, rfl, hnot⟩, Option.getD_some]

theorem normOf_of_not_mem {norms : List (Nat × UInt8)} {docID : Nat} (h : docID ∉ norms.map Prod.fst) :
    normOf defaultNorm norms docID = defaultNorm := by
  have hnone : norms.lookup docID = none := List.lookup_eq_none_iff.mpr fun entry hentry =>
    bne_iff_ne.mpr fun heq => h (heq ▸ List.mem_map_of_mem hentry)
  rw [normOf, hnone, Option.getD_none]

/-- What threads have for a field: a norm for some of the documents, each thread in the order of its documents. -/
structure Collected (numDocs : Nat) (perFields : List NormsWriterPerField) (fieldNumber : Nat) : Prop where
  sorted : ∀ perField ∈ perFields, perField.norms.Pairwise fun entry entry' => entry.1 < entry'.1
  distinct : ((normsOf perFields fieldNumber).map Prod.fst).Nodup
  docID_lt : ∀ entry ∈ normsOf perFields fieldNumber, entry.1 < numDocs

theorem Collected.ready {perFields : List NormsWriterPerField} {fieldNumber : Nat}
    (h : Collected numDocs perFields fieldNumber) :
    Ready defaultNorm (normOf defaultNorm (normsOf perFields fieldNumber)) numDocs (toMerge perFields fieldNumber) 0 := by
  have hentries := entriesOf_toMerge perFields fieldNumber
  refine ⟨fun field hfield => ?_, hentries ▸ h.distinct, fun entry hentry => ?_, fun entry hentry => ?_, fun d _ hnot => ?_⟩
  · obtain ⟨perField, hmem, hfirst⟩ := List.mem_filterMap.mp hfield
    rcases Cursor.first_spec perField.norms with ⟨hnone, -⟩ | ⟨field', hfirst', hentries'⟩
    · exact absurd (hnone.symm.trans hfirst) (Option.some_ne_none field).symm
    · rw [Option.some.inj (hfirst.symm.trans hfirst'), hentries']
      exact h.sorted perField (List.mem_of_mem_filter hmem)
  · exact ⟨Nat.zero_le _, h.docID_lt entry (hentries ▸ hentry)⟩
  · exact normOf_of_mem h.distinct (hentries ▸ hentry)
  · exact normOf_of_not_mem (hentries ▸ hnot)

variable (defaultNorm numDocs) in
/-- The bytes of a field. -/
def block (perFields : List NormsWriterPerField) (field : FieldNumbering.FieldInfo × Nat) : List UInt8 :=
  if hasNorms field.1 then (List.range numDocs).map (normOf defaultNorm (normsOf perFields field.2)) else []

theorem writeField_spec {perFields : List NormsWriterPerField} {fieldNumber : Nat} {info : FieldNumbering.FieldInfo}
    (h : Collected numDocs perFields fieldNumber) (hnorms : toMerge perFields fieldNumber ≠ [] → hasNorms info = true) :
    writeField defaultNorm perFields numDocs fieldNumber info = some (block defaultNorm numDocs perFields (info, fieldNumber)) := by
  have hready := @Collected.ready defaultNorm _ _ _ h
  rw [writeField, block]
  dsimp only
  rw [List.range_eq_range']
  by_cases hmerge : toMerge perFields fieldNumber = []
  · rw [if_neg (not_not.mpr hmerge)]
    split
    · have hdefault := @replicate_eq_map defaultNorm _ 0 numDocs fun d hd _ => hready.hole d hd fun hin => by
        rw [hmerge] at hin
        exact absurd hin List.not_mem_nil
      rw [hdefault]
    · rfl
  · rw [if_pos hmerge, if_pos (hnorms hmerge)]
    have hlength := length_normsOf_lt perFields fieldNumber
    rw [← entriesOf_toMerge] at hlength
    obtain ⟨upto', hbytes, -, hle, hbehind⟩ := mergeNorms_spec hready (Nat.zero_le _) hlength
    have hdefault := @replicate_eq_map defaultNorm _ upto' (numDocs - upto') fun d hd _ => hbehind d hd
    rw [hbytes, Option.map_some, hdefault, ← List.map_append, Nat.sub_zero]
    have happend := @List.range'_append_1 0 upto' (numDocs - upto')
    rw [Nat.zero_add, Nat.add_sub_cancel' hle] at happend
    rw [happend]

variable {perFields : List NormsWriterPerField} {infos : List FieldNumbering.FieldInfo}

theorem length_block (field : FieldNumbering.FieldInfo × Nat) :
    (block defaultNorm numDocs perFields field).length = if hasNorms field.1 then numDocs else 0 := by
  rw [block, apply_ite List.length, List.length_map, List.length_range, List.length_nil]

theorem writeFields_spec {fieldNumber : Nat} (h : ∀ k, Collected numDocs perFields k)
    (hnorms : ∀ (place : Nat) info, infos[place]? = some info → toMerge perFields (fieldNumber + place) ≠ [] →
      hasNorms info = true) :
    writeFields defaultNorm perFields numDocs fieldNumber infos
      = some ((infos.zipIdx fieldNumber).flatMap (block defaultNorm numDocs perFields)) := by
  induction infos generalizing fieldNumber with
  | nil => rfl
  | cons info infos ih =>
      have hmore := @ih (fieldNumber + 1) fun place info' hinfo => by
        rw [Nat.add_assoc, Nat.add_comm 1 place]
        exact hnorms (place + 1) info' hinfo
      rw [writeFields, writeField_spec (h fieldNumber) (hnorms 0 info rfl), hmore, List.zipIdx_cons, List.flatMap_cons]
      rfl

theorem openNorms_spec {fieldNumber seek : Nat} {place : Nat} {info : FieldNumbering.FieldInfo}
    (hinfo : infos[place]? = some info) {before : List UInt8} (hbefore : before.length = seek) :
    (hasNorms info = true → ∃ start, (openNorms numDocs seek infos)[place]? = some (some start) ∧
      ((before ++ (infos.zipIdx fieldNumber).flatMap (block defaultNorm numDocs perFields)).drop start).take numDocs
        = block defaultNorm numDocs perFields (info, fieldNumber + place)) ∧
    (hasNorms info = false → (openNorms numDocs seek infos)[place]? = some none) := by
  induction infos generalizing fieldNumber seek place before with
  | nil => cases hinfo
  | cons info' infos ih =>
      have hlength := @length_block defaultNorm numDocs perFields (info', fieldNumber)
      rw [List.zipIdx_cons, List.flatMap_cons, openNorms]
      cases place with
      | zero =>
          cases hinfo
          dsimp only at hlength
          refine ⟨fun hhas => ⟨seek, ?_, ?_⟩, fun hnot => ?_⟩
          · rw [if_pos hhas]
            rfl
          · rw [if_pos hhas] at hlength
            rw [← hbefore, List.drop_left, List.take_append_of_le_length hlength.ge, List.take_of_length_le hlength.le]
            rfl
          · rw [if_neg (Bool.eq_false_iff.mp hnot)]
            rfl
      | succ place =>
          rw [← List.append_assoc, ← Nat.add_assoc, Nat.add_right_comm]
          split
          case isTrue hhas =>
            rw [if_pos hhas] at hlength
            exact ih hinfo (by rw [List.length_append, hbefore, hlength])
          case isFalse hnot =>
            rw [if_neg hnot] at hlength
            exact ih hinfo (by rw [List.length_append, hbefore, hlength, Nat.add_zero])

/-! ### Documents -/

variable {start : State} {events : List Event}

/-- The norm of a document's field has been computed, and the field had norms by then. -/
def Computed (start : State) (events : List Event) (thread fieldNumber docID : Nat) (norm : UInt8) : Prop :=
  ∃ before after, events = before ++ .finish thread fieldNumber docID norm :: after ∧
    ((run start before).fieldInfos.byNumber[fieldNumber]?).any hasNorms = true

/-- A document has a field once, and is given to one thread; the documents of a thread come one after another. -/
def Apart : Event → Event → Prop
  | .finish thread fieldNumber docID _, .finish thread' fieldNumber' docID' _ =>
      (fieldNumber = fieldNumber' → docID ≠ docID') ∧ (thread = thread' → docID ≤ docID')
  | _, _ => True

structure Legal (numDocs : Nat) (events : List Event) : Prop where
  docID_lt : ∀ thread fieldNumber docID norm, .finish thread fieldNumber docID norm ∈ events → docID < numDocs
  apart : events.Pairwise Apart

theorem run_concat (start : State) (events : List Event) (event : Event) :
    run start (events ++ [event]) = step (run start events) event := by
  rw [run, List.foldl_append]
  rfl

theorem computed_concat {event : Event} {thread fieldNumber docID : Nat} {norm : UInt8} :
    Computed start (events ++ [event]) thread fieldNumber docID norm ↔ Computed start events thread fieldNumber docID norm ∨
      event = .finish thread fieldNumber docID norm ∧
        ((run start events).fieldInfos.byNumber[fieldNumber]?).any hasNorms = true := by
  constructor
  · rintro ⟨before, after, heq, hhas⟩
    rcases List.eq_nil_or_concat after with rfl | ⟨after', last, rfl⟩
    · obtain ⟨rfl, hlast⟩ := List.append_inj' heq rfl
      exact Or.inr ⟨List.head_eq_of_cons_eq hlast, hhas⟩
    · rw [List.concat_eq_append, ← List.cons_append, ← List.append_assoc] at heq
      exact Or.inl ⟨before, after', (List.append_inj' heq rfl).1, hhas⟩
  · rintro (⟨before, after, rfl, hhas⟩ | ⟨rfl, hhas⟩)
    · exact ⟨before, after ++ [event], by rw [List.append_assoc, List.cons_append], hhas⟩
    · exact ⟨events, [], rfl, hhas⟩

theorem hasNorms_update {info : FieldNumbering.FieldInfo} (flags : FieldNumbering.Flags) (h : hasNorms info = true) :
    hasNorms (info.update flags) = true := by
  rw [hasNorms, Bool.and_eq_true, Bool.not_eq_true'] at h
  have hindexed : (info.update flags).isIndexed = true := by
    rw [FieldNumbering.FieldInfo.update, FieldNumbering.Flags.isIndexed_update, h.1, Bool.true_or]
  have homit : (info.update flags).omitNorms = false := by
    show (if flags.isIndexed = true ∧ info.omitNorms ≠ flags.omitNorms then false else info.omitNorms) = false
    rw [h.2, ite_self]
  rw [hasNorms, hindexed, homit]
  rfl

theorem any_hasNorms_add {fieldInfos : FieldNumbering.FieldInfos} (call : Add) {fieldNumber : Nat}
    (h : (fieldInfos.byNumber[fieldNumber]?).any hasNorms = true) :
    ((fieldInfos.add call).byNumber[fieldNumber]?).any hasNorms = true := by
  obtain ⟨info, hinfo, hhas⟩ := (Option.any_eq_true _ _).mp h
  refine (Option.any_eq_true _ _).mpr ?_
  rw [FieldNumbering.FieldInfos.add]
  split
  · refine ⟨info, ?_, hhas⟩
    exact (List.getElem?_append_left (List.getElem?_eq_some_iff.mp hinfo).1).trans hinfo
  · dsimp only
    rw [List.getElem?_modify, hinfo, Option.map_eq_map, Option.map_some]
    split
    · exact ⟨_, rfl, hasNorms_update _ hhas⟩
    · exact ⟨info, rfl, hhas⟩

theorem normsOf_cons (perField : NormsWriterPerField) (perFields : List NormsWriterPerField) (k : Nat) :
    normsOf (perField :: perFields) k = (if perField.fieldNumber = k then perField.norms else []) ++ normsOf perFields k := by
  rw [normsOf, List.filter_cons]
  by_cases hk : perField.fieldNumber = k
  · rw [if_pos (decide_eq_true hk), if_pos hk]
    rfl
  · rw [if_neg (by simpa using hk), if_neg hk]
    rfl

theorem normsOf_addNorm (thread fieldNumber docID : Nat) (norm : UInt8) (perFields : List NormsWriterPerField) (k : Nat) :
    (normsOf (addNorm thread fieldNumber docID norm perFields) k).Perm
      (if fieldNumber = k then (docID, norm) :: normsOf perFields k else normsOf perFields k) := by
  induction perFields with
  | nil =>
      rw [addNorm, normsOf_cons]
      split
      · exact List.Perm.refl _
      · exact List.Perm.refl _
  | cons perField perFields ih =>
      rw [addNorm]
      split
      case isTrue hsame =>
        rw [normsOf_cons, normsOf_cons, hsame.2]
        split
        · rw [List.append_assoc]
          exact List.perm_middle
        · exact List.Perm.refl _
      case isFalse =>
        rw [normsOf_cons, normsOf_cons]
        refine (ih.append_left _).trans ?_
        by_cases hk : fieldNumber = k
        · rw [if_pos hk, if_pos hk]
          exact List.perm_middle
        · rw [if_neg hk, if_neg hk]

theorem mem_addNorm {thread fieldNumber docID : Nat} {norm : UInt8} {perFields : List NormsWriterPerField}
    {perField : NormsWriterPerField} (h : perField ∈ addNorm thread fieldNumber docID norm perFields) :
    perField ∈ perFields ∨ perField = { thread, fieldNumber, norms := [(docID, norm)] } ∨
      ∃ old ∈ perFields, old.thread = thread ∧ old.fieldNumber = fieldNumber ∧
        perField = { old with norms := old.norms ++ [(docID, norm)] } := by
  induction perFields with
  | nil =>
      rw [addNorm, List.mem_singleton] at h
      exact Or.inr (Or.inl h)
  | cons first perFields ih =>
      rw [addNorm] at h
      split at h
      case isTrue hsame =>
        rcases List.mem_cons.mp h with rfl | hmem
        · exact Or.inr (Or.inr ⟨first, List.mem_cons_self, hsame.1, hsame.2, rfl⟩)
        · exact Or.inl (List.mem_cons_of_mem _ hmem)
      case isFalse =>
        rcases List.mem_cons.mp h with rfl | hmem
        · exact Or.inl List.mem_cons_self
        · rcases ih hmem with hold | hnew | ⟨old, hold, hsame⟩
          · exact Or.inl (List.mem_cons_of_mem _ hold)
          · exact Or.inr (Or.inl hnew)
          · exact Or.inr (Or.inr ⟨old, List.mem_cons_of_mem _ hold, hsame⟩)

/-- The norms that have been computed are those that the threads have. -/
structure Recorded (start : State) (events : List Event) : Prop where
  sorted : ∀ perField ∈ (run start events).perFields, perField.norms.Pairwise fun entry entry' => entry.1 < entry'.1
  origin : ∀ perField ∈ (run start events).perFields, ∀ entry ∈ perField.norms,
    Computed start events perField.thread perField.fieldNumber entry.1 entry.2
  complete : ∀ thread fieldNumber docID norm, Computed start events thread fieldNumber docID norm →
    (docID, norm) ∈ normsOf (run start events).perFields fieldNumber
  distinct : ∀ fieldNumber, ((normsOf (run start events).perFields fieldNumber).map Prod.fst).Nodup
  hasNorms : ∀ perField ∈ (run start events).perFields, perField.norms ≠ [] →
    ((run start events).fieldInfos.byNumber[perField.fieldNumber]?).any NormsWriter.hasNorms = true

theorem mem_normsOf {perFields : List NormsWriterPerField} {k : Nat} {entry : Nat × UInt8} :
    entry ∈ normsOf perFields k ↔ ∃ perField ∈ perFields, perField.fieldNumber = k ∧ entry ∈ perField.norms := by
  rw [normsOf, List.mem_flatMap]
  refine exists_congr fun perField => ?_
  rw [List.mem_filter, decide_eq_true_iff, and_assoc]

theorem Recorded.of_same {event : Event} (h : Recorded start events)
    (hsame : (run start (events ++ [event])).perFields = (run start events).perFields)
    (hadds : ∀ k : Nat, ((run start events).fieldInfos.byNumber[k]?).any NormsWriter.hasNorms = true →
      ((run start (events ++ [event])).fieldInfos.byNumber[k]?).any NormsWriter.hasNorms = true)
    (hnew : ∀ thread k docID norm, Computed start (events ++ [event]) thread k docID norm →
      Computed start events thread k docID norm) : Recorded start (events ++ [event]) := by
  constructor
  · rw [hsame]
    exact h.sorted
  · rw [hsame]
    exact fun perField hmem entry hentry => computed_concat.mpr (Or.inl (h.origin perField hmem entry hentry))
  · rw [hsame]
    exact fun thread k docID norm hcomputed => h.complete thread k docID norm (hnew thread k docID norm hcomputed)
  · rw [hsame]
    exact h.distinct
  · rw [hsame]
    exact fun perField hmem hnorms => hadds _ (h.hasNorms perField hmem hnorms)

theorem Computed.mem {thread k docID : Nat} {norm : UInt8} (h : Computed start events thread k docID norm) :
    .finish thread k docID norm ∈ events := by
  obtain ⟨before, after, rfl, -⟩ := h
  exact List.mem_append_right _ List.mem_cons_self

theorem Recorded.finish {thread k docID : Nat} {norm : UInt8} (h : Recorded start events)
    (hapart : ∀ event ∈ events, Apart event (.finish thread k docID norm))
    (hhas : ((run start events).fieldInfos.byNumber[k]?).any NormsWriter.hasNorms = true) :
    Recorded start (events ++ [.finish thread k docID norm]) := by
  have hrun : run start (events ++ [.finish thread k docID norm])
      = { run start events with perFields := addNorm thread k docID norm (run start events).perFields } := by
    rw [run_concat, step, NormsWriter.finish, if_pos hhas]
  have hperm := normsOf_addNorm thread k docID norm (run start events).perFields
  have hbefore : ∀ perField ∈ (run start events).perFields, ∀ entry ∈ perField.norms,
      (perField.fieldNumber = k → entry.1 ≠ docID) ∧ (perField.thread = thread → entry.1 ≤ docID) :=
    fun perField hmem entry hentry => hapart _ (h.origin perField hmem entry hentry).mem
  constructor
  · rw [hrun]
    intro perField hmem
    rcases mem_addNorm hmem with hold | rfl | ⟨old, hold, hthread, hfield, rfl⟩
    · exact h.sorted perField hold
    · exact List.pairwise_singleton _ _
    · refine List.pairwise_append.mpr ⟨h.sorted old hold, List.pairwise_singleton _ _, fun entry hentry entry' hentry' => ?_⟩
      rw [List.mem_singleton.mp hentry']
      obtain ⟨hne, hle⟩ := hbefore old hold entry hentry
      exact lt_of_le_of_ne (hle hthread) (hne hfield)
  · rw [hrun]
    intro perField hmem entry hentry
    rcases mem_addNorm hmem with hold | rfl | ⟨old, hold, rfl, rfl, rfl⟩
    · exact computed_concat.mpr (Or.inl (h.origin perField hold entry hentry))
    · rw [List.mem_singleton.mp hentry]
      exact computed_concat.mpr (Or.inr ⟨rfl, hhas⟩)
    · rcases List.mem_append.mp hentry with hentry | hentry
      · exact computed_concat.mpr (Or.inl (h.origin old hold entry hentry))
      · rw [List.mem_singleton.mp hentry]
        exact computed_concat.mpr (Or.inr ⟨rfl, hhas⟩)
  · rw [hrun]
    intro thread' k' docID' norm' hcomputed
    refine (hperm k').mem_iff.mpr ?_
    rcases computed_concat.mp hcomputed with hold | ⟨heq, -⟩
    · split
      · exact List.mem_cons_of_mem _ (h.complete _ _ _ _ hold)
      · exact h.complete _ _ _ _ hold
    · cases heq
      rw [if_pos rfl]
      exact List.mem_cons_self
  · rw [hrun]
    intro k'
    refine ((hperm k').map Prod.fst).nodup_iff.mpr ?_
    split
    case isTrue hk =>
      rw [List.map_cons, List.nodup_cons]
      refine ⟨fun hmem => ?_, h.distinct k'⟩
      obtain ⟨entry, hentry, heq⟩ := List.mem_map.mp hmem
      obtain ⟨perField, hmem', hfield, hentry'⟩ := mem_normsOf.mp hentry
      exact (hbefore perField hmem' entry hentry').1 (hfield.trans hk.symm) heq
    case isFalse => exact h.distinct k'
  · rw [hrun]
    intro perField hmem hnorms
    rcases mem_addNorm hmem with hold | rfl | ⟨old, hold, -, hfield, rfl⟩
    · exact h.hasNorms perField hold hnorms
    · exact hhas
    · rw [hfield]
      exact hhas

/-- Nothing has been collected for the segment. -/
def Fresh (start : State) : Prop := ∀ perField ∈ start.perFields, perField.norms = []

theorem recorded (hstart : Fresh start) (h : events.Pairwise Apart) : Recorded start events := by
  induction events using List.reverseRecOn with
  | nil =>
      have hnone : ∀ perField ∈ (run start []).perFields, perField.norms = [] := hstart
      have hnorms : ∀ k, normsOf (run start []).perFields k = [] := fun k =>
        List.flatMap_eq_nil_iff.mpr fun perField hmem => hnone perField (List.mem_of_mem_filter hmem)
      refine ⟨fun perField hmem => ?_, fun perField hmem entry hentry => ?_, fun _ _ _ _ hcomputed => ?_, fun k => ?_,
        fun perField hmem hne => absurd (hnone perField hmem) hne⟩
      · rw [hnone perField hmem]
        exact List.Pairwise.nil
      · rw [hnone perField hmem] at hentry
        exact absurd hentry List.not_mem_nil
      · exact absurd hcomputed.mem List.not_mem_nil
      · rw [hnorms]
        exact List.nodup_nil
  | append_singleton events event ih =>
      rw [List.pairwise_append] at h
      have hrecorded := ih h.1
      have hapart : ∀ event' ∈ events, Apart event' event := fun event' hmem => h.2.2 event' hmem event List.mem_cons_self
      cases event with
      | add call =>
          refine hrecorded.of_same (by rw [run_concat, step]) (fun k hhas => ?_) fun _ _ _ _ hcomputed => ?_
          · rw [run_concat, step]
            exact any_hasNorms_add call hhas
          · exact (computed_concat.mp hcomputed).resolve_right fun hnew => Event.noConfusion hnew.1
      | finish thread k docID norm =>
          by_cases hhas : ((run start events).fieldInfos.byNumber[k]?).any hasNorms = true
          · exact hrecorded.finish hapart hhas
          · have hrun : run start (events ++ [.finish thread k docID norm]) = run start events := by
              rw [run_concat, step, NormsWriter.finish, if_neg hhas]
            refine hrecorded.of_same (by rw [hrun]) (fun k' hhas' => by rwa [hrun]) fun _ _ _ _ hcomputed => ?_
            refine (computed_concat.mp hcomputed).resolve_right fun ⟨heq, hnew⟩ => ?_
            cases heq
            exact hhas hnew

theorem Recorded.mem_iff (h : Recorded start events) (hperm : perFields.Perm (run start events).perFields)
    {k : Nat} {entry : Nat × UInt8} :
    entry ∈ normsOf perFields k ↔ ∃ thread, Computed start events thread k entry.1 entry.2 := by
  constructor
  · intro hmem
    obtain ⟨perField, hmem', rfl, hentry⟩ := mem_normsOf.mp hmem
    exact ⟨_, h.origin perField (hperm.mem_iff.mp hmem') entry hentry⟩
  · rintro ⟨thread, hcomputed⟩
    obtain ⟨perField, hmem, hfield⟩ := mem_normsOf.mp (h.complete _ _ _ _ hcomputed)
    exact mem_normsOf.mpr ⟨perField, hperm.mem_iff.mpr hmem, hfield⟩

theorem Recorded.collected (h : Recorded start events) (hlegal : Legal numDocs events)
    (hperm : perFields.Perm (run start events).perFields) (k : Nat) : Collected numDocs perFields k where
  sorted perField hmem := h.sorted perField (hperm.mem_iff.mp hmem)
  distinct := by
    have hnorms : (normsOf perFields k).Perm (normsOf (run start events).perFields k) := (hperm.filter _).flatMap_right _
    exact (hnorms.map Prod.fst).nodup_iff.mpr (h.distinct k)
  docID_lt entry hmem := by
    obtain ⟨thread, hcomputed⟩ := (h.mem_iff hperm).mp hmem
    exact hlegal.docID_lt _ _ _ _ hcomputed.mem

theorem Recorded.hasNorms_of_toMerge (h : Recorded start events) (hperm : perFields.Perm (run start events).perFields)
    {k : Nat} {info : FieldNumbering.FieldInfo} (hinfo : (run start events).fieldInfos.byNumber[k]? = some info)
    (hmerge : toMerge perFields k ≠ []) : NormsWriter.hasNorms info = true := by
  obtain ⟨field, hfield⟩ := List.exists_mem_of_ne_nil _ hmerge
  obtain ⟨perField, hmem, hfirst⟩ := List.mem_filterMap.mp hfield
  obtain ⟨hmem', hk⟩ := List.mem_filter.mp hmem
  have hnorms : perField.norms ≠ [] := by
    intro hnil
    rw [hnil] at hfirst
    exact Option.some_ne_none field hfirst.symm
  have hhas := h.hasNorms perField (hperm.mem_iff.mp hmem') hnorms
  rw [of_decide_eq_true hk, hinfo] at hhas
  exact hhas

variable (defaultNorm) in
/-- The file has a block for each field with norms, in the order of their numbers, with a byte for each document: the
norm that has been computed for it, or the default. The reader takes the block of each field as its norms. -/
theorem norms_file_exact (hstart : Fresh start) (hlegal : Legal numDocs events)
    (hperm : perFields.Perm (run start events).perFields) :
    ∃ (norm : Nat → Nat → UInt8) (file : List UInt8),
      (∀ thread k docID value, Computed start events thread k docID value → norm k docID = value) ∧
      (∀ k docID, (∀ thread value, ¬ Computed start events thread k docID value) → norm k docID = defaultNorm) ∧
      flush defaultNorm (run start events).fieldInfos perFields numDocs = some file ∧
      file = NORMS_HEADER ++ (run start events).fieldInfos.byNumber.zipIdx.flatMap (fun field =>
        if hasNorms field.1 then (List.range numDocs).map (norm field.2) else []) ∧
      ∀ (k : Nat) info, (run start events).fieldInfos.byNumber[k]? = some info →
        (hasNorms info = true → ∃ seek,
          (openNorms numDocs NORMS_HEADER.length (run start events).fieldInfos.byNumber)[k]? = some (some seek) ∧
          (file.drop seek).take numDocs = (List.range numDocs).map (norm k)) ∧
        (hasNorms info = false →
          (openNorms numDocs NORMS_HEADER.length (run start events).fieldInfos.byNumber)[k]? = some none) := by
  have hrecorded := recorded hstart hlegal.apart
  have hcollected := hrecorded.collected hlegal hperm
  have hfields := @writeFields_spec defaultNorm numDocs perFields (run start events).fieldInfos.byNumber 0 hcollected
    fun place info hinfo hmerge => by
      rw [Nat.zero_add] at hmerge
      exact hrecorded.hasNorms_of_toMerge hperm hinfo hmerge
  refine ⟨fun k => normOf defaultNorm (normsOf perFields k), _, fun thread k docID value hcomputed => ?_,
    fun k docID hnone => ?_, ?_, rfl, fun k info hinfo => ?_⟩
  · exact normOf_of_mem (hcollected k).distinct ((hrecorded.mem_iff hperm).mpr ⟨thread, hcomputed⟩)
  · refine normOf_of_not_mem fun hmem => ?_
    obtain ⟨entry, hentry, rfl⟩ := List.mem_map.mp hmem
    obtain ⟨thread, hcomputed⟩ := (hrecorded.mem_iff hperm).mp hentry
    exact hnone thread entry.2 hcomputed
  · rw [flush, hfields]
    rfl
  · obtain ⟨hwith, hwithout⟩ := @openNorms_spec defaultNorm numDocs perFields _ 0 _ k info hinfo NORMS_HEADER rfl
    refine ⟨fun hhas => ?_, hwithout⟩
    obtain ⟨seek, hseek, hbytes⟩ := hwith hhas
    refine ⟨seek, hseek, hbytes.trans ?_⟩
    rw [block, if_pos hhas, Nat.zero_add]

def withNorms : Add where
  isIndexed := true
  storeTermVector := false
  storePositionWithTermVector := false
  storeOffsetWithTermVector := false
  omitNorms := false
  storePayloads := false
  omitTermFreqAndPositions := false
  name := []

/-- Two threads have a document each, and the second one is ready first; a third document does not have the field. -/
def twoThreads : List Event := [.add withNorms, .add withNorms, .finish 1 0 1 9, .finish 0 0 0 7]

theorem norms_file_exact_two_threads :
    ∃ file, flush 124 (run { fieldInfos := .new, perFields := [] } twoThreads).fieldInfos
      (run { fieldInfos := .new, perFields := [] } twoThreads).perFields 3 = some file ∧
      file = NORMS_HEADER ++ [7, 9, 124] := by
  have hfresh : Fresh { fieldInfos := .new, perFields := [] } := fun _ hmem => absurd hmem List.not_mem_nil
  have hlegal : Legal 3 twoThreads := by
    constructor
    · intro thread k docID norm hmem
      simp only [twoThreads, List.mem_cons, List.not_mem_nil, reduceCtorEq, Event.finish.injEq, false_or, or_false] at hmem
      omega
    · simp [twoThreads, Apart]
  obtain ⟨norm, file, hnorm, hdefault, hflush, hfile, -⟩ := norms_file_exact 124 hfresh hlegal (List.Perm.refl _)
  refine ⟨file, hflush, ?_⟩
  have hzero : norm 0 0 = 7 := hnorm 0 0 0 7 ⟨[.add withNorms, .add withNorms, .finish 1 0 1 9], [], rfl, by decide⟩
  have hone : norm 0 1 = 9 := hnorm 1 0 1 9 ⟨[.add withNorms, .add withNorms], [.finish 0 0 0 7], rfl, by decide⟩
  have htwo : norm 0 2 = 124 := by
    refine hdefault 0 2 fun thread value hcomputed => ?_
    have hmem := hcomputed.mem
    simp [twoThreads] at hmem
  rw [hfile]
  show NORMS_HEADER ++ [norm 0 0, norm 0 1, norm 0 2] = _
  rw [hzero, hone, htwo]

end NormsWriter
end LucenePlusPlus
