import LucenePlusPlus.SegmentReader

/-!
The loops by which `SegmentMerger` copies the documents of a reader that are left. They are the same for stored fields and
for term vectors: raw, in runs of documents one behind the other, or one document at a time.
-/

namespace LucenePlusPlus.SegmentMerger

/-- Maximum number of contiguous documents to bulk-copy when merging stored fields -/
def MAX_RAW_MERGE_DOCS : Nat := 4192

section Loops
variable {W ε : Type} (maxDoc : Nat) (isDeleted : Nat → Bool)

/-- The loop over a run that `numDocs` documents before `j` are in: where the next run may start, and the number of
documents of this one. -/
def rawRun (j numDocs : Nat) : Nat × Nat :=
  if maxDoc ≤ j + 1 then (j + 1, numDocs + 1)
  else if isDeleted (j + 1) then (j + 2, numDocs + 1)
  else if numDocs + 1 < MAX_RAW_MERGE_DOCS then rawRun (j + 1) (numDocs + 1)
  else (j + 1, numDocs + 1)
termination_by maxDoc - j

theorem lt_rawRun (j numDocs : Nat) : j < (rawRun maxDoc isDeleted j numDocs).1 := by
  fun_induction rawRun with
  | case1 => exact Nat.lt_succ_self _
  | case2 => exact Nat.lt_add_of_pos_right (by decide)
  | case3 j numDocs _ _ _ ih => exact (Nat.lt_succ_self j).trans ih
  | case4 => exact Nat.lt_succ_self _

/-- `copyRaw` copies a run that starts at a document and has a number of documents. -/
def copyRawWithDeletions (copyRaw : W → Nat → Nat → Except ε W) (j : Nat) (w : W) (docCount : Nat) :
    Except ε (W × Nat) :=
  if j < maxDoc then
    if isDeleted j then copyRawWithDeletions copyRaw (j + 1) w docCount -- skip deleted docs
    else
      match copyRaw w j (rawRun maxDoc isDeleted j 0).2 with
      | .error e => .error e
      | .ok w =>
          copyRawWithDeletions copyRaw (rawRun maxDoc isDeleted j 0).1 w (docCount + (rawRun maxDoc isDeleted j 0).2)
  else .ok (w, docCount)
termination_by maxDoc - j
decreasing_by
  · omega
  · have hlt := lt_rawRun maxDoc isDeleted j 0
    omega

def copyDocsWithDeletions (copyDoc : W → Nat → Except ε W) : List Nat → W → Nat → Except ε (W × Nat)
  | [], w, docCount => .ok (w, docCount)
  | j :: js, w, docCount =>
      if isDeleted j then copyDocsWithDeletions copyDoc js w docCount -- skip deleted docs
      else
        match copyDoc w j with
        | .error e => .error e
        | .ok w => copyDocsWithDeletions copyDoc js w (docCount + 1)

def copyRawNoDeletions (copyRaw : W → Nat → Nat → Except ε W) (w : W) (docCount : Nat) : Except ε (W × Nat) :=
  if docCount < maxDoc then
    match copyRaw w docCount (min MAX_RAW_MERGE_DOCS (maxDoc - docCount)) with
    | .error e => .error e
    | .ok w => copyRawNoDeletions copyRaw w (docCount + min MAX_RAW_MERGE_DOCS (maxDoc - docCount))
  else .ok (w, docCount)
termination_by maxDoc - docCount
decreasing_by
  rw [MAX_RAW_MERGE_DOCS]
  omega

def copyDocsNoDeletions (copyDoc : W → Nat → Except ε W) : List Nat → W → Nat → Except ε (W × Nat)
  | [], w, docCount => .ok (w, docCount)
  | j :: js, w, docCount =>
      match copyDoc w j with
      | .error e => .error e
      | .ok w => copyDocsNoDeletions copyDoc js w (docCount + 1)

/-- The documents of a reader are copied raw, when there is a way to. -/
def copyDocuments (reader : SegmentReader) (copyRaw : Option (W → Nat → Nat → Except ε W)) (copyDoc : W → Nat → Except ε W)
    (w : W) : Except ε (W × Nat) :=
  match copyRaw with
  | some copyRaw =>
      -- We can bulk-copy because the fieldInfos are "congruent"
      if reader.hasDeletions then copyRawWithDeletions reader.maxDoc reader.isDeleted copyRaw 0 w 0
      else copyRawNoDeletions reader.maxDoc copyRaw w 0
  | none =>
      if reader.hasDeletions then copyDocsWithDeletions reader.isDeleted copyDoc (List.range reader.maxDoc) w 0
      else copyDocsNoDeletions copyDoc (List.range reader.maxDoc) w 0

/-- The documents of the readers, one reader behind the other, and how many documents they are. -/
def mergeDocuments {ρ : Type} (copy : ρ → W → Except ε (W × Nat)) : List ρ → W → Nat → Except ε (W × Nat)
  | [], w, docCount => .ok (w, docCount)
  | reader :: readers, w, docCount =>
      match copy reader w with
      | .error e => .error e
      | .ok (w, count) => mergeDocuments copy readers w (docCount + count)

end Loops

/-- The runs have the documents, each once and in order. A run is not empty, and within the limit. -/
structure Covers (docs : List Nat) (runs : List (Nat × Nat)) : Prop where
  flatMap_eq : (runs.flatMap fun run => List.range' run.1 run.2) = docs
  pos : ∀ run ∈ runs, 0 < run.2
  le_max : ∀ run ∈ runs, run.2 ≤ MAX_RAW_MERGE_DOCS

theorem Covers.nil : Covers [] [] :=
  ⟨rfl, fun _ hmem => absurd hmem List.not_mem_nil, fun _ hmem => absurd hmem List.not_mem_nil⟩

theorem Covers.cons {docs : List Nat} {runs : List (Nat × Nat)} {start count : Nat} (h : Covers docs runs)
    (hpos : 0 < count) (hle : count ≤ MAX_RAW_MERGE_DOCS) :
    Covers (List.range' start count ++ docs) ((start, count) :: runs) where
  flatMap_eq := by rw [List.flatMap_cons, h.flatMap_eq]
  pos := by
    intro r hmem
    rcases List.mem_cons.mp hmem with rfl | hmem
    · exact hpos
    · exact h.pos r hmem
  le_max := by
    intro r hmem
    rcases List.mem_cons.mp hmem with rfl | hmem
    · exact hle
    · exact h.le_max r hmem

section Runs
variable {W ε : Type} {maxDoc : Nat} {isDeleted : Nat → Bool}

/-- The documents from `j` on that are left. -/
def liveFrom (maxDoc : Nat) (isDeleted : Nat → Bool) (j : Nat) : List Nat :=
  (List.range' j (maxDoc - j)).filter fun doc => !isDeleted doc

theorem liveFrom_of_le {j : Nat} (h : maxDoc ≤ j) : liveFrom maxDoc isDeleted j = [] := by
  rw [liveFrom, Nat.sub_eq_zero_of_le h]
  rfl

theorem liveFrom_of_deleted {j : Nat} (hlt : j < maxDoc) (h : isDeleted j = true) :
    liveFrom maxDoc isDeleted j = liveFrom maxDoc isDeleted (j + 1) := by
  rw [liveFrom, show maxDoc - j = maxDoc - (j + 1) + 1 by omega, List.range'_succ, List.filter_cons, h]
  rfl

theorem liveFrom_of_not_deleted {j : Nat} (hlt : j < maxDoc) (h : isDeleted j = false) :
    liveFrom maxDoc isDeleted j = j :: liveFrom maxDoc isDeleted (j + 1) := by
  rw [liveFrom, show maxDoc - j = maxDoc - (j + 1) + 1 by omega, List.range'_succ, List.filter_cons, h]
  rfl

theorem rawRun_spec {j numDocs : Nat} (hlt : j < maxDoc) (hdeleted : isDeleted j = false)
    (hnum : numDocs < MAX_RAW_MERGE_DOCS) :
    ∃ count, 0 < count ∧ (rawRun maxDoc isDeleted j numDocs).2 = numDocs + count ∧
      numDocs + count ≤ MAX_RAW_MERGE_DOCS ∧ liveFrom maxDoc isDeleted j =
        List.range' j count ++ liveFrom maxDoc isDeleted (rawRun maxDoc isDeleted j numDocs).1 := by
  fun_induction rawRun maxDoc isDeleted j numDocs with
  | case1 j numDocs hend =>
      refine ⟨1, by decide, rfl, hnum, ?_⟩
      rw [liveFrom_of_not_deleted hlt hdeleted]
      rfl
  | case2 j numDocs hend hnext =>
      refine ⟨1, by decide, rfl, hnum, ?_⟩
      rw [liveFrom_of_not_deleted hlt hdeleted, liveFrom_of_deleted (by omega) hnext]
      rfl
  | case3 j numDocs hend hnext hmax ih =>
      obtain ⟨count, hpos, hcount, hle, hlive⟩ := ih (by omega) (Bool.eq_false_iff.mpr hnext) hmax
      refine ⟨count + 1, Nat.succ_pos _, by omega, by omega, ?_⟩
      rw [liveFrom_of_not_deleted hlt hdeleted, hlive, List.range'_succ, List.cons_append]
  | case4 j numDocs hend hnext hmax =>
      refine ⟨1, by decide, rfl, hnum, ?_⟩
      rw [liveFrom_of_not_deleted hlt hdeleted]
      rfl

/-- Something is done for all the runs, and their documents are counted. -/
def forRuns (copyRun : W → Nat × Nat → Except ε W) (runs : List (Nat × Nat)) (w : W) (docCount : Nat) :
    Except ε (W × Nat) :=
  match runs.foldlM copyRun w with
  | .error e => .error e
  | .ok w => .ok (w, docCount + (runs.map Prod.snd).sum)

theorem forRuns_cons {copyRun : W → Nat × Nat → Except ε W} (run : Nat × Nat) (runs : List (Nat × Nat)) (w : W)
    (docCount : Nat) :
    forRuns copyRun (run :: runs) w docCount =
      match copyRun w run with
      | .error e => .error e
      | .ok w => forRuns copyRun runs w (docCount + run.2) := by
  rw [forRuns, List.foldlM_cons]
  cases copyRun w run with
  | error e => rfl
  | ok w =>
      rw [List.map_cons, List.sum_cons, ← Nat.add_assoc]
      rfl

theorem copyRawWithDeletions_eq (copyRaw : W → Nat → Nat → Except ε W) (j : Nat) :
    ∃ runs, Covers (liveFrom maxDoc isDeleted j) runs ∧ ∀ w docCount,
      copyRawWithDeletions maxDoc isDeleted copyRaw j w docCount =
        forRuns (fun w run => copyRaw w run.1 run.2) runs w docCount := by
  induction hn : maxDoc - j using Nat.strongRecOn generalizing j with
  | ind n ih =>
      by_cases hlt : j < maxDoc
      · cases hdeleted : isDeleted j with
        | true =>
            obtain ⟨runs, hcovers, heq⟩ := ih (maxDoc - (j + 1)) (by omega) (j + 1) rfl
            refine ⟨runs, liveFrom_of_deleted hlt hdeleted ▸ hcovers, fun w docCount => ?_⟩
            rw [copyRawWithDeletions, if_pos hlt, if_pos hdeleted, heq]
        | false =>
            obtain ⟨count, hpos, hcount, hle, hlive⟩ := @rawRun_spec _ _ j 0 hlt hdeleted (by decide)
            rw [Nat.zero_add] at hcount hle
            have hnext := lt_rawRun maxDoc isDeleted j 0
            obtain ⟨runs, hcovers, heq⟩ := ih _ (by omega) (rawRun maxDoc isDeleted j 0).1 rfl
            refine ⟨(j, count) :: runs, hlive ▸ hcovers.cons hpos hle, fun w docCount => ?_⟩
            rw [copyRawWithDeletions, if_pos hlt, hdeleted, if_neg Bool.false_ne_true, forRuns_cons, hcount]
            cases copyRaw w j count with
            | error e => rfl
            | ok w => exact heq w _
      · refine ⟨[], liveFrom_of_le (Nat.le_of_not_lt hlt) ▸ Covers.nil, fun w docCount => ?_⟩
        rw [copyRawWithDeletions, if_neg hlt]
        rfl

theorem copyRawNoDeletions_eq (copyRaw : W → Nat → Nat → Except ε W) (docCount : Nat) :
    ∃ runs, Covers (List.range' docCount (maxDoc - docCount)) runs ∧ ∀ w,
      copyRawNoDeletions maxDoc copyRaw w docCount = forRuns (fun w run => copyRaw w run.1 run.2) runs w docCount := by
  induction hn : maxDoc - docCount using Nat.strongRecOn generalizing docCount with
  | ind n ih =>
      subst hn
      by_cases hlt : docCount < maxDoc
      · have hlen : 0 < min MAX_RAW_MERGE_DOCS (maxDoc - docCount) := by
          rw [MAX_RAW_MERGE_DOCS]
          omega
        obtain ⟨runs, hcovers, heq⟩ := ih _ (by omega) (docCount + min MAX_RAW_MERGE_DOCS (maxDoc - docCount)) rfl
        refine ⟨(docCount, min MAX_RAW_MERGE_DOCS (maxDoc - docCount)) :: runs, ?_, fun w => ?_⟩
        · have hrange : List.range' docCount (maxDoc - docCount) =
              List.range' docCount (min MAX_RAW_MERGE_DOCS (maxDoc - docCount)) ++
                List.range' (docCount + min MAX_RAW_MERGE_DOCS (maxDoc - docCount))
                  (maxDoc - (docCount + min MAX_RAW_MERGE_DOCS (maxDoc - docCount))) := by
            rw [List.range'_append_1]
            congr 1
            omega
          rw [hrange]
          exact hcovers.cons hlen (Nat.min_le_left _ _)
        · rw [copyRawNoDeletions, if_pos hlt, forRuns_cons]
          cases copyRaw w docCount (min MAX_RAW_MERGE_DOCS (maxDoc - docCount)) with
          | error e => rfl
          | ok w => exact heq w
      · refine ⟨[], ?_, fun w => ?_⟩
        · rw [Nat.sub_eq_zero_of_le (Nat.le_of_not_lt hlt)]
          exact Covers.nil
        · rw [copyRawNoDeletions, if_neg hlt]
          rfl

/-- One document is a run of one. -/
def single (docs : List Nat) : List (Nat × Nat) := docs.map fun doc => (doc, 1)

theorem covers_single (docs : List Nat) : Covers docs (single docs) := by
  induction docs with
  | nil => exact Covers.nil
  | cons doc docs ih => exact ih.cons Nat.one_pos (by decide)

theorem copyDocsNoDeletions_eq (copyDoc : W → Nat → Except ε W) (docs : List Nat) (w : W) (docCount : Nat) :
    copyDocsNoDeletions copyDoc docs w docCount = forRuns (fun w run => copyDoc w run.1) (single docs) w docCount := by
  induction docs generalizing w docCount with
  | nil => rfl
  | cons doc docs ih =>
      rw [copyDocsNoDeletions, single, List.map_cons, forRuns_cons]
      cases copyDoc w doc with
      | error e => rfl
      | ok w => exact ih w (docCount + 1)

theorem copyDocsWithDeletions_eq (copyDoc : W → Nat → Except ε W) (docs : List Nat) (w : W) (docCount : Nat) :
    copyDocsWithDeletions isDeleted copyDoc docs w docCount =
      forRuns (fun w run => copyDoc w run.1) (single (docs.filter fun doc => !isDeleted doc)) w docCount := by
  induction docs generalizing w docCount with
  | nil => rfl
  | cons doc docs ih =>
      rw [copyDocsWithDeletions, List.filter_cons]
      cases hdeleted : isDeleted doc with
      | true => exact ih w docCount
      | false =>
          simp only [Bool.false_eq_true, if_false, Bool.not_false, if_true]
          rw [single, List.map_cons, forRuns_cons]
          cases copyDoc w doc with
          | error e => rfl
          | ok w => exact ih w (docCount + 1)

/-- The documents of a reader that are left. -/
def liveDocs (reader : SegmentReader) : List Nat := (List.range reader.maxDoc).filter fun doc => !reader.isDeleted doc

theorem liveDocs_of_not_hasDeletions {reader : SegmentReader} (h : reader.hasDeletions = false) :
    liveDocs reader = List.range reader.maxDoc := by
  rw [liveDocs, List.filter_eq_self]
  intro doc _
  rw [SegmentReader.hasDeletions, Option.isSome_eq_false_iff, Option.isNone_iff_eq_none] at h
  rw [SegmentReader.isDeleted, h]
  rfl

theorem mem_liveDocs {reader : SegmentReader} {doc : Nat} :
    doc ∈ liveDocs reader ↔ doc < reader.maxDoc ∧ reader.isDeleted doc = false := by
  rw [liveDocs, List.mem_filter, List.mem_range, Bool.not_eq_true']

/-- A run of one way or of the other. -/
def copyRun (copyRaw : Option (W → Nat → Nat → Except ε W)) (copyDoc : W → Nat → Except ε W) (w : W) (run : Nat × Nat) :
    Except ε W :=
  match copyRaw with
  | some copyRaw => copyRaw w run.1 run.2
  | none => copyDoc w run.1

/-- The runs that the documents of a reader are copied in do not depend on what is written. -/
theorem copyDocuments_eq (reader : SegmentReader) (copyRaw : Option (W → Nat → Nat → Except ε W))
    (copyDoc : W → Nat → Except ε W) :
    ∃ runs, Covers (liveDocs reader) runs ∧ (copyRaw = none → runs = single (liveDocs reader)) ∧
      ∀ w, copyDocuments reader copyRaw copyDoc w = forRuns (copyRun copyRaw copyDoc) runs w 0 := by
  have hlive : liveDocs reader = liveFrom reader.maxDoc reader.isDeleted 0 := by
    rw [liveDocs, liveFrom, Nat.sub_zero, List.range_eq_range']
  cases copyRaw with
  | some copyRaw =>
      cases hdeletions : reader.hasDeletions with
      | true =>
          obtain ⟨runs, hcovers, heq⟩ := @copyRawWithDeletions_eq W ε reader.maxDoc reader.isDeleted copyRaw 0
          refine ⟨runs, hlive ▸ hcovers, fun h => (nomatch h), fun w => ?_⟩
          rw [copyDocuments, hdeletions]
          exact heq w 0
      | false =>
          obtain ⟨runs, hcovers, heq⟩ := @copyRawNoDeletions_eq W ε reader.maxDoc copyRaw 0
          rw [Nat.sub_zero, ← List.range_eq_range', ← liveDocs_of_not_hasDeletions hdeletions] at hcovers
          refine ⟨runs, hcovers, fun h => (nomatch h), fun w => ?_⟩
          rw [copyDocuments, hdeletions]
          exact heq w
  | none =>
      refine ⟨single (liveDocs reader), covers_single _, fun _ => rfl, fun w => ?_⟩
      cases hdeletions : reader.hasDeletions with
      | true =>
          rw [copyDocuments, hdeletions]
          exact copyDocsWithDeletions_eq copyDoc _ w 0
      | false =>
          rw [copyDocuments, hdeletions, liveDocs_of_not_hasDeletions hdeletions]
          exact copyDocsNoDeletions_eq copyDoc _ w 0

end Runs

/-! ### The runs of all readers -/

section Jobs
variable {W ε ρ : Type}

/-- A run of one of the readers. -/
structure Job (ρ : Type) where
  reader : ρ
  start : Nat
  count : Nat

/-- The documents of a run, each with its reader. -/
def Job.docs (job : Job ρ) : List (ρ × Nat) := (List.range' job.start job.count).map (job.reader, ·)

variable (segment : ρ → SegmentReader)

/-- The documents of the readers that are left. -/
def mergedDocs (readers : List ρ) : List (ρ × Nat) := readers.flatMap fun reader =>
  (liveDocs (segment reader)).map (reader, ·)

theorem mem_mergedDocs {readers : List ρ} {reader : ρ} {doc : Nat} :
    (reader, doc) ∈ mergedDocs segment readers ↔ reader ∈ readers ∧ doc ∈ liveDocs (segment reader) := by
  rw [mergedDocs, List.mem_flatMap]
  constructor
  · rintro ⟨reader', hreader, hmem⟩
    obtain ⟨doc', hdoc, heq⟩ := List.mem_map.mp hmem
    cases heq
    exact ⟨hreader, hdoc⟩
  · exact fun h => ⟨reader, h.1, List.mem_map_of_mem h.2⟩

/-- The runs have the documents of the readers, each once and in order. -/
structure JobsCover (isRaw : ρ → Bool) (readers : List ρ) (jobs : List (Job ρ)) : Prop where
  flatMap_eq : jobs.flatMap Job.docs = mergedDocs segment readers
  pos : ∀ job ∈ jobs, 0 < job.count
  le_max : ∀ job ∈ jobs, job.count ≤ MAX_RAW_MERGE_DOCS
  single : ∀ job ∈ jobs, isRaw job.reader = false → job.count = 1

variable {segment}

theorem JobsCover.mem_mergedDocs {isRaw : ρ → Bool} {readers : List ρ} {jobs : List (Job ρ)}
    (h : JobsCover segment isRaw readers jobs) {job : Job ρ} (hjob : job ∈ jobs) {doc : Nat} (hle : job.start ≤ doc)
    (hlt : doc < job.start + job.count) : (job.reader, doc) ∈ mergedDocs segment readers := by
  rw [← h.flatMap_eq, List.mem_flatMap]
  exact ⟨job, hjob, List.mem_map_of_mem (List.mem_range'_1.mpr ⟨hle, hlt⟩)⟩

def copyJob (copyRaw : ρ → Option (W → Nat → Nat → Except ε W)) (copyDoc : ρ → W → Nat → Except ε W) (w : W)
    (job : Job ρ) : Except ε W :=
  copyRun (copyRaw job.reader) (copyDoc job.reader) w (job.start, job.count)

theorem mergeDocuments_eq (copyRaw : ρ → Option (W → Nat → Nat → Except ε W)) (copyDoc : ρ → W → Nat → Except ε W)
    (readers : List ρ) :
    ∃ jobs, JobsCover segment (fun reader => (copyRaw reader).isSome) readers jobs ∧ ∀ w docCount,
      mergeDocuments (fun reader => copyDocuments (segment reader) (copyRaw reader) (copyDoc reader)) readers w docCount =
        match jobs.foldlM (copyJob copyRaw copyDoc) w with
        | .error e => .error e
        | .ok w => .ok (w, docCount + (mergedDocs segment readers).length) := by
  induction readers with
  | nil =>
      exact ⟨[], ⟨rfl, fun _ hmem => absurd hmem List.not_mem_nil, fun _ hmem => absurd hmem List.not_mem_nil,
        fun _ hmem => absurd hmem List.not_mem_nil⟩, fun w docCount => rfl⟩
  | cons reader readers ih =>
      obtain ⟨jobs, hjobs, heq⟩ := ih
      obtain ⟨runs, hruns, hsingle, hcopy⟩ := copyDocuments_eq (segment reader) (copyRaw reader) (copyDoc reader)
      have hdocs : (runs.map fun run => (⟨reader, run.1, run.2⟩ : Job ρ)).flatMap Job.docs =
          (liveDocs (segment reader)).map (reader, ·) := by
        rw [List.flatMap_map, ← hruns.flatMap_eq, List.map_flatMap]
        rfl
      have hfold : ∀ w, (runs.map fun run => (⟨reader, run.1, run.2⟩ : Job ρ)).foldlM (copyJob copyRaw copyDoc) w =
          runs.foldlM (copyRun (copyRaw reader) (copyDoc reader)) w := by
        intro w
        rw [List.foldlM_map]
        rfl
      have hcount : (runs.map Prod.snd).sum = (liveDocs (segment reader)).length := by
        rw [← hruns.flatMap_eq, List.length_flatMap]
        congr 1
        apply List.map_congr_left
        exact fun run _ => List.length_range'.symm
      have hlength : (mergedDocs segment (reader :: readers)).length =
          (liveDocs (segment reader)).length + (mergedDocs segment readers).length := by
        rw [mergedDocs, List.flatMap_cons, List.length_append, List.length_map]
        rfl
      have hmem : ∀ job ∈ (runs.map fun run => (⟨reader, run.1, run.2⟩ : Job ρ)) ++ jobs,
          (∃ run ∈ runs, job = ⟨reader, run.1, run.2⟩) ∨ job ∈ jobs := by
        intro job hjob
        rcases List.mem_append.mp hjob with hjob | hjob
        · obtain ⟨run, hrun, rfl⟩ := List.mem_map.mp hjob
          exact Or.inl ⟨run, hrun, rfl⟩
        · exact Or.inr hjob
      refine ⟨(runs.map fun run => ⟨reader, run.1, run.2⟩) ++ jobs, ⟨?_, ?_, ?_, ?_⟩, fun w docCount => ?_⟩
      · rw [List.flatMap_append, hdocs, hjobs.flatMap_eq]
        rfl
      · intro job hjob
        rcases hmem job hjob with ⟨run, hrun, rfl⟩ | hjob
        · exact hruns.pos run hrun
        · exact hjobs.pos job hjob
      · intro job hjob
        rcases hmem job hjob with ⟨run, hrun, rfl⟩ | hjob
        · exact hruns.le_max run hrun
        · exact hjobs.le_max job hjob
      · intro job hjob hraw
        rcases hmem job hjob with ⟨run, hrun, rfl⟩ | hjob
        · rw [hsingle (Option.isSome_eq_false_iff.mp hraw |> Option.isNone_iff_eq_none.mp), single] at hrun
          obtain ⟨doc, -, rfl⟩ := List.mem_map.mp hrun
          rfl
        · exact hjobs.single job hjob hraw
      · rw [mergeDocuments, hcopy, forRuns, List.foldlM_append, hfold]
        cases runs.foldlM (copyRun (copyRaw reader) (copyDoc reader)) w with
        | error e => rfl
        | ok w =>
            simp only [heq]
            rw [hcount, Nat.zero_add, hlength, ← Nat.add_assoc]
            rfl

section Writing
variable {R : Type} {Inv : W → Prop} {extend : W → R → W} {copy : W → Job ρ → Except ε W} {Adds : Job ρ → R → Prop}
  {jobs : List (Job ρ)} (hinv : ∀ w r, Inv w → Inv (extend w r))
include hinv

theorem foldlM_of_ok (h : ∀ job ∈ jobs, ∀ w w', Inv w → copy w job = .ok w' → ∃ r, Adds job r ∧ w' = extend w r)
    {w w' : W} (hw : Inv w) (hok : jobs.foldlM copy w = .ok w') :
    ∃ rs, List.Forall₂ Adds jobs rs ∧ w' = rs.foldl extend w := by
  induction jobs generalizing w with
  | nil => exact ⟨[], List.Forall₂.nil, (Except.ok.inj hok).symm⟩
  | cons job jobs ih =>
      rw [List.foldlM_cons] at hok
      cases hcopy : copy w job with
      | error e =>
          rw [hcopy] at hok
          cases hok
      | ok w₁ =>
          rw [hcopy] at hok
          obtain ⟨r, hadds, rfl⟩ := h job List.mem_cons_self w w₁ hw hcopy
          obtain ⟨rs, hall, rfl⟩ := ih (fun j hmem => h j (List.mem_cons_of_mem _ hmem)) (hinv w r hw) hok
          exact ⟨r :: rs, List.Forall₂.cons hadds hall, rfl⟩

theorem foldlM_ok (h : ∀ job ∈ jobs, ∀ w, Inv w → ∃ r, copy w job = .ok (extend w r)) {w : W} (hw : Inv w) :
    ∃ w', jobs.foldlM copy w = .ok w' := by
  induction jobs generalizing w with
  | nil => exact ⟨w, rfl⟩
  | cons job jobs ih =>
      obtain ⟨r, hcopy⟩ := h job List.mem_cons_self w hw
      obtain ⟨w', hw'⟩ := ih (fun j hmem => h j (List.mem_cons_of_mem _ hmem)) (hinv w r hw)
      exact ⟨w', by rw [List.foldlM_cons, hcopy]; exact hw'⟩

end Writing

theorem ok_of_foldlM {copy : W → Job ρ → Except ε W} {jobs : List (Job ρ)} {w w' : W}
    (h : jobs.foldlM copy w = .ok w') : ∀ job ∈ jobs, ∃ w₁ w₂, copy w₁ job = .ok w₂ := by
  induction jobs generalizing w with
  | nil => exact fun job hmem => absurd hmem List.not_mem_nil
  | cons job jobs ih =>
      rw [List.foldlM_cons] at h
      cases hcopy : copy w job with
      | error e =>
          rw [hcopy] at h
          cases h
      | ok w₁ =>
          rw [hcopy] at h
          intro j hmem
          rcases List.mem_cons.mp hmem with rfl | hmem
          · exact ⟨w, w₁, hcopy⟩
          · exact ih h j hmem

end Jobs
end LucenePlusPlus.SegmentMerger
