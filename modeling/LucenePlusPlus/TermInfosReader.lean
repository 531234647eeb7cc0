import LucenePlusPlus.RAMOutputStream
import LucenePlusPlus.SegmentTermEnum

/-!
Looking a term up by the index. Every `indexDivisor`-th entry of the index is kept; the cursor goes to the last of
them that is not after the term, and on from there.
-/

namespace LucenePlusPlus

/-- What is kept of an index entry. -/
structure IndexEntry where
  term : Option Term
  info : TermInfo
  pointer : Int

structure TermInfosReader where
  file : TermFile
  totalIndexInterval : Int
  index : Option (List IndexEntry)

/-- `luceneCompare` -/
def luceneCompare : Option Term → Option Term → Bool
  | _, none => false
  | none, some _ => true
  | some first, some second => decide (first.compareTo second < 0)

namespace TermInfosReader

/-- The inner loop of the constructor. -/
def skip (f : TermFile) : Nat → SegmentTermEnum → Except Failure SegmentTermEnum
  | 0, indexEnum => .ok indexEnum
  | j + 1, indexEnum => do
      let (more, indexEnum) ← indexEnum.next f
      if more then skip f j indexEnum else return indexEnum

/-- The outer one; the arrays have as many places as there are entries to keep. -/
def readIndex (f : TermFile) (indexDivisor : Nat) : Nat → SegmentTermEnum → Except Failure (List IndexEntry)
  | 0, _ => .ok []
  | rounds + 1, indexEnum => do
      let (more, indexEnum) ← indexEnum.next f
      if more then
        let entry : IndexEntry := ⟨indexEnum.term, indexEnum.termInfo, indexEnum.indexPointer⟩
        let indexEnum ← skip f (indexDivisor - 1) indexEnum
        return entry :: (← readIndex f indexDivisor rounds indexEnum)
      else return []

def new (file indexFile : TermFile) (indexDivisor : Int) : Except Failure TermInfosReader :=
  if indexDivisor < 1 ∧ indexDivisor ≠ -1 then .error .illegalArgument
  else if indexDivisor ≠ -1 then do
    let index ← readIndex indexFile indexDivisor.toNat (indexFile.entries.length + 1) .new
    return ⟨file, toInt32 (file.indexInterval * indexDivisor), some index⟩
  else return ⟨file, -1, none⟩

def ensureIndexIsRead (reader : TermInfosReader) : Except Failure (List IndexEntry) :=
  match reader.index with
  | none => .error .illegalState
  | some index => .ok index

/-- `std::upper_bound` in the terms of the index, and the one before. -/
def getIndexOffset (index : List IndexEntry) (term : Term) : Int :=
  (index.takeWhile fun entry => !luceneCompare (some term) entry.term).length - 1

def seekEnum (reader : TermInfosReader) (index : List IndexEntry) (enumerator : SegmentTermEnum)
    (indexOffset : Int) : Except Failure SegmentTermEnum :=
  match if 0 ≤ indexOffset then index[indexOffset.toNat]? else none with
  | none => .error .outOfRange
  | some entry =>
      .ok (enumerator.seek entry.pointer.toNat (indexOffset * reader.totalIndexInterval - 1) entry.term entry.info)

/-- `compareTo`, which needs the other term. -/
def compareTo (term : Term) : Option Term → Except Failure Int
  | none => .error .nullPointer
  | some other => .ok (term.compareTo other)

/-- The loop of `getPosition`. Each round but the last reads a term. -/
def advance (f : TermFile) (term : Term) : Nat → SegmentTermEnum → Except Failure SegmentTermEnum
  | 0, enumerator => .ok enumerator
  | rounds + 1, enumerator => do
      let cmp ← compareTo term enumerator.term
      if cmp > 0 then
        let (more, enumerator) ← enumerator.next f
        if more then advance f term rounds enumerator else return enumerator
      else return enumerator

/-- The enumerator is the one of the thread, and is left where the search ends. -/
def getPosition (reader : TermInfosReader) (enumerator : SegmentTermEnum) (term : Term) :
    Except Failure (Int × SegmentTermEnum) :=
  if reader.file.entries.length = 0 then .ok (-1, enumerator)
  else do
    let index ← reader.ensureIndexIsRead
    let enumerator ← reader.seekEnum index enumerator (getIndexOffset index term)
    let enumerator ← advance reader.file term (reader.file.entries.length + 1) enumerator
    let cmp ← compareTo term enumerator.term
    return (if cmp = 0 then enumerator.position else -1, enumerator)

end TermInfosReader

open TermInfosWriter (TermRecord Written writeAll indexRecords)

def TermInfosWriter.TermRecord.term (fieldInfos : TermVectors.FieldNames) (r : TermRecord) : Term :=
  ⟨fieldInfos.fieldName r.fieldNumber, StringUtils.toUnicode 0 r.termBytes⟩

/-- What is given to `TermInfosWriter::add`, term after term. -/
structure TermDictionary where
  fieldInfos : TermVectors.FieldNames
  indexInterval : Nat
  records : List TermRecord
  indexInterval_pos : 0 < indexInterval
  written : ∀ r ∈ records, Written r.termBytes
  sorted : (records.map (TermRecord.term fieldInfos)).Pairwise (· < ·)

namespace TermDictionary

def file (d : TermDictionary) : TermFile where
  fieldInfos := d.fieldInfos
  indexInterval := d.indexInterval
  entries := (writeAll d.indexInterval d.records).1.output
  isIndex := false

def indexFile (d : TermDictionary) : TermFile where
  fieldInfos := d.fieldInfos
  indexInterval := d.indexInterval
  entries := (writeAll d.indexInterval d.records).2.output
  isIndex := true

def terms (d : TermDictionary) : List Term := d.records.map (TermRecord.term d.fieldInfos)

/-- The ordinal of a term, or `-1`. -/
def ordinal (d : TermDictionary) (t : Term) : Int := if t ∈ d.terms then d.terms.idxOf t else -1

theorem file_holds (d : TermDictionary) : d.file.Holds d.records where
  entries := by
    change (writeAll d.indexInterval d.records).1.output = _
    rw [TermInfosWriter.writeAll_spec d.indexInterval_pos]
  written := d.written

theorem written_before (d : TermDictionary) (k : Nat) : Written (TermInfosWriter.before d.records k).termBytes := by
  change Written ((TermRecord.first :: d.records).getD k .first).termBytes
  rw [List.getD_eq_getElem?_getD]
  cases h : (TermRecord.first :: d.records)[k]? with
  | none => exact TermInfosWriter.written_first
  | some r =>
      rcases List.mem_cons.mp (List.mem_of_getElem? h) with rfl | hmem
      · exact TermInfosWriter.written_first
      · exact d.written r hmem

theorem indexFile_holds (d : TermDictionary) : d.indexFile.Holds (indexRecords d.indexInterval d.records) where
  entries := by
    change (writeAll d.indexInterval d.records).2.output = _
    rw [TermInfosWriter.writeAll_spec d.indexInterval_pos]
  written := by
    intro r hr
    obtain ⟨i, -, rfl⟩ := List.mem_map.mp hr
    exact d.written_before (i * d.indexInterval)

end TermDictionary
end LucenePlusPlus
