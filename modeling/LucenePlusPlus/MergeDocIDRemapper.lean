import LucenePlusPlus.PostingsAppend

/-!
`MergeDocIDRemapper`: the numbers that documents have when a merge is committed, by which the buffered deletes are
remapped. A map of a segment that nothing is deleted of is null; where no segment has a map, there are no maps.
-/

namespace LucenePlusPlus

structure MergeDocIDRemapper where
  /-- used for binary search of mapped docID -/
  starts : List Int
  /-- starts, minus the deletes -/
  newStarts : List Int
  /-- maps docIDs in the merged set -/
  docMaps : List (Option (List Int))
  /-- minimum docID that needs renumbering -/
  minDocID : Int
  /-- 1 + the max docID that needs renumbering -/
  maxDocID : Int
  /-- total # deleted docs that were compacted by this merge -/
  docShift : Int
  deriving DecidableEq

namespace MergeDocIDRemapper
open PostingsMerge (SegmentMergeInfo.getDocMap)

/-- `equals` compares the directory and the name. -/
structure SegmentInfo (Id : Type) where
  id : Id
  docCount : Nat

/-- `SegmentMerger::getDocMaps` -/
def getDocMaps (readers : List SegmentReader) : Option (List (Option (List Int))) :=
  if readers.any SegmentReader.hasDeletions then some (readers.map SegmentMergeInfo.getDocMap) else none

/-- `SegmentMerger::getDelCounts` -/
def getDelCounts (readers : List SegmentReader) : List Int :=
  readers.map fun reader => if reader.hasDeletions then (reader.maxDoc : Int) - reader.numDocs else 0

/-- What `SegmentMerger::merge` returns. -/
def mergedDocCount (readers : List SegmentReader) : Int := (readers.map fun reader => (reader.numDocs : Int)).sum

section Remapper
variable {Id : Type} [DecidableEq Id]

/-- The loop up to the first merged segment: where it starts, and the segments from it on. -/
def locate (firstSegment : SegmentInfo Id) : List (SegmentInfo Id) → Int → Option (Int × List (SegmentInfo Id))
  | [], _ => none
  | info :: infos, minDocID =>
      if info.id = firstSegment.id then some (minDocID, info :: infos)
      else locate firstSegment infos (minDocID + info.docCount)

def startsFrom (start : Int) : List Int → List Int
  | [] => []
  | docCount :: docCounts => start :: startsFrom (start + docCount) docCounts

/-- There is a map, or a null, for each of the merged segments. A segment that is not in the list raises an exception. -/
def new (infos : List (SegmentInfo Id)) (docMaps : List (Option (List Int))) (delCounts : List Int)
    (segments : List (SegmentInfo Id)) (mergedDocCount : Int) : Option MergeDocIDRemapper :=
  match segments.head?.bind fun firstSegment => locate firstSegment infos 0 with
  | none => none
  | some (minDocID, infos) =>
      if infos.length < docMaps.length then none
      else
        let numDocs := ((infos.take docMaps.length).map fun info => (info.docCount : Int)).sum
        some
          { starts := startsFrom minDocID (segments.map fun info => (info.docCount : Int))
            newStarts :=
              startsFrom minDocID (List.zipWith (fun info delCount => (info.docCount : Int) - delCount) segments delCounts)
            docMaps := docMaps
            minDocID := minDocID
            maxDocID := minDocID + numDocs
            docShift := numDocs - mergedDocCount }

end Remapper

/-- `std::upper_bound` -/
def upperBound (starts : List Int) (oldDocID : Int) : Nat := (starts.takeWhile (· ≤ oldDocID)).length

/-- The new number of a document in the merged segments. -/
def remapMerged (starts newStarts : List Int) (docMaps : List (Option (List Int))) (oldDocID : Int) : Int :=
  let docMap := upperBound starts oldDocID - 1
  match docMaps.getD docMap none with
  | some map => newStarts.getD docMap 0 + map.getD (oldDocID - starts.getD docMap 0).toNat 0
  | none => newStarts.getD docMap 0 + oldDocID - starts.getD docMap 0

def remap (mapper : MergeDocIDRemapper) (oldDocID : Int) : Int :=
  if oldDocID < mapper.minDocID then oldDocID -- unaffected by merge
  else if mapper.maxDocID ≤ oldDocID then oldDocID - mapper.docShift -- this doc was "after" the merge, so simple shift
  else remapMerged mapper.starts mapper.newStarts mapper.docMaps oldDocID

/-- `BufferedDeletes`. A number is an `int32_t`, which the remapper may make negative. -/
structure Deletes (Term Query : Type) where
  terms : Term → Option Int
  queries : Query → Option Int
  docIDs : List Int

/-- `BufferedDeletes::remap` -/
def Deletes.remap {Term Query : Type} (deletes : Deletes Term Query) (mapper : MergeDocIDRemapper) :
    Deletes Term Query where
  terms := fun term => (deletes.terms term).map mapper.remap
  queries := fun query => (deletes.queries query).map mapper.remap
  docIDs := deletes.docIDs.map mapper.remap

/-- The part of `DocumentsWriter` that is remapped. -/
structure Writer (Term Query : Type) where
  deletesInRAM : Deletes Term Query
  deletesFlushed : Deletes Term Query
  flushedDocCount : Int

/-- `DocumentsWriter::remapDeletes` -/
def remapDeletes {Id Term Query : Type} [DecidableEq Id] (writer : Writer Term Query) (infos : List (SegmentInfo Id))
    (docMaps : Option (List (Option (List Int)))) (delCounts : List Int) (segments : List (SegmentInfo Id))
    (mergedDocCount : Int) : Option (Writer Term Query) :=
  match docMaps with
  | none => some writer -- the merged segments had no deletes so docIDs did not change
  | some docMaps =>
      (new infos docMaps delCounts segments mergedDocCount).map fun mapper =>
        { deletesInRAM := writer.deletesInRAM.remap mapper
          deletesFlushed := writer.deletesFlushed.remap mapper
          flushedDocCount := writer.flushedDocCount - mapper.docShift }

end MergeDocIDRemapper
end LucenePlusPlus
