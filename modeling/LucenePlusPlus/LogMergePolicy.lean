import LucenePlusPlus.BufferedIndexInput
import LucenePlusPlus.MergeRegistration

/-!
`LogMergePolicy`: which segments are merged. What it reads of the writer and of the segments are functions here, as are the
logarithms of sizes, which may be any numbers. A merge specification that is null is `none`.
-/

namespace LucenePlusPlus.LogMergePolicy
open MergeRegistration (SegmentInfo)

inductive SelectError where
  /-- segments must include at least one segment -/
  | noSegments
  /-- an `int32_t` overflows, or an iterator is outside of the segments -/
  | undefined
  deriving DecidableEq

variable {Dir α : Type}

/-- `OneMerge`, as it is made. -/
structure OneMerge (Dir : Type) extends MergeRegistration.OneMerge Dir where
  useCompoundFile : Bool

/-- `size` is the one of the subclass. -/
structure Policy (Dir α : Type) where
  mergeFactor : Nat
  two_le_mergeFactor : 2 ≤ mergeFactor
  minMergeSize : Int
  maxMergeSize : Int
  maxMergeDocs : Int
  noCFSRatio : α
  calibrateSizeByDeletes : Bool
  useCompoundFile : Bool
  /-- of the writer -/
  directory : Dir
  numDeletedDocs : SegmentInfo Dir → Int
  docCount : SegmentInfo Dir → Int
  hasSeparateNorms : SegmentInfo Dir → Bool
  isCompoundFile : SegmentInfo Dir → Bool
  size : SegmentInfo Dir → Int

/-- `SegmentInfos::range` -/
def range (infos : List (SegmentInfo Dir)) (first last : Int) : Except SelectError (List (SegmentInfo Dir)) :=
  if 0 ≤ first ∧ first ≤ last ∧ last ≤ infos.length then .ok ((infos.drop first.toNat).take (last - first).toNat)
  else .error .undefined

namespace Policy
variable [Field α] [LinearOrder α] (p : Policy Dir α)

def sizeDocs (info : SegmentInfo Dir) : Int :=
  if p.calibrateSizeByDeletes then p.docCount info - p.numDeletedDocs info else p.docCount info

/-- The sizes are added up in an `int64_t`. -/
def sumSize (infos : List (SegmentInfo Dir)) : Int := infos.foldl (fun sum info => toInt64 (sum + p.size info)) 0

def doCFS (infos infosToMerge : List (SegmentInfo Dir)) : Bool :=
  if !p.useCompoundFile then false
  else if p.noCFSRatio = 1 then true
  else (p.sumSize infosToMerge : α) ≤ p.noCFSRatio * (p.sumSize infos : α)

def makeOneMerge (infos infosToMerge : List (SegmentInfo Dir)) : Except SelectError (OneMerge Dir) :=
  if h : infosToMerge = [] then .error .noSegments
  else .ok { segments := infosToMerge, segments_ne := h, useCompoundFile := p.doCFS infos infosToMerge }

def mergeRange (infos : List (SegmentInfo Dir)) (first last : Int) : Except SelectError (OneMerge Dir) := do
  let infosToMerge ← range infos first last
  p.makeOneMerge infos infosToMerge

/-- The loop at segment `i`, of which the segments are left. `firstSegmentWithDeletions` is none where it is -1. -/
def expungeDeletes (infos : List (SegmentInfo Dir)) :
    (i : Nat) → List (SegmentInfo Dir) → (firstSegmentWithDeletions : Option Nat) → Except SelectError (List (OneMerge Dir))
  | i, [], some first => do
      let merge ← p.mergeRange infos first i
      pure [merge]
  | _, [], none => .ok []
  | i, info :: rest, none =>
      if 0 < p.numDeletedDocs info then expungeDeletes infos (i + 1) rest (some i)
      else expungeDeletes infos (i + 1) rest none
  | i, info :: rest, some first =>
      if 0 < p.numDeletedDocs info then
        if i - first = p.mergeFactor then do
          -- We've seen mergeFactor segments in a row with deletions, so force a merge now
          let merge ← p.mergeRange infos first i
          let merges ← expungeDeletes infos (i + 1) rest (some i)
          pure (merge :: merges)
        else expungeDeletes infos (i + 1) rest (some first)
      else do
        -- End of a sequence of segments with deletions
        let merge ← p.mergeRange infos first i
        let merges ← expungeDeletes infos (i + 1) rest none
        pure (merge :: merges)

def findMergesToExpungeDeletes (infos : List (SegmentInfo Dir)) : Except SelectError (List (OneMerge Dir)) :=
  p.expungeDeletes infos 0 infos none

/-- The loop of `isOptimized`: how many segments are to be optimized, and the last of them. -/
def countToOptimize (maxNumSegments : Nat) (segmentsToOptimize : SegmentInfo Dir → Bool) :
    List (SegmentInfo Dir) → Nat → Option (SegmentInfo Dir) → Nat × Option (SegmentInfo Dir)
  | [], numToOptimize, optimizeInfo => (numToOptimize, optimizeInfo)
  | info :: infos, numToOptimize, optimizeInfo =>
      if numToOptimize ≤ maxNumSegments then
        if segmentsToOptimize info then
          countToOptimize maxNumSegments segmentsToOptimize infos (numToOptimize + 1) (some info)
        else countToOptimize maxNumSegments segmentsToOptimize infos numToOptimize optimizeInfo
      else (numToOptimize, optimizeInfo)

variable [DecidableEq Dir]

def isOptimizedInfo (info : SegmentInfo Dir) : Bool :=
  !decide (0 < p.numDeletedDocs info) && !p.hasSeparateNorms info && info.dir = p.directory &&
    (p.isCompoundFile info == p.useCompoundFile || p.noCFSRatio < 1)

def isOptimized (infos : List (SegmentInfo Dir)) (maxNumSegments : Nat) (segmentsToOptimize : SegmentInfo Dir → Bool) :
    Bool :=
  match countToOptimize maxNumSegments segmentsToOptimize infos 0 none with
  | (numToOptimize, optimizeInfo) =>
      numToOptimize ≤ maxNumSegments && (numToOptimize != 1 || optimizeInfo.elim true p.isOptimizedInfo)

end Policy

/-- The segments up to the rightmost one that is to be optimized, of the first `last` segments. -/
def lastToOptimize (segmentsToOptimize : SegmentInfo Dir → Bool) (infos : List (SegmentInfo Dir)) : Nat → Nat
  | 0 => 0
  | last + 1 =>
      if (infos[last]?.map segmentsToOptimize).getD false then last + 1
      else lastToOptimize segmentsToOptimize infos last

namespace Policy
variable [Field α] [LinearOrder α] [DecidableEq Dir] (p : Policy Dir α)

/-- The "full" merges, and how many segments are left. -/
def fullMerges (maxSegmentCount : Nat) (infos : List (SegmentInfo Dir)) (last : Nat) :
    Except SelectError (List (OneMerge Dir) × Nat) :=
  if (p.mergeFactor : Int) ≤ (last : Int) - maxSegmentCount + 1 then do
    let merge ← p.mergeRange infos ((last : Int) - p.mergeFactor) last
    let (merges, left) ← fullMerges maxSegmentCount infos (last - p.mergeFactor)
    pure (merge :: merges, left)
  else .ok ([], last)
termination_by last
decreasing_by
  have hle := p.two_le_mergeFactor
  omega

/-- A round of the loop over the starting points, where `best` are `bestSize` and `bestStart`. -/
def considerStart (infos : List (SegmentInfo Dir)) (finalMergeSize : Nat) (best : Int × Nat) (i : Nat) : Int × Nat :=
  let sumSize := p.sumSize ((infos.drop i).take finalMergeSize)
  let before := (infos[i - 1]?.map p.size).getD 0
  if i = 0 ∨ sumSize < toInt64 (2 * before) ∧ sumSize < best.1 then (sumSize, i) else best

def bestStart (infos : List (SegmentInfo Dir)) (last finalMergeSize : Nat) : Nat :=
  ((List.range (last - finalMergeSize + 1)).foldl (p.considerStart infos finalMergeSize) (0, 0)).2

/-- The final partial merge, if there is one. -/
def partialMerge (maxSegmentCount : Nat) (infos : List (SegmentInfo Dir)) (last : Nat) :
    Except SelectError (List (OneMerge Dir)) :=
  if maxSegmentCount = 1 then
    if 1 < last ∨ !(infos[0]?.elim true p.isOptimizedInfo) then do
      let merge ← p.mergeRange infos 0 last
      pure [merge]
    else .ok []
  else if maxSegmentCount < last then do
    let start := p.bestStart infos last (last - maxSegmentCount + 1)
    let merge ← p.mergeRange infos start ((start : Int) + (last - maxSegmentCount + 1 : Nat))
    pure [merge]
  else .ok []

def findMergesForOptimize (infos : List (SegmentInfo Dir)) (maxSegmentCount : Nat)
    (segmentsToOptimize : SegmentInfo Dir → Bool) : Except SelectError (Option (List (OneMerge Dir))) :=
  if p.isOptimized infos maxSegmentCount segmentsToOptimize then .ok none
  else if lastToOptimize segmentsToOptimize infos infos.length = 0 then .ok none
  else do
    let (merges, last) ← p.fullMerges maxSegmentCount infos (lastToOptimize segmentsToOptimize infos infos.length)
    -- Only if there are no full merges pending do we add a final partial merge
    if merges.isEmpty then do
      let merges ← p.partialMerge maxSegmentCount infos last
      pure (some merges)
    else pure (some merges)

end Policy

section Levels
variable [LinearOrder α]

def maxLevelOf (level : SegmentInfo Dir → α) (info : SegmentInfo Dir) (rest : List (SegmentInfo Dir)) : α :=
  rest.foldl (fun maxLevel info => max maxLevel (level info)) (level info)

/-- `1 + upto`, when the search from `1 + upto` on for the rightmost segment of a level is done. -/
def searchBackwards (level : SegmentInfo Dir → α) (levelBottom : α) (infos : List (SegmentInfo Dir)) (start : Nat) :
    Nat → Nat
  | 0 => 0
  | upto + 1 =>
      if start ≤ upto then
        if (infos[upto]?.map fun info => decide (levelBottom ≤ level info)).getD false then upto + 1
        else searchBackwards level levelBottom infos start upto
      else upto + 1

end Levels

namespace Policy
variable [Field α] [LinearOrder α] (p : Policy Dir α)

/-- The merges of a level, of which the segments from `start` on are left, up to `stop`, which is `1 + upto`. -/
def levelMerges (infos : List (SegmentInfo Dir)) (start stop : Nat) : Except SelectError (List (OneMerge Dir)) :=
  if 0x80000000 ≤ start + p.mergeFactor then .error .undefined
  else if start + p.mergeFactor ≤ stop then
    let anyTooLarge := ((infos.drop start).take p.mergeFactor).any fun info =>
      p.maxMergeSize ≤ p.size info || p.maxMergeDocs ≤ p.sizeDocs info
    if anyTooLarge then levelMerges infos (start + p.mergeFactor) stop
    else do
      let merge ← p.mergeRange infos start ((start : Int) + p.mergeFactor)
      let merges ← levelMerges infos (start + p.mergeFactor) stop
      pure (merge :: merges)
  else .ok []
termination_by stop - start
decreasing_by
  all_goals
    have hle := p.two_le_mergeFactor
    omega

/-- `LEVEL_LOG_SPAN` -/
def levelLogSpan (α : Type) [Field α] : α := 3 / 4

def levelBottomOf (levelFloor maxLevel : α) : α :=
  if maxLevel < levelFloor then -1
  else if maxLevel - levelLogSpan α < levelFloor ∧ levelFloor ≤ maxLevel then levelFloor
  else maxLevel - levelLogSpan α

/-- The loop over the levels, with the segments from `start` on left. None when `fuel` rounds do not suffice. -/
def levelsMerges (level : SegmentInfo Dir → α) (levelFloor : α) (infos : List (SegmentInfo Dir)) :
    Nat → Nat → Option (Except SelectError (List (OneMerge Dir)))
  | 0, _ => none
  | fuel + 1, start =>
      match infos.drop start with
      | [] => some (.ok [])
      | info :: rest =>
          let levelBottom := levelBottomOf levelFloor (maxLevelOf level info rest)
          let stop := searchBackwards level levelBottom infos start infos.length
          match p.levelMerges infos start stop with
          | .error e => some (.error e)
          | .ok merges => (levelsMerges level levelFloor infos fuel stop).map fun rest => do
              let rest ← rest
              pure (merges ++ rest)

/-- `findMerges`, when the segments have these levels. -/
def findMergesAt (level : SegmentInfo Dir → α) (levelFloor : α) (fuel : Nat) (infos : List (SegmentInfo Dir)) :
    Option (Except SelectError (Option (List (OneMerge Dir)))) :=
  (p.levelsMerges level levelFloor infos fuel 0).map fun merges => do
    let merges ← merges
    pure (if merges.isEmpty then none else some merges)

/-- Tiny segments are floored: no segment has a size below 1. -/
def levelOf (log : Int → α) (info : SegmentInfo Dir) : α := log (max (p.size info) 1) / log p.mergeFactor

def levelFloor (log : Int → α) : α := if p.minMergeSize ≤ 0 then 0 else log p.minMergeSize / log p.mergeFactor

def findMerges (log : Int → α) (fuel : Nat) (infos : List (SegmentInfo Dir)) :
    Option (Except SelectError (Option (List (OneMerge Dir)))) :=
  p.findMergesAt (p.levelOf log) (p.levelFloor log) fuel infos

end Policy

end LucenePlusPlus.LogMergePolicy
