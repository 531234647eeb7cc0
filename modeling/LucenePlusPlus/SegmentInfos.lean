import LucenePlusPlus.IndexFileNames

/-!
`SegmentInfos`: the segments of an index, as far as commits and file deletion see them. Of the segments
themselves only the files they consist of are kept.
-/

namespace LucenePlusPlus

/-- `generation` is the one of the next segments file to be written less one, `lastGeneration` the one
last committed or read. `files` lists the files of the segments that lie in the index directory.
`pendingSegnOutput` says whether a segments file has been prepared and not yet finished. -/
structure SegmentInfos where
  generation : Int
  lastGeneration : Int
  files : List String
  pendingSegnOutput : Bool := false
deriving DecidableEq

namespace SegmentInfos
open IndexFileNames

def getCurrentSegmentFileName (infos : SegmentInfos) : String :=
  fileNameFromGeneration segments "" infos.lastGeneration

/-- `files(directory, includeSegmentsFile)`. -/
def allFiles (infos : SegmentInfos) (includeSegmentsFile : Bool) : List String :=
  if includeSegmentsFile then infos.getCurrentSegmentFileName :: infos.files else infos.files

/-- `0` for the name without a generation. -/
def generationFromSegmentsFileName (fileName : String) : Int :=
  if fileName = segments then 0
  else StringUtils.toLong (String.ofList (fileName.toList.drop (segments.toList.length + 1)))

theorem segmentsFileName_eq {gen : Int} (h : 0 < gen) :
    fileNameFromGeneration segments "" gen = segments ++ "_" ++ StringUtils.toBaseString gen.toNat := by
  rw [fileNameFromGeneration, if_neg (by omega), if_neg (by omega), String.append_empty]

theorem generationFromSegmentsFileName_eq {gen : Int} (h : 0 ≤ gen) :
    generationFromSegmentsFileName (fileNameFromGeneration segments "" gen) = gen := by
  rcases h.eq_or_lt with rfl | hpos
  · rfl
  · rw [segmentsFileName_eq hpos, generationFromSegmentsFileName, if_neg]
    · have hdrop : (segments ++ "_" ++ StringUtils.toBaseString gen.toNat).toList.drop
          (segments.toList.length + 1) = (StringUtils.toBaseString gen.toNat).toList := by
        rw [String.toList_append, List.drop_left' (by rfl)]
      rw [hdrop, String.ofList_toList, StringUtils.toLong_toBaseString]
      omega
    · intro heq
      have hlen := congrArg (fun s => s.toList.length) heq
      simp [String.toList_append] at hlen

theorem segmentsFileName_injective {gen gen' : Int} (h : 0 ≤ gen) (h' : 0 ≤ gen')
    (heq : fileNameFromGeneration segments "" gen = fileNameFromGeneration segments "" gen') :
    gen = gen' := by
  rw [← generationFromSegmentsFileName_eq h, heq, generationFromSegmentsFileName_eq h']

theorem dot_notMem_segmentsFileName {gen : Int} (h : 0 ≤ gen) :
    '.' ∉ (fileNameFromGeneration segments "" gen).toList := by
  rcases h.eq_or_lt with rfl | hpos
  · decide
  · rw [segmentsFileName_eq hpos, String.toList_append, String.toList_append, List.mem_append,
      List.mem_append]
    rintro ((hdot | hdot) | hdot)
    · exact absurd hdot (by decide)
    · exact absurd hdot (by decide)
    · rw [StringUtils.toBaseString, String.toList_ofList, List.mem_reverse] at hdot
      exact StringUtils.dot_notMem_digitsOf _ hdot

/-- A segments file is an index file, and it is told from others by how its name starts. -/
theorem accept_segmentsFileName {gen : Int} (h : 0 ≤ gen) :
    IndexFileNameFilter.accept (fileNameFromGeneration segments "" gen) = true ∧
      fileNameFromGeneration segments "" gen ≠ segmentsGen ∧
      startsWith (fileNameFromGeneration segments "" gen) segments = true := by
  have hdot := dot_notMem_segmentsFileName h
  have hstart : startsWith (fileNameFromGeneration segments "" gen) segments = true := by
    rcases h.eq_or_lt with rfl | hpos
    · rfl
    · rw [segmentsFileName_eq hpos, startsWith, List.isPrefixOf_iff_prefix, String.toList_append,
        String.toList_append, List.append_assoc]
      exact List.prefix_append _ _
  refine ⟨?_, fun heq => hdot (by rw [heq]; decide), hstart⟩
  have hnone : IndexFileNameFilter.extensionOf (fileNameFromGeneration segments "" gen) = none := by
    rw [IndexFileNameFilter.extensionOf, if_neg (by rwa [List.mem_reverse])]
  rw [IndexFileNameFilter.accept, hnone, hstart, Bool.or_true]

end SegmentInfos
end LucenePlusPlus
