import Mathlib.Data.List.GetD
import Mathlib.Tactic
import LucenePlusPlus.Term

/-!
The files of the term dictionary. A term is written as what it adds to the one before, and before every
`indexInterval`-th term the one before it is written to the index too, with the pointer to where that term starts.
Pointers into the file of the terms count its terms.
-/

namespace LucenePlusPlus

structure TermInfo where
  docFreq : Int
  freqPointer : Int
  proxPointer : Int
  skipOffset : Int
  deriving DecidableEq

namespace TermInfosWriter

def skipInterval : Int := 16

/-- A term with what is kept of it; the pointer counts in the index only. -/
structure TermRecord where
  fieldNumber : Int
  termBytes : List UInt8
  ti : TermInfo
  pointer : Int
  deriving DecidableEq

/-- What has been written last at the start. -/
def TermRecord.first : TermRecord := ⟨-1, [], ⟨0, 0, 0, 0⟩, 0⟩

/-- A term in a file. -/
structure TermEntry where
  start : Nat
  suffix : List UInt8
  fieldNumber : Int
  docFreq : Int
  freqDelta : Int
  proxDelta : Int
  skipOffset : Option Int
  pointerDelta : Int
  deriving DecidableEq

/-- The loop of `writeTerm`: the length of the prefix that both have. -/
def sharedPrefix : List UInt8 → List UInt8 → Nat
  | b :: lastTermBytes, b' :: termBytes => if b ≠ b' then 0 else sharedPrefix lastTermBytes termBytes + 1
  | _, _ => 0

/-- `writeTerm` with what `add` writes behind it. -/
def entryOf (last r : TermRecord) : TermEntry where
  start := sharedPrefix last.termBytes r.termBytes
  suffix := r.termBytes.drop (sharedPrefix last.termBytes r.termBytes)
  fieldNumber := r.fieldNumber
  docFreq := r.ti.docFreq
  freqDelta := r.ti.freqPointer - last.ti.freqPointer
  proxDelta := r.ti.proxPointer - last.ti.proxPointer
  skipOffset := if skipInterval ≤ r.ti.docFreq then some r.ti.skipOffset else none
  pointerDelta := r.pointer - last.pointer

/-- A writer of one of the files, with the last term of it. -/
structure Writer where
  output : List TermEntry
  last : TermRecord

def Writer.new : Writer := ⟨[], .first⟩

def Writer.write (w : Writer) (r : TermRecord) : Writer := ⟨w.output ++ [entryOf w.last r], r⟩

/-- `TermInfosWriter::add`, with the writer of the index. -/
def add (indexInterval : Nat) (w : Writer × Writer) (r : TermRecord) : Writer × Writer :=
  let other :=
    if w.1.output.length % indexInterval = 0 then w.2.write { w.1.last with pointer := w.1.output.length } else w.2
  (w.1.write r, other)

/-- Both files, when all terms have been added. -/
def writeAll (indexInterval : Nat) (records : List TermRecord) : Writer × Writer :=
  records.foldl (add indexInterval) (.new, .new)

def encode : TermRecord → List TermRecord → List TermEntry
  | _, [] => []
  | last, r :: records => entryOf last r :: encode r records

/-- The term before ordinal `k`, with the pointer to it. -/
def before (records : List TermRecord) (k : Nat) : TermRecord :=
  { (TermRecord.first :: records).getD k .first with pointer := k }

def indexRecords (indexInterval : Nat) (records : List TermRecord) : List TermRecord :=
  (List.range ((records.length + indexInterval - 1) / indexInterval)).map fun i => before records (i * indexInterval)

theorem encode_append (last : TermRecord) (records : List TermRecord) (r : TermRecord) :
    encode last (records ++ [r]) = encode last records ++ [entryOf (records.getLastD last) r] := by
  induction records generalizing last with
  | nil => rfl
  | cons r' records ih => rw [List.cons_append, encode, ih, encode, List.cons_append, List.getLastD_cons]

theorem length_encode (last : TermRecord) (records : List TermRecord) :
    (encode last records).length = records.length := by
  induction records generalizing last with
  | nil => rfl
  | cons r records ih => rw [encode, List.length_cons, ih, List.length_cons]

theorem getElem?_encode (last : TermRecord) {records : List TermRecord} {k : Nat} {r r' : TermRecord}
    (hlast : (last :: records)[k]? = some r) (h : (last :: records)[k + 1]? = some r') :
    (encode last records)[k]? = some (entryOf r r') := by
  induction records generalizing last k with
  | nil => cases h
  | cons r'' records ih =>
      cases k with
      | zero =>
          cases hlast
          cases h
          rfl
      | succ k => exact ih r'' hlast h

theorem before_append (records : List TermRecord) (r : TermRecord) {k : Nat} (hk : k ≤ records.length) :
    before (records ++ [r]) k = before records k := by
  rw [before, before, ← List.cons_append, List.getD_append _ _ _ _ (by rw [List.length_cons]; omega)]

theorem getD_length_first (records : List TermRecord) (last : TermRecord) :
    (last :: records).getD records.length .first = records.getLastD last := by
  induction records generalizing last with
  | nil => rfl
  | cons r records ih => rw [List.length_cons, List.getD_cons_succ, ih, List.getLastD_cons]

theorem before_length (records : List TermRecord) :
    before records records.length = { records.getLastD .first with pointer := records.length } := by
  rw [before, getD_length_first]

theorem map_before_append {indexInterval : Nat} (hpos : 0 < indexInterval) (records : List TermRecord)
    (r : TermRecord) {m : Nat} (hm : m * indexInterval ≤ records.length + indexInterval - 1) :
    ((List.range m).map fun i => before (records ++ [r]) (i * indexInterval)) =
      (List.range m).map fun i => before records (i * indexInterval) := by
  refine List.map_congr_left fun i hi => before_append records r ?_
  have hlt := List.mem_range.mp hi
  have hle : (i + 1) * indexInterval ≤ m * indexInterval := Nat.mul_le_mul_right _ hlt
  rw [Nat.succ_mul] at hle
  omega

theorem indexRecords_append {indexInterval : Nat} (hpos : 0 < indexInterval) (records : List TermRecord)
    (r : TermRecord) :
    indexRecords indexInterval (records ++ [r]) =
      if records.length % indexInterval = 0 then
        indexRecords indexInterval records ++ [{ records.getLastD .first with pointer := records.length }]
      else indexRecords indexInterval records := by
  have hcount : (records.length + 1 + indexInterval - 1) / indexInterval = records.length / indexInterval + 1 := by
    rw [Nat.add_right_comm, Nat.add_sub_cancel, Nat.add_div_right _ hpos]
  have hdiv := Nat.div_add_mod records.length indexInterval
  have hcomm := Nat.mul_comm indexInterval (records.length / indexInterval)
  rw [indexRecords, List.length_append, List.length_singleton, hcount]
  split
  · rename_i hmod
    have hexact : records.length / indexInterval * indexInterval = records.length := by omega
    have hbefore : (records.length + indexInterval - 1) / indexInterval = records.length / indexInterval := by
      rw [Nat.div_eq_iff hpos]
      omega
    rw [List.range_succ, List.map_append, map_before_append hpos _ _ (by omega), indexRecords, hbefore]
    rw [List.map_singleton, hexact, before_append _ _ le_rfl, before_length]
  · rename_i hmod
    have hlt := Nat.mod_lt records.length hpos
    have hbefore : (records.length + indexInterval - 1) / indexInterval = records.length / indexInterval + 1 := by
      rw [Nat.div_eq_iff hpos, Nat.succ_mul]
      omega
    rw [map_before_append hpos _ _ (by rw [Nat.succ_mul]; omega), indexRecords, hbefore]

theorem writeAll_spec {indexInterval : Nat} (hpos : 0 < indexInterval) (records : List TermRecord) :
    writeAll indexInterval records = (⟨encode .first records, records.getLastD .first⟩,
      ⟨encode .first (indexRecords indexInterval records), (indexRecords indexInterval records).getLastD .first⟩) := by
  induction records using List.reverseRecOn with
  | nil =>
      have hnone : (0 + indexInterval - 1) / indexInterval = 0 := Nat.div_eq_of_lt (by omega)
      rw [indexRecords, List.length_nil, hnone]
      rfl
  | append_singleton records r ih =>
      rw [writeAll, List.foldl_append]
      change add indexInterval (writeAll indexInterval records) r = _
      rw [ih, add, encode_append, List.getLastD_concat, indexRecords_append hpos]
      dsimp only
      rw [length_encode]
      split
      · rw [encode_append, List.getLastD_concat]
        rfl
      · rfl

end TermInfosWriter
end LucenePlusPlus
