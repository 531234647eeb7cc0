import LucenePlusPlus.StringRoundTrip
import LucenePlusPlus.TermInfosWriter
import LucenePlusPlus.TermVectors

/-!
The cursor over a file of terms. It stands at a term of the file, before the first one, or after the last one, where
it has no term.
-/

namespace LucenePlusPlus

namespace TermInfosReader

inductive Failure where
  /-- `IllegalStateException`: the terms index was not loaded when this reader was created. -/
  | illegalState
  /-- `IllegalArgumentException` -/
  | illegalArgument
  /-- `IOException` -/
  | readPastEOF
  | nullPointer
  /-- A position that an array does not have. -/
  | outOfRange
  deriving DecidableEq

end TermInfosReader

open TermInfosReader (Failure)
open TermVectors (FieldNames)

/-- The term that is kept with it is made of the field and the text, when there is one. -/
structure TermBuffer where
  field : WString
  text : WString
  deriving DecidableEq

namespace TermBuffer

def reset : TermBuffer := ⟨[], []⟩

def set : Option Term → TermBuffer
  | none => .reset
  | some term => ⟨term.field, term.text⟩

/-- The bytes that are kept are those of the text before. -/
def read (fieldInfos : FieldNames) (buffer : TermBuffer) (entry : TermInfosWriter.TermEntry) : TermBuffer where
  field := fieldInfos.fieldName entry.fieldNumber
  text := StringUtils.toUnicode 0 ((StringUtils.toUTF8 0 buffer.text).take entry.start ++ entry.suffix)

def toTerm (buffer : TermBuffer) : Option Term := if buffer.field = [] then none else some ⟨buffer.field, buffer.text⟩

theorem set_toTerm {buffer : TermBuffer} (h : buffer.toTerm ≠ none) : set buffer.toTerm = buffer := by
  rw [toTerm] at h ⊢
  split at h
  · exact absurd rfl h
  · rename_i hne
    rw [if_neg hne]
    rfl

end TermBuffer

/-- A file that has been written by `TermInfosWriter`. -/
structure TermFile where
  fieldInfos : FieldNames
  indexInterval : Nat
  entries : List TermInfosWriter.TermEntry
  isIndex : Bool

/-- `input` counts the terms that have been read or skipped. -/
structure SegmentTermEnum where
  input : Nat
  position : Int
  termBuffer : TermBuffer
  prevBuffer : TermBuffer
  termInfo : TermInfo
  indexPointer : Int
  deriving DecidableEq

namespace SegmentTermEnum

def new : SegmentTermEnum := ⟨0, -1, .reset, .reset, ⟨0, 0, 0, 0⟩, 0⟩

def term (e : SegmentTermEnum) : Option Term := e.termBuffer.toTerm

def prev (e : SegmentTermEnum) : Option Term := e.prevBuffer.toTerm

def seek (e : SegmentTermEnum) (pointer : Nat) (p : Int) (t : Option Term) (ti : TermInfo) : SegmentTermEnum :=
  { e with input := pointer, position := p, termBuffer := .set t, prevBuffer := .reset, termInfo := ti }

/-- What `next` reads when there is a term. -/
def readEntry (f : TermFile) (e : SegmentTermEnum) (entry : TermInfosWriter.TermEntry) : SegmentTermEnum where
  input := e.input + 1
  position := e.position + 1
  prevBuffer := e.termBuffer
  termBuffer := e.termBuffer.read f.fieldInfos entry
  termInfo :=
    { docFreq := entry.docFreq
      freqPointer := e.termInfo.freqPointer + entry.freqDelta
      proxPointer := e.termInfo.proxPointer + entry.proxDelta
      skipOffset :=
        if TermInfosWriter.skipInterval ≤ entry.docFreq then entry.skipOffset.getD e.termInfo.skipOffset
        else e.termInfo.skipOffset }
  indexPointer := if f.isIndex then e.indexPointer + entry.pointerDelta else e.indexPointer

def next (f : TermFile) (e : SegmentTermEnum) : Except Failure (Bool × SegmentTermEnum) :=
  if e.position ≥ (f.entries.length : Int) - 1 then
    .ok (false, { e with position := e.position + 1, prevBuffer := e.termBuffer, termBuffer := .reset })
  else
    match f.entries[e.input]? with
    | none => .error .readPastEOF
    | some entry => .ok (true, e.readEntry f entry)

end SegmentTermEnum

namespace TermInfosWriter

theorem take_sharedPrefix (lastTermBytes termBytes : List UInt8) :
    lastTermBytes.take (sharedPrefix lastTermBytes termBytes) =
      termBytes.take (sharedPrefix lastTermBytes termBytes) := by
  induction lastTermBytes generalizing termBytes with
  | nil =>
      have hzero : sharedPrefix [] termBytes = 0 := by rw [sharedPrefix]; simp
      rw [hzero, List.take_zero, List.take_zero]
  | cons b lastTermBytes ih =>
      cases termBytes with
      | nil => rfl
      | cons b' termBytes =>
          rw [sharedPrefix]
          split
          · rfl
          · rename_i heq
            rw [List.take_succ_cons, List.take_succ_cons, ih, not_not.mp heq]

/-- The bytes that a text has been written as. -/
def Written (termBytes : List UInt8) : Prop := ∃ text, termBytes = StringUtils.toUTF8 0 text

theorem written_first : Written TermRecord.first.termBytes := ⟨[], rfl⟩

theorem Written.read {termBytes : List UInt8} (h : Written termBytes) :
    StringUtils.toUTF8 0 (StringUtils.toUnicode 0 termBytes) = termBytes := by
  obtain ⟨text, rfl⟩ := h
  exact toUTF8_toUnicode_toUTF8 0 0 0 text

end TermInfosWriter

open TermInfosWriter (TermRecord Written entryOf encode)

namespace TermBuffer

def ofRecord (fieldInfos : FieldNames) (r : TermRecord) : TermBuffer :=
  ⟨fieldInfos.fieldName r.fieldNumber, StringUtils.toUnicode 0 r.termBytes⟩

theorem read_entryOf (fieldInfos : FieldNames) {r : TermRecord} (hwritten : Written r.termBytes) (r' : TermRecord) :
    read fieldInfos (ofRecord fieldInfos r) (entryOf r r') = ofRecord fieldInfos r' := by
  rw [read, ofRecord, entryOf, hwritten.read, TermInfosWriter.take_sharedPrefix, List.take_append_drop]
  rfl

end TermBuffer

/-- The file holds these terms. -/
structure TermFile.Holds (f : TermFile) (records : List TermRecord) : Prop where
  entries : f.entries = encode .first records
  written : ∀ r ∈ records, Written r.termBytes

namespace SegmentTermEnum

/-- The cursor has read the first `k` terms, the last of them is `r`; it counts `shift` less. -/
structure StandsAt (f : TermFile) (shift : Int) (k : Nat) (r : TermRecord) (e : SegmentTermEnum) : Prop where
  input : e.input = k
  position : e.position = (k : Int) - 1 - shift
  termBuffer : e.termBuffer = .ofRecord f.fieldInfos r
  docFreq : e.termInfo.docFreq = r.ti.docFreq
  freqPointer : e.termInfo.freqPointer = r.ti.freqPointer
  proxPointer : e.termInfo.proxPointer = r.ti.proxPointer
  indexPointer : f.isIndex = true → e.indexPointer = r.pointer

theorem standsAt_new (f : TermFile) : StandsAt f 0 0 .first new := ⟨rfl, rfl, rfl, rfl, rfl, rfl, fun _ => rfl⟩

variable {f : TermFile} {records : List TermRecord} {shift : Int} {k : Nat} {r : TermRecord} {e : SegmentTermEnum}

theorem next_of_lt (hf : f.Holds records) (hshift : 0 ≤ shift) (he : StandsAt f shift k r e)
    (hr : (TermRecord.first :: records)[k]? = some r) {r' : TermRecord} (hr' : records[k]? = some r') :
    ∃ e', next f e = .ok (true, e') ∧ StandsAt f shift (k + 1) r' e' ∧ e'.prevBuffer = e.termBuffer := by
  have hlt : k < records.length := (List.getElem?_eq_some_iff.mp hr').1
  have hlength : f.entries.length = records.length := by rw [hf.entries, TermInfosWriter.length_encode]
  have hentry : f.entries[e.input]? = some (entryOf r r') := by
    rw [hf.entries, he.input]
    exact TermInfosWriter.getElem?_encode .first hr hr'
  have hwritten : Written r.termBytes := by
    rcases List.mem_cons.mp (List.mem_of_getElem? hr) with rfl | hmem
    · exact TermInfosWriter.written_first
    · exact hf.written r hmem
  have hposition := he.position
  refine ⟨e.readEntry f (entryOf r r'), ?_, ⟨?_, ?_, ?_, rfl, ?_, ?_, ?_⟩, rfl⟩
  · rw [next, if_neg (by omega), hentry]
  · rw [readEntry, he.input]
  · rw [readEntry, he.position]
    push_cast
    ring
  · rw [readEntry, he.termBuffer, TermBuffer.read_entryOf f.fieldInfos hwritten]
  · rw [readEntry, he.freqPointer, entryOf]
    ring
  · rw [readEntry, he.proxPointer, entryOf]
    ring
  · intro hindex
    rw [readEntry, if_pos hindex, he.indexPointer hindex, entryOf]
    ring

/-- After the last term the cursor has none, or there is nothing to read for it. -/
theorem next_of_length_le (hf : f.Holds records) (he : StandsAt f shift k r e) (hle : records.length ≤ k) :
    (∃ e', next f e = .ok (false, e') ∧ e'.term = none) ∨ next f e = .error .readPastEOF := by
  have hlength : f.entries.length = records.length := by rw [hf.entries, TermInfosWriter.length_encode]
  rw [next]
  split
  · exact .inl ⟨_, rfl, rfl⟩
  · refine .inr ?_
    rw [List.getElem?_eq_none (by rw [hlength, he.input]; exact hle)]

theorem standsAt_seek (e : SegmentTermEnum) {ti : TermInfo} (hterm : (TermBuffer.ofRecord f.fieldInfos r).toTerm ≠ none)
    (hti : ti.docFreq = r.ti.docFreq ∧ ti.freqPointer = r.ti.freqPointer ∧ ti.proxPointer = r.ti.proxPointer)
    (hindex : f.isIndex = false) :
    StandsAt f shift k r (e.seek k ((k : Int) - 1 - shift) (TermBuffer.ofRecord f.fieldInfos r).toTerm ti) where
  input := rfl
  position := rfl
  termBuffer := TermBuffer.set_toTerm hterm
  docFreq := hti.1
  freqPointer := hti.2.1
  proxPointer := hti.2.2
  indexPointer := fun h => absurd h (by rw [hindex]; exact Bool.false_ne_true)

end SegmentTermEnum
end LucenePlusPlus
