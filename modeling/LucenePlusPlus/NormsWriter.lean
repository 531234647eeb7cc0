import LucenePlusPlus.FieldNumbering

/-!
`NormsWriter`: the norms of the documents, which the threads have field by field, are written one field after another,
a byte for each document.
-/

namespace LucenePlusPlus
namespace NormsWriter
open FieldNumbering (Add)

/-- Norms are made and written for a field that is indexed and does not omit them. -/
def hasNorms (info : FieldNumbering.FieldInfo) : Bool := info.isIndexed && !info.omitNorms

/-- The norms that a thread has for a field, with their documents: the places of the arrays up to `upto`. -/
structure NormsWriterPerField where
  thread : Nat
  fieldNumber : Nat
  norms : List (Nat × UInt8)

structure State where
  fieldInfos : FieldNumbering.FieldInfos
  perFields : List NormsWriterPerField

/-- The thread's norms of the field, with one more. -/
def addNorm (thread fieldNumber docID : Nat) (norm : UInt8) : List NormsWriterPerField → List NormsWriterPerField
  | [] => [{ thread, fieldNumber, norms := [(docID, norm)] }]
  | perField :: perFields =>
      if perField.thread = thread ∧ perField.fieldNumber = fieldNumber then
        { perField with norms := perField.norms ++ [(docID, norm)] } :: perFields
      else perField :: addNorm thread fieldNumber docID norm perFields

/-- What the threads do, in the order in which it happens. -/
inductive Event
  /-- A document has a field with these flags. -/
  | add (call : Add)
  /-- `NormsWriterPerField::finish`, with what `computeNorm` gives, encoded. -/
  | finish (thread fieldNumber docID : Nat) (norm : UInt8)

def finish (state : State) (thread fieldNumber docID : Nat) (norm : UInt8) : State :=
  if (state.fieldInfos.byNumber[fieldNumber]?).any hasNorms then
    { state with perFields := addNorm thread fieldNumber docID norm state.perFields }
  else state

def step (state : State) : Event → State
  | .add call => { state with fieldInfos := state.fieldInfos.add call }
  | .finish thread fieldNumber docID norm => finish state thread fieldNumber docID norm

def run (start : State) (events : List Event) : State := events.foldl step start

/-- A thread's norms of a field, from the one that is to be written next on. -/
structure Cursor where
  docID : Nat
  norm : UInt8
  rest : List (Nat × UInt8)

def Cursor.first : List (Nat × UInt8) → Option Cursor
  | [] => none
  | (docID, norm) :: rest => some { docID, norm, rest }

/-- Of those from `j` on and the least before, the least. -/
def findMin : Nat → Nat → Nat → List Cursor → Nat
  | minLoc, _, _, [] => minLoc
  | minLoc, minDocID, j, field :: fields =>
      if field.docID < minDocID then findMin j field.docID (j + 1) fields else findMin minLoc minDocID (j + 1) fields

/-- What has been written to its end is replaced by the last one. -/
def removeAt (fields : List Cursor) (minLoc : Nat) : List Cursor :=
  match fields.getLast? with
  | some last => if minLoc ≠ fields.length - 1 then (fields.set minLoc last).dropLast else fields.dropLast
  | none => []

/-- The fields when the norm of the one at `minLoc` has been written. -/
def advance (fields : List Cursor) (minLoc : Nat) (field : Cursor) : List Cursor :=
  match Cursor.first field.rest with
  | some following => fields.set minLoc following
  | none => removeAt fields minLoc

variable (defaultNorm : UInt8)

/-- The bytes that are written, and where they end. -/
def mergeNorms : Nat → List Cursor → Nat → Option (List UInt8 × Nat)
  | 0, _, _ => none
  | _ + 1, [], upto => some ([], upto)
  | rounds + 1, first :: others, upto =>
      let fields := first :: others
      let minLoc := findMin 0 first.docID 1 others
      let field := fields.getD minLoc first
      -- fill hole
      let hole := List.replicate (field.docID - upto) defaultNorm
      (mergeNorms rounds (advance fields minLoc field) (max upto field.docID + 1)).map fun (bytes, upto) =>
        (hole ++ field.norm :: bytes, upto)

/-- The norms of a field that threads have. -/
def toMerge (perFields : List NormsWriterPerField) (fieldNumber : Nat) : List Cursor :=
  (perFields.filter fun perField => perField.fieldNumber = fieldNumber).filterMap fun perField =>
    Cursor.first perField.norms

/-- More rounds than there are norms. -/
def rounds (perFields : List NormsWriterPerField) : Nat := (perFields.flatMap NormsWriterPerField.norms).length + 1

def writeField (perFields : List NormsWriterPerField) (numDocs : Nat) (fieldNumber : Nat) (info : FieldNumbering.FieldInfo) :
    Option (List UInt8) :=
  let fields := toMerge perFields fieldNumber
  if fields ≠ [] then
    (mergeNorms defaultNorm (rounds perFields) fields 0).map fun (bytes, upto) =>
      -- fill final hole with default norm
      bytes ++ List.replicate (numDocs - upto) defaultNorm
  else if hasNorms info then some (List.replicate numDocs defaultNorm)
  else some []

/-- "NRM" and -1. -/
def NORMS_HEADER : List UInt8 := [78, 82, 77, 255]

def writeFields (perFields : List NormsWriterPerField) (numDocs : Nat) : Nat → List FieldNumbering.FieldInfo → Option (List UInt8)
  | _, [] => some []
  | fieldNumber, info :: infos => do
      let bytes ← writeField defaultNorm perFields numDocs fieldNumber info
      let more ← writeFields perFields numDocs (fieldNumber + 1) infos
      return bytes ++ more

/-- The file. The threads, and the fields of each, come in any order. -/
def flush (fieldInfos : FieldNumbering.FieldInfos) (perFields : List NormsWriterPerField) (numDocs : Nat) : Option (List UInt8) :=
  (writeFields defaultNorm perFields numDocs 0 fieldInfos.byNumber).map (NORMS_HEADER ++ ·)

/-- `SegmentReader::openNorms`, for fields whose norms are in one file: where those of each field begin. -/
def openNorms (maxDoc : Nat) : Nat → List FieldNumbering.FieldInfo → List (Option Nat)
  | _, [] => []
  | nextNormSeek, info :: infos =>
      if hasNorms info then some nextNormSeek :: openNorms maxDoc (nextNormSeek + maxDoc) infos
      else none :: openNorms maxDoc nextNormSeek infos

variable {defaultNorm}

namespace Cursor

def entries (field : Cursor) : List (Nat × UInt8) := (field.docID, field.norm) :: field.rest

theorem first_spec (norms : List (Nat × UInt8)) :
    first norms = none ∧ norms = [] ∨ ∃ field, first norms = some field ∧ field.entries = norms := by
  cases norms with
  | nil => exact Or.inl ⟨rfl, rfl⟩
  | cons entry rest => exact Or.inr ⟨_, rfl, rfl⟩

end Cursor

theorem findMin_spec (fields before : List Cursor) {minLoc minDocID : Nat} {least : Cursor}
    (hmin : before[minLoc]? = some least) (hdoc : least.docID = minDocID)
    (hleast : ∀ field ∈ before, minDocID ≤ field.docID) :
    ∃ field, (before ++ fields)[findMin minLoc minDocID before.length fields]? = some field ∧
      ∀ other ∈ before ++ fields, field.docID ≤ other.docID := by
  induction fields generalizing before minLoc minDocID least with
  | nil =>
      rw [List.append_nil]
      exact ⟨least, hmin, fun other hmem => hdoc ▸ hleast other hmem⟩
  | cons field fields ih =>
      have hsplit : before ++ field :: fields = (before ++ [field]) ++ fields := by
        rw [List.append_assoc]
        rfl
      have hlength : (before ++ [field]).length = before.length + 1 := List.length_append
      rw [hsplit, findMin, ← hlength]
      split
      case isTrue hlt =>
        refine ih (before ++ [field]) List.getElem?_concat_length rfl fun other hmem => ?_
        rcases List.mem_append.mp hmem with hmem | hmem
        · exact hlt.le.trans (hleast other hmem)
        · rw [List.mem_singleton.mp hmem]
      case isFalse hge =>
        have hbefore : minLoc < before.length := (List.getElem?_eq_some_iff.mp hmin).1
        refine @ih (before ++ [field]) minLoc minDocID least ?_ hdoc fun other hmem => ?_
        · rwa [List.getElem?_append_left hbefore]
        · rcases List.mem_append.mp hmem with hmem | hmem
          · exact hleast other hmem
          · rw [List.mem_singleton.mp hmem]
            exact not_lt.mp hge

theorem removeAt_perm (before behind : List Cursor) (field : Cursor) :
    (removeAt (before ++ field :: behind) before.length).Perm (before ++ behind) := by
  rcases List.eq_nil_or_concat behind with rfl | ⟨init, last, rfl⟩
  · rw [removeAt, List.getLast?_concat]
    dsimp only
    rw [if_neg (by simp), List.dropLast_concat, List.append_nil]
  · have hlast : (before ++ field :: init.concat last).getLast? = some last := by
      rw [List.concat_eq_append, ← List.cons_append, ← List.append_assoc, List.getLast?_concat]
    rw [removeAt, hlast]
    dsimp only
    rw [if_pos (by simp), List.set_append_right _ _ le_rfl, Nat.sub_self, List.set_cons_zero, List.concat_eq_append,
      ← List.cons_append, ← List.append_assoc, List.dropLast_concat, ← List.singleton_append]
    exact List.Perm.append_left before List.perm_append_comm

end NormsWriter
end LucenePlusPlus
