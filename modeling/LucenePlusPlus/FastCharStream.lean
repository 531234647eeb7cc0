import LucenePlusPlus.ChunkedReader
import LucenePlusPlus.Term

/-!
`FastCharStream`: the characters of a reader through a buffer that has the current token. When more characters are needed,
the token is shifted to the front of the buffer, or the buffer grows.
-/

namespace LucenePlusPlus

inductive StreamError
  /-- read past eof -/
  | pastEOF
  /-- what is read is not in the array -/
  | undefined
deriving DecidableEq

/-- The array is empty as long as there is none. The numbers are those of the source while they are `inRange`. -/
structure FastCharStream where
  buffer : WString
  bufferLength : Nat
  bufferPosition : Nat
  tokenStart : Nat
  bufferStart : Nat
  input : ChunkedReader WChar

namespace FastCharStream
open ChunkedReader (store)

def new (input : ChunkedReader WChar) : FastCharStream :=
  { buffer := [], bufferLength := 0, bufferPosition := 0, tokenStart := 0, bufferStart := 0, input }

def NUL : WChar := ⟨0, WChar.null_mem⟩

/-- The buffer that `refill` reads into. -/
def makeRoom (s : FastCharStream) : WString :=
  if s.tokenStart = 0 then
    -- token won't fit in buffer
    if s.buffer = [] then List.replicate 2048 NUL
    else if s.bufferLength = s.buffer.length then s.buffer ++ List.replicate s.buffer.length NUL
    else s.buffer
  else
    -- shift token to front
    store s.buffer 0 ((s.buffer.drop s.tokenStart).take (s.bufferLength - s.tokenStart))

/-- The stream is changed also when there is nothing more to read. -/
def refill (s : FastCharStream) : Except StreamError Unit × FastCharStream :=
  let newPosition := s.bufferLength - s.tokenStart
  let buffer := s.makeRoom
  let s := { s with
    buffer
    bufferLength := newPosition
    bufferPosition := newPosition
    bufferStart := s.bufferStart + s.tokenStart
    tokenStart := 0 }
  match s.input.read (buffer.length - newPosition) with
  | (none, input) => (.error .pastEOF, { s with input })
  | (some chars, input) =>
      (.ok (), { s with
        buffer := store buffer newPosition chars
        bufferLength := newPosition + chars.length
        input })

/-- The character at the position. -/
def nextChar (s : FastCharStream) : Except StreamError WChar × FastCharStream :=
  match s.buffer[s.bufferPosition]? with
  | some c => (.ok c, { s with bufferPosition := s.bufferPosition + 1 })
  | none => (.error .undefined, s)

def readChar (s : FastCharStream) : Except StreamError WChar × FastCharStream :=
  if s.bufferPosition ≥ s.bufferLength then
    match s.refill with
    | (.ok (), s) => s.nextChar
    | (.error e, s) => (.error e, s)
  else s.nextChar

def beginToken (s : FastCharStream) : Except StreamError WChar × FastCharStream :=
  { s with tokenStart := s.bufferPosition }.readChar

def backup (s : FastCharStream) (amount : Nat) : FastCharStream :=
  { s with bufferPosition := s.bufferPosition - amount }

def getImage (s : FastCharStream) : WString := (s.buffer.drop s.tokenStart).take (s.bufferPosition - s.tokenStart)

def getBeginColumn (s : FastCharStream) : Nat := s.bufferStart + s.tokenStart

def getEndColumn (s : FastCharStream) : Nat := s.bufferStart + s.bufferPosition

def getBeginLine (_ : FastCharStream) : Nat := 1

def getEndLine (_ : FastCharStream) : Nat := 1

inductive Call
  | beginToken
  | readChar
  | backup (amount : Nat)
deriving DecidableEq

/-- What a call leaves, and what it gives or throws when it reads. -/
def call (s : FastCharStream) : Call → Option (Except StreamError WChar) × FastCharStream
  | .beginToken => (some s.beginToken.1, s.beginToken.2)
  | .readChar => (some s.readChar.1, s.readChar.2)
  | .backup amount => (none, s.backup amount)

/-- Where the token begins, and the next character. -/
structure Cursor where
  tokenBegin : Nat
  position : Nat
deriving DecidableEq

namespace Cursor

def readChar (text : WString) (cursor : Cursor) : Except StreamError WChar × Cursor :=
  match text[cursor.position]? with
  | some c => (.ok c, { cursor with position := cursor.position + 1 })
  | none => (.error .pastEOF, cursor)

def call (text : WString) (cursor : Cursor) : Call → Option (Except StreamError WChar) × Cursor
  | .beginToken =>
      let (char, cursor) := readChar text { cursor with tokenBegin := cursor.position }
      (some char, cursor)
  | .readChar =>
      let (char, cursor) := readChar text cursor
      (some char, cursor)
  | .backup amount => (none, { cursor with position := cursor.position - amount })

/-- No more characters are backed up than have been read since the token began. -/
def Legal (text : WString) : Cursor → List Call → Prop
  | _, [] => True
  | cursor, next :: calls =>
      (∀ amount, next = .backup amount → amount ≤ cursor.position - cursor.tokenBegin) ∧
        Legal text (cursor.call text next).2 calls

/-- No token that is read on has 2^30 characters, and no character behind the first 2^31 - 1 is read. -/
def Fits (text : WString) : Cursor → List Call → Prop
  | _, [] => True
  | cursor, next :: calls =>
      (next = .readChar → cursor.position - cursor.tokenBegin < 2 ^ 30) ∧ (cursor.call text next).2.position < 2 ^ 31 ∧
        Fits text (cursor.call text next).2 calls

end Cursor

/-- The size of the buffer and the columns are `int32_t`s. What else is computed is not greater. -/
def inRange (s : FastCharStream) : Bool := s.buffer.length < 2 ^ 31 && s.getEndColumn < 2 ^ 31

/-- The results of the calls, and what is seen of the stream after each of them: the image of the token and its columns.
There is nothing where an `int32_t` overflows. -/
def run (s : FastCharStream) : List Call → Option (List (Option (Except StreamError WChar) × WString × Nat × Nat))
  | [] => some []
  | next :: calls =>
      let (result, s) := s.call next
      if s.inRange then (run s calls).map ((result, s.getImage, s.getBeginColumn, s.getEndColumn) :: ·) else none

/-- What a cursor shows. -/
def Cursor.run (text : WString) (cursor : Cursor) : List Call → List (Option (Except StreamError WChar) × WString × Nat × Nat)
  | [] => []
  | next :: calls =>
      let (result, cursor) := cursor.call text next
      (result, (text.drop cursor.tokenBegin).take (cursor.position - cursor.tokenBegin), cursor.tokenBegin, cursor.position)
        :: Cursor.run text cursor calls

/-! ### The buffer -/

variable {text : WString} {s : FastCharStream}

/-- The buffer has the input from `bufferStart` on, and the reader has what follows. -/
structure Buffers (text : WString) (s : FastCharStream) : Prop where
  holds : text.drop s.bufferStart = s.buffer.take s.bufferLength ++ s.input.rest
  total : text.length = s.bufferStart + s.bufferLength + s.input.rest.length
  tokenStart_le : s.tokenStart ≤ s.bufferPosition
  position_le : s.bufferPosition ≤ s.bufferLength
  length_le : s.bufferLength ≤ s.buffer.length

def cursor (s : FastCharStream) : Cursor := { tokenBegin := s.getBeginColumn, position := s.getEndColumn }

theorem length_token (s : FastCharStream) :
    s.cursor.position - s.cursor.tokenBegin = s.bufferPosition - s.tokenStart := Nat.add_sub_add_left ..

namespace Buffers

theorem new (text : WString) (sizes : Nat → Nat) : Buffers text (new (.ofInput text sizes)) where
  holds := rfl
  total := (Nat.zero_add _).symm
  tokenStart_le := le_rfl
  position_le := le_rfl
  length_le := le_rfl

theorem position_le_length (h : Buffers text s) : s.cursor.position ≤ text.length := by
  have hposition := h.position_le
  have htotal := h.total
  show s.bufferStart + s.bufferPosition ≤ text.length
  omega

theorem drop_text (h : Buffers text s) {place : Nat} (hle : place ≤ s.bufferLength) :
    text.drop (s.bufferStart + place) = (s.buffer.drop place).take (s.bufferLength - place) ++ s.input.rest := by
  have hlength : (s.buffer.take s.bufferLength).length = s.bufferLength := List.length_take_of_le h.length_le
  rw [← List.drop_drop, h.holds, List.drop_append_of_le_length (hlength.symm ▸ hle), List.drop_take]

theorem getImage (h : Buffers text s) :
    s.getImage = (text.drop s.getBeginColumn).take (s.getEndColumn - s.getBeginColumn) := by
  have hlength : s.getEndColumn - s.getBeginColumn = s.bufferPosition - s.tokenStart := length_token s
  have htoken := h.tokenStart_le
  have hposition := h.position_le
  have hbuffer := h.length_le
  have hle : s.bufferPosition - s.tokenStart ≤ ((s.buffer.drop s.tokenStart).take (s.bufferLength - s.tokenStart)).length := by
    rw [List.length_take, List.length_drop]
    omega
  rw [hlength, getBeginColumn, h.drop_text (htoken.trans hposition), List.take_append_of_le_length hle, List.take_take,
    min_eq_left (by omega), FastCharStream.getImage]

theorem makeRoom (h : Buffers text s) :
    s.makeRoom.take (s.bufferLength - s.tokenStart) = (s.buffer.drop s.tokenStart).take (s.bufferLength - s.tokenStart) ∧
      s.bufferLength - s.tokenStart < s.makeRoom.length := by
  have htoken := h.tokenStart_le
  have hposition := h.position_le
  have hbuffer := h.length_le
  rw [FastCharStream.makeRoom]
  by_cases hstart : s.tokenStart = 0
  · rw [if_pos hstart, hstart, Nat.sub_zero, List.drop_zero]
    by_cases hnull : s.buffer = []
    · rw [hnull, List.length_nil, Nat.le_zero] at hbuffer
      rw [if_pos hnull, hbuffer, List.length_replicate]
      exact ⟨rfl, by decide⟩
    · have hpos := List.length_pos_iff.mpr hnull
      rw [if_neg hnull]
      split
      case isTrue hfull =>
        refine ⟨List.take_append_of_le_length hbuffer, ?_⟩
        rw [List.length_append, List.length_replicate]
        omega
      case isFalse hroom => exact ⟨rfl, by omega⟩
  · have hlength : ((s.buffer.drop s.tokenStart).take (s.bufferLength - s.tokenStart)).length
        = s.bufferLength - s.tokenStart := by
      rw [List.length_take, List.length_drop]
      omega
    rw [if_neg hstart, store, List.take_zero, List.nil_append, hlength]
    refine ⟨List.take_left' hlength, ?_⟩
    rw [List.length_append, hlength, List.length_drop]
    omega

/-- What `refill` leaves: the same token, and the next character in the buffer if there is one. -/
theorem refill (h : Buffers text s) (hend : s.bufferPosition = s.bufferLength) :
    Buffers text s.refill.2 ∧ s.refill.2.cursor = s.cursor ∧
      (s.refill.1 = .error .pastEOF ∧ text.length = s.getEndColumn ∨
        s.refill.1 = .ok () ∧ s.refill.2.bufferPosition < s.refill.2.bufferLength) := by
  have htoken := h.tokenStart_le
  have hposition := h.position_le
  have hbuffer := h.length_le
  obtain ⟨htake, hroom⟩ := h.makeRoom
  have hdrop := h.drop_text (htoken.trans hposition)
  have hcolumns : s.bufferStart + s.tokenStart + (s.bufferLength - s.tokenStart) = s.getEndColumn := by
    rw [getEndColumn]
    omega
  rw [FastCharStream.refill]
  dsimp only
  by_cases hnil : s.input.rest = []
  · rw [ChunkedReader.read_of_nil hnil]
    have htotal := h.total
    rw [hnil, List.length_nil, Nat.add_zero] at htotal
    refine ⟨⟨?_, ?_, Nat.zero_le _, le_rfl, hroom.le⟩, ?_, Or.inl ⟨rfl, ?_⟩⟩
    · dsimp only
      rw [htake]
      exact hdrop
    · dsimp only
      rw [hnil, List.length_nil]
      omega
    · rw [cursor, cursor, Cursor.mk.injEq]
      exact ⟨rfl, hcolumns⟩
    · rw [getEndColumn]
      omega
  · obtain ⟨chunk, input, hread, hchunk, hlength, hrest⟩ :=
      ChunkedReader.read_of_ne_nil hnil (Nat.sub_pos_of_lt hroom)
    have hpos := List.length_pos_iff.mpr hchunk
    have htotal := h.total
    rw [hrest, List.length_append] at htotal
    have hfront : (s.makeRoom.take (s.bufferLength - s.tokenStart)).length = s.bufferLength - s.tokenStart :=
      List.length_take_of_le hroom.le
    have hstored : (store s.makeRoom (s.bufferLength - s.tokenStart) chunk).take
        (s.bufferLength - s.tokenStart + chunk.length) = s.makeRoom.take (s.bufferLength - s.tokenStart) ++ chunk := by
      rw [store]
      exact List.take_left' (by rw [List.length_append, hfront])
    rw [hread]
    refine ⟨⟨?_, ?_, Nat.zero_le _, Nat.le_add_right _ _, ?_⟩, ?_, Or.inr ⟨rfl, Nat.lt_add_of_pos_right hpos⟩⟩
    · dsimp only
      rw [hstored, htake, hdrop, hrest, List.append_assoc]
    · dsimp only
      omega
    · dsimp only
      rw [store, List.length_append, List.length_append, hfront, List.length_drop]
      omega
    · rw [cursor, cursor, Cursor.mk.injEq]
      exact ⟨rfl, hcolumns⟩

theorem nextChar (h : Buffers text s) (hlt : s.bufferPosition < s.bufferLength) :
    Buffers text s.nextChar.2 ∧ (s.nextChar.1, s.nextChar.2.cursor) = s.cursor.readChar text := by
  have hbuffer := h.length_le
  have hposition : s.bufferPosition < s.buffer.length := by omega
  have htext : text[s.cursor.position]? = s.buffer[s.bufferPosition]? := by
    have hfirst := congrArg (fun chars => chars[0]?) (h.drop_text hlt.le)
    rw [List.getElem?_drop, List.getElem?_append_left (by rw [List.length_take, List.length_drop]; omega),
      List.getElem?_take_of_lt (by omega), List.getElem?_drop] at hfirst
    exact hfirst
  rw [FastCharStream.nextChar, Cursor.readChar, htext, List.getElem?_eq_getElem hposition]
  exact ⟨⟨h.holds, h.total, h.tokenStart_le.trans (Nat.le_succ _), hlt, hbuffer⟩, rfl⟩

theorem readChar (h : Buffers text s) :
    Buffers text s.readChar.2 ∧ (s.readChar.1, s.readChar.2.cursor) = s.cursor.readChar text := by
  have hposition := h.position_le
  rw [FastCharStream.readChar]
  by_cases hend : s.bufferPosition ≥ s.bufferLength
  · obtain ⟨hbuffers, hcursor, hresult⟩ := h.refill (le_antisymm hposition hend)
    rw [if_pos hend]
    generalize s.refill = filled at hbuffers hcursor hresult
    obtain ⟨result, filled⟩ := filled
    rcases hresult with ⟨rfl, htotal⟩ | ⟨rfl, hlt⟩
    · refine ⟨hbuffers, ?_⟩
      have hnone : text[s.cursor.position]? = none := List.getElem?_eq_none_iff.mpr htotal.le
      rw [Cursor.readChar, hnone]
      exact congrArg (Prod.mk _) hcursor
    · rw [← hcursor]
      exact hbuffers.nextChar hlt
  · rw [if_neg hend]
    exact h.nextChar (by omega)

theorem beginToken (h : Buffers text s) :
    Buffers text s.beginToken.2 ∧
      (s.beginToken.1, s.beginToken.2.cursor) = { s.cursor with tokenBegin := s.cursor.position }.readChar text := by
  have hbegin : Buffers text { s with tokenStart := s.bufferPosition } :=
    ⟨h.holds, h.total, le_rfl, h.position_le, h.length_le⟩
  exact hbegin.readChar

theorem backup (h : Buffers text s) {amount : Nat} (hle : amount ≤ s.cursor.position - s.cursor.tokenBegin) :
    Buffers text (s.backup amount) ∧
      (s.backup amount).cursor = { s.cursor with position := s.cursor.position - amount } := by
  have htoken := h.tokenStart_le
  have hposition := h.position_le
  have hamount : amount ≤ s.bufferPosition - s.tokenStart := length_token s ▸ hle
  refine ⟨⟨h.holds, h.total, ?_, ?_, h.length_le⟩, ?_⟩
  · rw [FastCharStream.backup]
    dsimp only
    omega
  · rw [FastCharStream.backup]
    dsimp only
    omega
  · rw [cursor, cursor, Cursor.mk.injEq]
    refine ⟨rfl, ?_⟩
    rw [getEndColumn, FastCharStream.backup, getEndColumn]
    dsimp only
    omega

theorem call (h : Buffers text s) {next : Call}
    (hlegal : ∀ amount, next = .backup amount → amount ≤ s.cursor.position - s.cursor.tokenBegin) :
    Buffers text (s.call next).2 ∧ ((s.call next).1, (s.call next).2.cursor) = s.cursor.call text next := by
  cases next with
  | beginToken =>
      obtain ⟨hbuffers, hcursor⟩ := h.beginToken
      refine ⟨hbuffers, ?_⟩
      rw [Cursor.call, ← hcursor]
      rfl
  | readChar =>
      obtain ⟨hbuffers, hcursor⟩ := h.readChar
      refine ⟨hbuffers, ?_⟩
      rw [Cursor.call, ← hcursor]
      rfl
  | backup amount =>
      obtain ⟨hbuffers, hcursor⟩ := h.backup (hlegal amount rfl)
      exact ⟨hbuffers, congrArg (Prod.mk none) hcursor⟩

end Buffers

/-- The array has grown by doubling, and not beyond 2^30 characters. -/
def Sized (s : FastCharStream) : Prop := s.buffer = [] ∨ ∃ k ≤ 30, s.buffer.length = 2 ^ k

theorem Sized.length_le (h : Sized s) : s.buffer.length ≤ 2 ^ 30 := by
  rcases h with hnil | ⟨k, hk, hsize⟩
  · rw [hnil]
    exact Nat.zero_le _
  · rw [hsize]
    exact Nat.pow_le_pow_right (by decide) hk

theorem length_refill (h : Buffers text s) : s.refill.2.buffer.length = s.makeRoom.length := by
  have hroom := h.makeRoom.2
  rw [refill]
  dsimp only
  rcases ChunkedReader.read_cases s.input (s.makeRoom.length - (s.bufferLength - s.tokenStart)) with
    hread | ⟨chunk, input, hread, -⟩
  · rw [hread]
  · have hlength := ChunkedReader.length_le_of_read hread
    rw [hread]
    exact ChunkedReader.length_store (by omega)

theorem readChar_buffer (s : FastCharStream) :
    s.readChar.2.buffer = if s.bufferPosition ≥ s.bufferLength then s.refill.2.buffer else s.buffer := by
  have hnext : ∀ s : FastCharStream, s.nextChar.2.buffer = s.buffer := by
    intro s
    rw [nextChar]
    split <;> rfl
  rw [readChar]
  split
  · generalize s.refill = filled
    obtain ⟨_ | _, filled⟩ := filled
    · rfl
    · exact hnext filled
  · exact hnext s

theorem Sized.readChar (hsized : Sized s) (h : Buffers text s) (hshort : s.bufferPosition - s.tokenStart < 2 ^ 30) :
    Sized s.readChar.2 := by
  have hposition := h.position_le
  have hbuffer := h.length_le
  rw [Sized, readChar_buffer]
  split
  case isTrue hend =>
    right
    rw [length_refill h, makeRoom]
    split
    case isTrue hstart =>
      split
      case isTrue => exact ⟨11, by decide, List.length_replicate⟩
      case isFalse hnull =>
        obtain ⟨k, hk, hsize⟩ := hsized.resolve_left hnull
        split
        case isTrue hfull =>
          have hlt : 2 ^ k < 2 ^ 30 := by omega
          refine ⟨k + 1, (Nat.pow_lt_pow_iff_right (by decide)).mp hlt, ?_⟩
          rw [List.length_append, List.length_replicate, hsize, Nat.pow_succ, Nat.mul_two]
        case isFalse => exact ⟨k, hk, hsize⟩
    case isFalse hstart =>
      have hne : s.buffer ≠ [] := by
        rintro hnil
        have htoken := h.tokenStart_le
        rw [hnil, List.length_nil] at hbuffer
        omega
      rw [ChunkedReader.length_store (by rw [List.length_take, List.length_drop]; omega)]
      exact hsized.resolve_left hne
  case isFalse => exact hsized

theorem Sized.readChar_full (hsized : Sized s) (h : Buffers text s) (hlong : 2 ^ 30 ≤ s.bufferPosition - s.tokenStart) :
    s.readChar.2.inRange = false := by
  have hposition := h.position_le
  have hbuffer := h.length_le
  have hsize := hsized.length_le
  have hnull : s.buffer ≠ [] := by
    rintro hnil
    rw [hnil, List.length_nil] at hbuffer
    omega
  have hlength : s.readChar.2.buffer.length = 2 ^ 31 := by
    rw [readChar_buffer, if_pos (by omega), length_refill h, makeRoom, if_pos (by omega), if_neg hnull, if_pos (by omega),
      List.length_append, List.length_replicate]
    omega
  rw [inRange, hlength]
  rfl

theorem inRange_iff (hsized : Sized s) : s.inRange = true ↔ s.cursor.position < 2 ^ 31 := by
  have hsize := hsized.length_le
  rw [inRange, Bool.and_eq_true, decide_eq_true_iff, decide_eq_true_iff]
  exact and_iff_right (by omega)

theorem Sized.call (hsized : Sized s) (h : Buffers text s) {next : Call}
    (hshort : next = .readChar → s.cursor.position - s.cursor.tokenBegin < 2 ^ 30) : Sized (s.call next).2 := by
  cases next with
  | beginToken =>
      have hbegin : Sized { s with tokenStart := s.bufferPosition } := hsized
      exact hbegin.readChar ⟨h.holds, h.total, le_rfl, h.position_le, h.length_le⟩ (by dsimp only; omega)
  | readChar => exact hsized.readChar h (length_token s ▸ hshort rfl)
  | backup amount => exact hsized

theorem run_iff (h : Buffers text s) (hsized : Sized s) {calls : List Call} (hlegal : Cursor.Legal text s.cursor calls) :
    s.run calls = some (s.cursor.run text calls) ↔ Cursor.Fits text s.cursor calls := by
  induction calls generalizing s with
  | nil => exact iff_of_true rfl trivial
  | cons next calls ih =>
      rw [Cursor.Fits, run]
      by_cases hshort : next = .readChar → s.cursor.position - s.cursor.tokenBegin < 2 ^ 30
      · obtain ⟨hbuffers, hcall⟩ := h.call hlegal.1
        have hnext := hsized.call h hshort
        have hcursor : (s.cursor.call text next).2 = (s.call next).2.cursor := (congrArg Prod.snd hcall).symm
        rw [and_iff_right hshort, hcursor, ← inRange_iff hnext, ← ih hbuffers hnext (hcursor ▸ hlegal.2), Cursor.run, ← hcall]
        dsimp only
        split
        case isTrue hrange =>
          rw [and_iff_right hrange, hbuffers.getImage]
          cases run (s.call next).2 calls with
          | none => simp
          | some results =>
              rw [Option.map_some, Option.some.injEq, Option.some.injEq, List.cons.injEq]
              exact and_iff_right rfl
        case isFalse hrange => exact iff_of_false (by simp) fun hfits => hrange hfits.1
      · refine iff_of_false (fun heq => ?_) fun hfits => hshort hfits.1
        push Not at hshort
        obtain ⟨rfl, hlong⟩ := hshort
        have hfull := hsized.readChar_full h (length_token s ▸ hlong)
        rw [call] at heq
        dsimp only at heq
        rw [hfull] at heq
        cases heq

/-- However the reader cuts the input into chunks, the stream is a cursor over it: each read gives the next character, or
an exception at the end of the input and there only, the image is what has been read since the token began, and the columns
are the places in the input. This is so exactly as long as the tokens and the input that is read fit. -/
theorem fast_char_stream_is_cursor (text : WString) (sizes : Nat → Nat) {calls : List Call}
    (hlegal : Cursor.Legal text { tokenBegin := 0, position := 0 } (.beginToken :: calls)) :
    (new (.ofInput text sizes)).run (.beginToken :: calls) =
        some (Cursor.run text { tokenBegin := 0, position := 0 } (.beginToken :: calls)) ↔
      Cursor.Fits text { tokenBegin := 0, position := 0 } (.beginToken :: calls) :=
  run_iff (Buffers.new text sizes) (Or.inl rfl) hlegal

/-- A token that is read in chunks of one character, with a character backed up. -/
theorem fast_char_stream_is_cursor_backup :
    (new (.ofInput [NUL, NUL] fun _ => 0)).run [.beginToken, .readChar, .backup 1, .readChar, .readChar] =
      some [(some (.ok NUL), [NUL], 0, 1), (some (.ok NUL), [NUL, NUL], 0, 2), (none, [NUL], 0, 1),
        (some (.ok NUL), [NUL, NUL], 0, 2), (some (.error .pastEOF), [NUL, NUL], 0, 2)] :=
  (fast_char_stream_is_cursor [NUL, NUL] (fun _ => 0) (by simp [Cursor.Legal, Cursor.call, Cursor.readChar])).mpr
    (by simp [Cursor.Fits, Cursor.call, Cursor.readChar])

namespace Cursor

theorem legal_of_reads {cursor : Cursor} {calls : List Call} (h : ∀ next ∈ calls, ∀ amount, next ≠ .backup amount) :
    Legal text cursor calls := by
  induction calls generalizing cursor with
  | nil => trivial
  | cons next calls ih =>
      exact ⟨fun amount heq => absurd heq (h next List.mem_cons_self amount),
        ih fun next' hmem => h next' (List.mem_cons_of_mem _ hmem)⟩

theorem Fits.reads {cursor : Cursor} {n : Nat} (h : Fits text cursor (List.replicate (n + 1) .readChar))
    (htext : cursor.position + n ≤ text.length) (hle : cursor.tokenBegin ≤ cursor.position) :
    cursor.position - cursor.tokenBegin + n < 2 ^ 30 := by
  induction n generalizing cursor with
  | zero => exact h.1 rfl
  | succ n ih =>
      have hchar : text[cursor.position]? = some text[cursor.position] := List.getElem?_eq_getElem (by omega)
      have hrest := h.2.2
      rw [call, readChar, hchar] at hrest
      have hlt := ih hrest (by dsimp only; omega) (by dsimp only; omega)
      dsimp only at hlt
      omega

end Cursor

theorem long_token_is_not_read_on : ¬ ∀ (text : WString) (sizes : Nat → Nat) (calls : List Call),
    Cursor.Legal text { tokenBegin := 0, position := 0 } (.beginToken :: calls) →
      (new (.ofInput text sizes)).run (.beginToken :: calls) =
        some (Cursor.run text { tokenBegin := 0, position := 0 } (.beginToken :: calls)) := by
  intro h
  have hlength : (List.replicate (2 ^ 30) NUL).length = 2 ^ 30 := List.length_replicate
  generalize List.replicate (2 ^ 30) NUL = text at hlength
  have hlegal : Cursor.Legal text { tokenBegin := 0, position := 0 } (.beginToken :: List.replicate (2 ^ 30 - 1 + 1) .readChar) := by
    refine Cursor.legal_of_reads fun next hmem amount heq => ?_
    subst heq
    rcases List.mem_cons.mp hmem with heq | hreads
    · cases heq
    · cases List.eq_of_mem_replicate hreads
  have hfits : Cursor.Fits text { tokenBegin := 0, position := 0 } _ :=
    (run_iff (Buffers.new text fun _ => 0) (Or.inl rfl) hlegal).mp (h text (fun _ => 0) _ hlegal)
  have hchar : text[0]? = some text[0] := List.getElem?_eq_getElem (by omega)
  have hreads := hfits.2.2
  rw [Cursor.call, Cursor.readChar, hchar] at hreads
  have hlt := Cursor.Fits.reads hreads (by dsimp only; omega) (Nat.zero_le _)
  dsimp only at hlt
  omega

end FastCharStream
end LucenePlusPlus
