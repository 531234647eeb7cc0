import LucenePlusPlus.ChunkedReader
import LucenePlusPlus.RAMOutputStream
import LucenePlusPlus.Term
import Mathlib.Data.List.TakeWhile

/-!
`CharTokenizer`: the tokens are the runs of characters that a tokenizer takes for token characters, read through a buffer.
-/

namespace LucenePlusPlus

/-- What a token leaves in `TermAttribute` and `OffsetAttribute`. -/
structure CharToken where
  term : WString
  startOffset : Int
  endOffset : Int
deriving DecidableEq

/-- A reader that has not been read: its text, the sizes of the chunks, and what it makes of an offset when it is a
`CharStream`. -/
structure TextReader where
  text : WString
  sizes : Nat → Nat
  charStream : Option (Int → Int)

/-- The offset that is meant by `Tokenizer::correctOffset`. A `CharReader` leaves it as it is. -/
def TextReader.correctOffset (input : TextReader) : Int → Int := input.charStream.getD id

/-- `charStream` is what the stream of the constructor makes of an offset. -/
structure CharTokenizer where
  offset : Int
  bufferIndex : Nat
  dataLen : Nat
  ioBuffer : WString
  input : ChunkedReader WChar
  charStream : Int → Int

namespace CharTokenizer
open ChunkedReader (store)

def MAX_WORD_LEN : Nat := 255

def IO_BUFFER_SIZE : Nat := 4096

def new (input : TextReader) : CharTokenizer where
  offset := 0
  bufferIndex := 0
  dataLen := 0
  ioBuffer := List.replicate IO_BUFFER_SIZE ⟨0, WChar.null_mem⟩
  input := .ofInput input.text input.sizes
  charStream := input.correctOffset

/-- The stream of the constructor stays. -/
def reset (s : CharTokenizer) (input : TextReader) : CharTokenizer :=
  { s with bufferIndex := 0, offset := 0, dataLen := 0, input := .ofInput input.text input.sizes }

/-- More characters when all have been looked at; there may be none. -/
def fill (s : CharTokenizer) : Bool × CharTokenizer :=
  if s.bufferIndex ≥ s.dataLen then
    let s := { s with offset := toInt32 (s.offset + s.dataLen) }
    match s.input.read s.ioBuffer.length with
    -- so next offset += dataLen won't decrement offset
    | (none, input) => (false, { s with dataLen := 0, input })
    | (some chars, input) =>
        (true, { s with ioBuffer := store s.ioBuffer 0 chars, dataLen := chars.length, bufferIndex := 0, input })
  else (true, s)

def token (s : CharTokenizer) (start : Int) (term : WString) : CharToken :=
  { term, startOffset := s.charStream start, endOffset := s.charStream (toInt32 (start + term.length)) }

/-- `end`: where the last token is followed by the end of the input. -/
def finalOffset (s : CharTokenizer) : Int := s.charStream s.offset

section Tokens
variable (isTokenChar : WChar → Bool) (normalize : WChar → WChar) (correctOffset : Nat → Int)

/-- The loop of `incrementToken`; `term` has the characters of the token so far. There is no result when the buffer does not
have the character, or when the rounds do not do. -/
def readToken : Nat → CharTokenizer → Int → WString → Option (Option CharToken × CharTokenizer)
  | 0, _, _, _ => none
  | rounds + 1, s, start, term =>
      match s.fill with
      | (false, s) => some (if 0 < term.length then some (s.token start term) else none, s)
      | (true, s) =>
          match s.ioBuffer[s.bufferIndex]? with
          | none => none
          | some c =>
              let s := { s with bufferIndex := s.bufferIndex + 1 }
              if isTokenChar c then
                let start := if term.length = 0 then toInt32 (s.offset + s.bufferIndex - 1) else start
                -- buffer it, normalized
                let term := term ++ [normalize c]
                if term.length = MAX_WORD_LEN then some (some (s.token start term), s)
                else readToken rounds s start term
              else if 0 < term.length then some (some (s.token start term), s)
              else readToken rounds s start term

/-- There are more rounds than characters. -/
def incrementToken (s : CharTokenizer) : Option (Option CharToken × CharTokenizer) :=
  readToken isTokenChar normalize (s.dataLen - s.bufferIndex + s.input.rest.length + 1) s s.bufferIndex []

/-- The token of some characters at a place of the text. -/
def tokenAt (start : Nat) (term : WString) : CharToken :=
  { term, startOffset := correctOffset start, endOffset := correctOffset (start + term.length) }

/-- The longest runs of token characters, with their places. -/
def runs : Nat → WString → List (Nat × WString)
  | _, [] => []
  | pos, c :: text =>
      if isTokenChar c then
        (pos, c :: text.takeWhile isTokenChar) ::
          runs (pos + 1 + (text.takeWhile isTokenChar).length) (text.dropWhile isTokenChar)
      else runs (pos + 1) text
termination_by _ text => text.length
decreasing_by
  · exact Nat.lt_succ_of_le (List.dropWhile_sublist _).length_le
  · exact Nat.lt_succ_self _

/-- A run, split after each 255 characters. -/
def pieces (pos : Nat) (chars : WString) : List (Nat × WString) :=
  if chars.length ≤ MAX_WORD_LEN then [(pos, chars)]
  else (pos, chars.take MAX_WORD_LEN) :: pieces (pos + MAX_WORD_LEN) (chars.drop MAX_WORD_LEN)
termination_by chars.length
decreasing_by
  rename_i hlong
  rw [List.length_drop]
  rw [MAX_WORD_LEN] at hlong ⊢
  omega

def tokensFrom (pos : Nat) (text : WString) : List CharToken :=
  ((runs isTokenChar pos text).flatMap fun (pos, chars) => pieces pos chars).map fun (pos, chars) =>
    tokenAt correctOffset pos (chars.map normalize)

def tokens (text : WString) : List CharToken := tokensFrom isTokenChar normalize correctOffset 0 text

end Tokens

variable {isTokenChar : WChar → Bool} {normalize : WChar → WChar} {correctOffset : Nat → Int} {pos : Nat} {text : WString}

theorem tokensFrom_nil : tokensFrom isTokenChar normalize correctOffset pos [] = [] := by
  rw [tokensFrom, runs]
  rfl

theorem tokensFrom_skip {c : WChar} (h : isTokenChar c = false) :
    tokensFrom isTokenChar normalize correctOffset pos (c :: text)
      = tokensFrom isTokenChar normalize correctOffset (pos + 1) text := by
  rw [tokensFrom, runs, if_neg (Bool.eq_false_iff.mp h)]
  rfl

theorem runs_append {chars rest : WString} (hne : chars ≠ []) (hall : ∀ c ∈ chars, isTokenChar c = true)
    (hrest : rest.takeWhile isTokenChar = []) :
    runs isTokenChar pos (chars ++ rest) = (pos, chars) :: runs isTokenChar (pos + chars.length) rest := by
  obtain ⟨c, chars, rfl⟩ := List.exists_cons_of_ne_nil hne
  have htail : ∀ c ∈ chars, isTokenChar c = true := fun c' hmem => hall c' (List.mem_cons_of_mem _ hmem)
  have htake : (chars ++ rest).takeWhile isTokenChar = chars := by
    rw [List.takeWhile_append_of_pos htail, hrest, List.append_nil]
  have hdrop : (chars ++ rest).dropWhile isTokenChar = rest := by
    have hsplit := List.takeWhile_append_dropWhile (p := isTokenChar) (l := chars ++ rest)
    rw [htake] at hsplit
    exact List.append_cancel_left hsplit
  rw [List.cons_append, runs, if_pos (hall c List.mem_cons_self), htake, hdrop, List.length_cons, Nat.add_right_comm,
    Nat.add_assoc]

theorem tokensFrom_run {count : Nat} (hcount : 0 < count) (hlong : count ≤ MAX_WORD_LEN)
    (hlength : count ≤ (text.takeWhile isTokenChar).length)
    (hwhole : count < MAX_WORD_LEN → count = (text.takeWhile isTokenChar).length) :
    tokensFrom isTokenChar normalize correctOffset pos text
      = tokenAt correctOffset pos ((text.take count).map normalize) ::
        tokensFrom isTokenChar normalize correctOffset (pos + count) (text.drop count) := by
  have hsplit := List.takeWhile_append_dropWhile (p := isTokenChar) (l := text)
  have hall : ∀ c ∈ text.takeWhile isTokenChar, isTokenChar c = true := fun c => List.mem_takeWhile_imp
  have hrest : (text.dropWhile isTokenChar).takeWhile isTokenChar = [] := by
    rw [List.takeWhile_eq_nil_iff]
    intro hpos
    exact fun hhead => absurd hhead (by simpa using List.dropWhile_get_zero_not isTokenChar text hpos)
  generalize text.takeWhile isTokenChar = chars at hsplit hall hlength hwhole
  generalize text.dropWhile isTokenChar = rest at hsplit hrest
  subst hsplit
  have hne : chars ≠ [] := List.length_pos_iff.mp (hcount.trans_le hlength)
  rw [tokensFrom, runs_append hne hall hrest, List.flatMap_cons]
  dsimp only
  rw [pieces]
  rcases hlength.eq_or_lt with rfl | hlt
  · rw [if_pos hlong, List.take_left, List.drop_left]
    rfl
  · have hmax : count = MAX_WORD_LEN := by
      by_contra hne
      exact absurd (hwhole (lt_of_le_of_ne hlong hne)) hlt.ne
    subst hmax
    have htail : ∀ c ∈ chars.drop MAX_WORD_LEN, isTokenChar c = true := fun c hmem => hall c (List.mem_of_mem_drop hmem)
    have hlength' : pos + MAX_WORD_LEN + (chars.drop MAX_WORD_LEN).length = pos + chars.length := by
      rw [List.length_drop]
      omega
    rw [if_neg (not_le.mpr hlt), List.take_append_of_le_length hlength, List.drop_append_of_le_length hlength, tokensFrom,
      runs_append (by rw [ne_eq, List.drop_eq_nil_iff]; omega) htail hrest, hlength']
    rfl

section Scan
variable (isTokenChar normalize correctOffset)

/-- The loop when there is no buffer: the token, and the text behind it with its place. -/
def scan : Nat → Nat → WString → WString → Option CharToken × Nat × WString
  | pos, start, term, [] => (if 0 < term.length then some (tokenAt correctOffset start term) else none, pos, [])
  | pos, start, term, c :: text =>
      if isTokenChar c then
        let start := if term.length = 0 then pos else start
        let term := term ++ [normalize c]
        if term.length = MAX_WORD_LEN then (some (tokenAt correctOffset start term), pos + 1, text)
        else scan (pos + 1) start term text
      else if 0 < term.length then (some (tokenAt correctOffset start term), pos + 1, text)
      else scan (pos + 1) start term text

/-- The tokens when the first one has begun. -/
def tokensWith (pos start : Nat) (term text : WString) : List CharToken :=
  if term.length = 0 then tokensFrom isTokenChar normalize correctOffset pos text
  else
    let count := min (MAX_WORD_LEN - term.length) (text.takeWhile isTokenChar).length
    tokenAt correctOffset start (term ++ (text.take count).map normalize) ::
      tokensFrom isTokenChar normalize correctOffset (pos + count) (text.drop count)

/-- What `scan` finds, and the tokens behind. -/
def found (result : Option CharToken × Nat × WString) : List CharToken :=
  match result.1 with
  | none => []
  | some first => first :: tokensFrom isTokenChar normalize correctOffset result.2.1 result.2.2

end Scan

theorem tokensWith_cons {c : WChar} {start : Nat} {term : WString} (h : isTokenChar c = true)
    (hlength : term.length < MAX_WORD_LEN) :
    tokensWith isTokenChar normalize correctOffset pos start term (c :: text)
      = tokensWith isTokenChar normalize correctOffset (pos + 1) (if term.length = 0 then pos else start)
        (term ++ [normalize c]) text := by
  have hrun : ((c :: text).takeWhile isTokenChar).length = (text.takeWhile isTokenChar).length + 1 := by
    rw [List.takeWhile_cons_of_pos h, List.length_cons]
  have hterm : (term ++ [normalize c]).length = term.length + 1 := by rw [List.length_append, List.length_singleton]
  have hcount : min (MAX_WORD_LEN - term.length) ((text.takeWhile isTokenChar).length + 1)
      = min (MAX_WORD_LEN - (term.length + 1)) (text.takeWhile isTokenChar).length + 1 := by omega
  have hpos : ∀ count, pos + 1 + count = pos + (count + 1) := by omega
  rw [tokensWith, tokensWith, hterm, if_neg (Nat.succ_ne_zero _)]
  dsimp only
  rw [hpos]
  generalize min (MAX_WORD_LEN - (term.length + 1)) (text.takeWhile isTokenChar).length = count at hcount
  split
  case isTrue hnil =>
    rw [hnil, Nat.sub_zero] at hcount
    have hfirst : tokensFrom isTokenChar normalize correctOffset pos (c :: text)
        = tokenAt correctOffset pos (((c :: text).take (count + 1)).map normalize) ::
          tokensFrom isTokenChar normalize correctOffset (pos + (count + 1)) ((c :: text).drop (count + 1)) :=
      tokensFrom_run (Nat.succ_pos _) (by omega) (by omega) (by omega)
    rw [List.length_eq_zero_iff.mp hnil, hfirst]
    rfl
  case isFalse hne =>
    rw [hrun, hcount, List.take_succ_cons, List.drop_succ_cons, List.append_assoc]
    rfl

theorem found_scan {start : Nat} {term : WString} (hlength : term.length < MAX_WORD_LEN) :
    tokensWith isTokenChar normalize correctOffset pos start term text
      = found isTokenChar normalize correctOffset (scan isTokenChar normalize correctOffset pos start term text) := by
  induction text generalizing pos start term with
  | nil =>
      rw [tokensWith, scan, found]
      dsimp only
      by_cases hnil : term.length = 0
      · rw [if_pos hnil, if_neg (by omega), tokensFrom_nil]
      · rw [if_neg hnil, if_pos (by omega), List.takeWhile_nil, List.length_nil, Nat.min_zero, List.take_nil, List.map_nil,
          List.append_nil, tokensFrom_nil, List.drop_nil, tokensFrom_nil]
  | cons c text ih =>
      rw [scan]
      dsimp only
      by_cases hchar : isTokenChar c = true
      · have hterm : (term ++ [normalize c]).length = term.length + 1 := by
          rw [List.length_append, List.length_singleton]
        rw [if_pos hchar, tokensWith_cons hchar hlength, hterm]
        by_cases hfull : term.length + 1 = MAX_WORD_LEN
        · rw [if_pos hfull, tokensWith, hterm, if_neg (Nat.succ_ne_zero _), hfull, Nat.sub_self, Nat.zero_min]
          dsimp only
          rw [List.take_zero, List.map_nil, List.append_nil]
          rfl
        · rw [if_neg hfull]
          exact ih (by rw [hterm]; omega)
      · rw [if_neg hchar, tokensWith]
        by_cases hnil : term.length = 0
        · rw [if_pos hnil, if_neg (by omega), tokensFrom_skip (Bool.eq_false_iff.mpr hchar), ← ih hlength, tokensWith,
            if_pos hnil]
        · rw [if_neg hnil, if_pos (by omega), List.takeWhile_cons_of_neg hchar, List.length_nil, Nat.min_zero]
          dsimp only
          rw [List.take_zero, List.map_nil, List.append_nil, List.drop_zero, Nat.add_zero,
            tokensFrom_skip (Bool.eq_false_iff.mpr hchar)]
          rfl

theorem scan_eq_none {start : Nat} {term : WString}
    (h : (scan isTokenChar normalize correctOffset pos start term text).1 = none) :
    (scan isTokenChar normalize correctOffset pos start term text).2.2 = [] := by
  induction text generalizing pos start term with
  | nil => rfl
  | cons c text ih =>
      rw [scan] at h ⊢
      dsimp only at h ⊢
      split at h
      case isTrue hchar =>
        rw [if_pos hchar]
        split at h
        case isTrue => cases h
        case isFalse hroom =>
          rw [if_neg hroom]
          exact ih h
      case isFalse hchar =>
        rw [if_neg hchar]
        split at h
        case isTrue => cases h
        case isFalse hnil =>
          rw [if_neg hnil]
          exact ih h

/-! ### The buffer -/

/-- What the tokenizer has not looked at. -/
def left (s : CharTokenizer) : WString := (s.ioBuffer.take s.dataLen).drop s.bufferIndex ++ s.input.rest

/-- The tokenizer is at `pos` in a text of `total` characters. -/
structure Reads (correctOffset : Nat → Int) (total : Nat) (s : CharTokenizer) (pos : Nat) (text : WString) : Prop where
  left_eq : s.left = text
  offset_eq : ∃ passed : Nat, s.offset = toInt32 passed ∧ total = passed + s.dataLen + s.input.rest.length
  pos_add : total = pos + text.length
  dataLen_le : s.dataLen ≤ s.ioBuffer.length
  room : 0 < s.ioBuffer.length
  stream : ∀ place : Nat, s.charStream (toInt32 place) = correctOffset place

variable {total : Nat} {s : CharTokenizer}

theorem toInt32_toInt32_add (a b : Nat) : toInt32 (toInt32 a + b) = toInt32 ((a + b : Nat) : Int) := by
  rw [toInt32, toInt32, toInt32]
  omega

namespace Reads

theorem token_eq (h : Reads correctOffset total s pos text) (start : Nat) (term : WString) :
    s.token (toInt32 start) term = tokenAt correctOffset start term := by
  rw [token, tokenAt, toInt32_toInt32_add, h.stream, h.stream]

theorem fill_nil (h : Reads correctOffset total s pos []) :
    s.fill.1 = false ∧ Reads correctOffset total s.fill.2 pos [] ∧ s.fill.2.offset = toInt32 total := by
  obtain ⟨hbuffer, hrest⟩ := List.append_eq_nil_iff.mp h.left_eq
  have hindex : s.bufferIndex ≥ s.dataLen := by
    have hlength := List.drop_eq_nil_iff.mp hbuffer
    rwa [List.length_take_of_le h.dataLen_le] at hlength
  obtain ⟨passed, hoffset, htotal⟩ := h.offset_eq
  rw [hrest, List.length_nil, Nat.add_zero] at htotal
  have hend : toInt32 (s.offset + s.dataLen) = toInt32 total := by rw [hoffset, toInt32_toInt32_add, htotal]
  rw [fill, if_pos hindex]
  dsimp only
  rw [ChunkedReader.read_of_nil hrest]
  refine ⟨rfl, ⟨?_, ⟨total, hend, ?_⟩, h.pos_add, Nat.zero_le _, h.room, h.stream⟩, hend⟩
  · rw [CharTokenizer.left]
    dsimp only
    rw [hrest, List.take_zero, List.drop_nil]
    rfl
  · dsimp only
    rw [hrest]
    rfl

theorem fill_cons {c : WChar} (h : Reads correctOffset total s pos (c :: text)) :
    s.fill.1 = true ∧ Reads correctOffset total s.fill.2 pos (c :: text) ∧ s.fill.2.bufferIndex < s.fill.2.dataLen := by
  rw [fill]
  by_cases hindex : s.bufferIndex ≥ s.dataLen
  · have hbuffer : (s.ioBuffer.take s.dataLen).drop s.bufferIndex = [] := by
      rw [List.drop_eq_nil_iff, List.length_take_of_le h.dataLen_le]
      exact hindex
    have hrest := h.left_eq
    rw [CharTokenizer.left, hbuffer, List.nil_append] at hrest
    obtain ⟨chunk, input, hread, hchunk, hlength, hsplit⟩ :=
      ChunkedReader.read_of_ne_nil (hrest ▸ List.cons_ne_nil c text : s.input.rest ≠ []) h.room
    obtain ⟨passed, hoffset, htotal⟩ := h.offset_eq
    rw [hsplit, List.length_append] at htotal
    have hstored : (store s.ioBuffer 0 chunk).length = s.ioBuffer.length := ChunkedReader.length_store (by omega)
    rw [if_pos hindex]
    dsimp only
    rw [hread]
    refine ⟨rfl, ⟨?_, ⟨passed + s.dataLen, ?_, ?_⟩, h.pos_add, ?_, ?_, h.stream⟩, List.length_pos_iff.mpr hchunk⟩
    · rw [CharTokenizer.left]
      dsimp only
      rw [store, List.take_zero, List.nil_append, List.take_left, List.drop_zero, ← hsplit, hrest]
    · dsimp only
      rw [hoffset, toInt32_toInt32_add]
    · dsimp only
      omega
    · dsimp only
      rw [hstored]
      exact hlength
    · dsimp only
      rw [hstored]
      exact h.room
  · rw [if_neg hindex]
    exact ⟨rfl, h, not_le.mp hindex⟩

theorem next {c : WChar} (h : Reads correctOffset total s pos (c :: text)) (hlt : s.bufferIndex < s.dataLen) :
    s.ioBuffer[s.bufferIndex]? = some c ∧ toInt32 (s.offset + (s.bufferIndex + 1 : Nat) - 1) = toInt32 pos ∧
      Reads correctOffset total { s with bufferIndex := s.bufferIndex + 1 } (pos + 1) text := by
  have hbuffer : s.bufferIndex < (s.ioBuffer.take s.dataLen).length := by
    rw [List.length_take_of_le h.dataLen_le]
    exact hlt
  have hleft := h.left_eq
  rw [CharTokenizer.left, List.drop_eq_getElem_cons hbuffer, List.cons_append, List.cons.injEq, List.getElem_take] at hleft
  obtain ⟨passed, hoffset, htotal⟩ := h.offset_eq
  have hpos := h.pos_add
  have hlength := congrArg List.length hleft.2
  rw [List.length_append, List.length_drop, List.length_take_of_le h.dataLen_le] at hlength
  rw [List.length_cons] at hpos
  refine ⟨?_, ?_, hleft.2, h.offset_eq, by omega, h.dataLen_le, h.room, h.stream⟩
  · rw [List.getElem?_eq_getElem (hlt.trans_le h.dataLen_le), hleft.1]
  · have hplace : pos = passed + s.bufferIndex := by omega
    rw [hoffset, Nat.cast_succ, ← add_assoc, add_sub_cancel_right, toInt32_toInt32_add, hplace]

theorem readToken {rounds start : Nat} {place : Int} {term : WString} (h : Reads correctOffset total s pos text)
    (hrounds : text.length < rounds) (hstart : 0 < term.length → place = toInt32 start) :
    ∃ s', readToken isTokenChar normalize rounds s place term
        = some ((scan isTokenChar normalize correctOffset pos start term text).1, s') ∧
      Reads correctOffset total s' (scan isTokenChar normalize correctOffset pos start term text).2.1
        (scan isTokenChar normalize correctOffset pos start term text).2.2 ∧
      ((scan isTokenChar normalize correctOffset pos start term text).1 = none → s'.offset = toInt32 total) := by
  induction text generalizing rounds s pos start place term with
  | nil =>
      obtain ⟨rounds, rfl⟩ := Nat.exists_eq_succ_of_ne_zero hrounds.ne'
      obtain ⟨hfill, hreads, hoffset⟩ := h.fill_nil
      rw [CharTokenizer.readToken, scan]
      generalize s.fill = filled at hfill hreads hoffset
      obtain ⟨more, filled⟩ := filled
      dsimp only at hfill
      subst hfill
      refine ⟨filled, ?_, hreads, fun _ => hoffset⟩
      dsimp only
      split
      case isTrue hterm => rw [hstart hterm, hreads.token_eq]
      case isFalse => rfl
  | cons c text ih =>
      obtain ⟨rounds, rfl⟩ := Nat.exists_eq_succ_of_ne_zero (Nat.ne_of_gt ((Nat.zero_le _).trans_lt hrounds))
      rw [List.length_cons] at hrounds
      obtain ⟨hfill, hreads, hlt⟩ := h.fill_cons
      rw [CharTokenizer.readToken, scan]
      generalize s.fill = filled at hfill hreads hlt
      obtain ⟨more, filled⟩ := filled
      dsimp only at hfill hreads hlt
      subst hfill
      obtain ⟨hchar, hpos, hnext⟩ := hreads.next hlt
      dsimp only
      rw [hchar]
      dsimp only
      rw [hpos]
      have hplace : (if term.length = 0 then toInt32 pos else place) =
          toInt32 ((if term.length = 0 then pos else start : Nat) : Int) := by
        split
        case isTrue => rfl
        case isFalse hne => exact hstart (Nat.pos_of_ne_zero hne)
      rw [hplace]
      split
      case isTrue =>
        rw [hnext.token_eq]
        split
        case isTrue => exact ⟨_, rfl, hnext, fun hnone => by cases hnone⟩
        case isFalse => exact ih hnext (by omega) fun _ => rfl
      case isFalse =>
        split
        case isTrue hterm =>
          rw [hstart hterm, hnext.token_eq]
          exact ⟨_, rfl, hnext, fun hnone => by cases hnone⟩
        case isFalse => exact ih hnext (by omega) hstart

/-- A call gives the next token of the text; when there is none, the offset is that of the end. -/
theorem incrementToken (h : Reads correctOffset total s pos text) :
    ∃ s', incrementToken isTokenChar normalize s
        = some ((tokensFrom isTokenChar normalize correctOffset pos text).head?, s') ∧
      (∃ pos' text', Reads correctOffset total s' pos' text' ∧ tokensFrom isTokenChar normalize correctOffset pos' text'
        = (tokensFrom isTokenChar normalize correctOffset pos text).tail) ∧
      (tokensFrom isTokenChar normalize correctOffset pos text = [] → s'.offset = toInt32 total) := by
  have hlength := congrArg List.length h.left_eq
  rw [CharTokenizer.left, List.length_append, List.length_drop, List.length_take_of_le h.dataLen_le] at hlength
  obtain ⟨s', hread, hreads, hoffset⟩ := @readToken isTokenChar normalize correctOffset _ _ _ _ _ 0 s.bufferIndex [] h
    (Nat.lt_succ_of_le hlength.ge) fun hpos => absurd hpos (Nat.lt_irrefl 0)
  have hfound := @found_scan isTokenChar normalize correctOffset pos text 0 [] (by decide)
  have hnone := @scan_eq_none isTokenChar normalize correctOffset pos text 0 []
  rw [tokensWith, if_pos List.length_nil] at hfound
  rw [CharTokenizer.incrementToken, hread, hfound]
  generalize scan isTokenChar normalize correctOffset pos 0 [] text = result at hreads hoffset hnone
  obtain ⟨first, pos', text'⟩ := result
  cases first with
  | none =>
      have hnil : text' = [] := hnone rfl
      subst hnil
      exact ⟨s', rfl, ⟨pos', [], hreads, tokensFrom_nil⟩, fun _ => hoffset rfl⟩
  | some first => exact ⟨s', rfl, ⟨pos', text', hreads, rfl⟩, fun hnil => absurd hnil (List.cons_ne_nil _ _)⟩

end Reads

section Calls
variable (isTokenChar normalize)

/-- The tokenizer after some calls of `incrementToken`. -/
def after (s : CharTokenizer) : Nat → Option CharTokenizer
  | 0 => some s
  | calls + 1 => (after s calls).bind fun s => (incrementToken isTokenChar normalize s).map Prod.snd

/-- The calls of `incrementToken` give the runs of token characters one after another, split after 255 characters and
normalized, with their places in the input. When a call has given none, the final offset is the length of the input. -/
def Exact (input : TextReader) (s : CharTokenizer) : Prop :=
  ∀ calls, ∃ s', after isTokenChar normalize s calls = some s' ∧
    (∃ s'', incrementToken isTokenChar normalize s'
      = some ((tokens isTokenChar normalize (fun place => input.correctOffset place) input.text)[calls]?, s'')) ∧
    ((tokens isTokenChar normalize (fun place => input.correctOffset place) input.text).length < calls →
      s'.finalOffset = input.correctOffset input.text.length)

/-- The end of a text, and where its tokens begin and end. -/
def places (text : WString) : List Nat :=
  text.length :: ((runs isTokenChar 0 text).flatMap fun (pos, chars) => pieces pos chars).flatMap fun (pos, chars) =>
    [pos, pos + chars.length]

end Calls

theorem Reads.after (h : Reads correctOffset total s pos text) (calls : Nat) :
    ∃ s', after isTokenChar normalize s calls = some s' ∧
      (∃ pos' text', Reads correctOffset total s' pos' text' ∧ tokensFrom isTokenChar normalize correctOffset pos' text'
        = (tokensFrom isTokenChar normalize correctOffset pos text).drop calls) ∧
      ((tokensFrom isTokenChar normalize correctOffset pos text).length < calls → s'.offset = toInt32 total) := by
  induction calls with
  | zero => exact ⟨s, rfl, ⟨pos, text, h, rfl⟩, fun hlt => absurd hlt (Nat.not_lt_zero _)⟩
  | succ calls ih =>
      obtain ⟨s', hafter, ⟨pos', text', hreads, htokens⟩, -⟩ := ih
      obtain ⟨s'', hcall, ⟨pos'', text'', hreads', htokens'⟩, hoffset⟩ :=
        @Reads.incrementToken isTokenChar normalize correctOffset _ _ _ _ hreads
      refine ⟨s'', ?_, ⟨pos'', text'', hreads', ?_⟩, fun hlt => hoffset ?_⟩
      · rw [CharTokenizer.after, hafter, Option.bind_some, hcall]
        rfl
      · rw [htokens', htokens, List.tail_drop]
      · rw [htokens]
        exact List.drop_eq_nil_of_le (Nat.le_of_lt_succ hlt)

theorem fill_keeps (s : CharTokenizer) :
    s.fill.2.charStream = s.charStream ∧ s.fill.2.ioBuffer.length = s.ioBuffer.length := by
  rw [fill]
  split
  · dsimp only
    split
    · exact ⟨rfl, rfl⟩
    · rename_i hread
      exact ⟨rfl, ChunkedReader.length_store ((Nat.zero_add _).trans_le (ChunkedReader.length_le_of_read hread))⟩
  · exact ⟨rfl, rfl⟩

theorem readToken_keeps {rounds : Nat} {start : Int} {term : WString} {result : Option CharToken} {s' : CharTokenizer}
    (h : readToken isTokenChar normalize rounds s start term = some (result, s')) :
    s'.charStream = s.charStream ∧ s'.ioBuffer.length = s.ioBuffer.length := by
  induction rounds generalizing s start term with
  | zero => cases h
  | succ rounds ih =>
      have hfill := fill_keeps s
      rw [readToken] at h
      generalize s.fill = filled at h hfill
      obtain ⟨_ | _, filled⟩ := filled
      · cases h
        exact hfill
      · dsimp only at h
        split at h
        · cases h
        · generalize (if term.length = 0 then _ else start) = place at h
          split_ifs at h
          · cases h
            exact hfill
          · exact ⟨(ih h).1.trans hfill.1, (ih h).2.trans hfill.2⟩
          · cases h
            exact hfill
          · exact ⟨(ih h).1.trans hfill.1, (ih h).2.trans hfill.2⟩

section Uses
variable (isTokenChar normalize)

/-- What becomes of a tokenizer that is made for a reader, with calls of `incrementToken` and `reset` in any order. -/
inductive Reached (first : TextReader) : CharTokenizer → Prop
  | new : Reached first (new first)
  | incrementToken {s s' : CharTokenizer} {result : Option CharToken} : Reached first s →
      incrementToken isTokenChar normalize s = some (result, s') → Reached first s'
  | reset {s : CharTokenizer} (input : TextReader) : Reached first s → Reached first (s.reset input)

end Uses

theorem Reached.keeps {first : TextReader} (h : Reached isTokenChar normalize first s) :
    s.charStream = first.correctOffset ∧ s.ioBuffer.length = IO_BUFFER_SIZE := by
  induction h with
  | new => exact ⟨rfl, List.length_replicate⟩
  | incrementToken _ hcall ih => exact ⟨(readToken_keeps hcall).1.trans ih.1, (readToken_keeps hcall).2.trans ih.2⟩
  | reset _ _ ih => exact ih

theorem Reached.reads {first : TextReader} (h : Reached isTokenChar normalize first s) (input : TextReader) :
    Reads (fun place => first.correctOffset (toInt32 place)) input.text.length (s.reset input) 0 input.text where
  left_eq := by
    rw [left, CharTokenizer.reset, List.take_zero, List.drop_nil]
    rfl
  offset_eq := ⟨0, rfl, (Nat.zero_add _).symm⟩
  pos_add := (Nat.zero_add _).symm
  dataLen_le := Nat.zero_le _
  room := by
    rw [CharTokenizer.reset, h.keeps.2]
    decide
  stream := fun place => congrFun h.keeps.1 _

/-- The tokens are those of the text, with the offsets that the stream of the constructor makes of the places. -/
theorem Reached.run {first : TextReader} (h : Reached isTokenChar normalize first s) (input : TextReader) (calls : Nat) :
    ∃ s', after isTokenChar normalize (s.reset input) calls = some s' ∧
      (∃ s'', CharTokenizer.incrementToken isTokenChar normalize s' = some ((tokens isTokenChar normalize
        (fun place => first.correctOffset (toInt32 place)) input.text)[calls]?, s'')) ∧
      ((tokens isTokenChar normalize (fun place => first.correctOffset (toInt32 place)) input.text).length < calls →
        s'.finalOffset = first.correctOffset (toInt32 input.text.length)) := by
  obtain ⟨s', hafter, ⟨pos, rest, hreads, htokens⟩, hoffset⟩ :=
    @Reads.after isTokenChar normalize _ _ _ _ _ (h.reads input) calls
  obtain ⟨s'', hcall, -, -⟩ := @Reads.incrementToken isTokenChar normalize _ _ _ _ _ hreads
  refine ⟨s', hafter, ⟨s'', ?_⟩, fun hlt => ?_⟩
  · rw [hcall, htokens, List.head?_drop]
    rfl
  · rw [finalOffset, hoffset hlt, hreads.stream]

theorem tokens_eq_iff {correctOffset' : Nat → Int} :
    tokens isTokenChar normalize correctOffset text = tokens isTokenChar normalize correctOffset' text ↔
      ∀ piece ∈ (runs isTokenChar 0 text).flatMap fun (pos, chars) => pieces pos chars,
        correctOffset piece.1 = correctOffset' piece.1 ∧
          correctOffset (piece.1 + piece.2.length) = correctOffset' (piece.1 + piece.2.length) := by
  rw [tokens, tokensFrom, tokens, tokensFrom, List.map_inj_left]
  refine forall₂_congr fun piece _ => ?_
  simp [tokenAt]

theorem Reached.places_eq {first input : TextReader} (h : Reached isTokenChar normalize first s)
    (hexact : Exact isTokenChar normalize input (s.reset input)) :
    ∀ place ∈ places isTokenChar input.text, first.correctOffset (toInt32 place) = input.correctOffset place := by
  rw [places, List.forall_mem_cons]
  have htokens : tokens isTokenChar normalize (fun place => first.correctOffset (toInt32 place)) input.text =
      tokens isTokenChar normalize (fun place => input.correctOffset place) input.text := by
    refine List.ext_getElem? fun calls => ?_
    obtain ⟨s', hafter, ⟨s'', hcall⟩, -⟩ := h.run input calls
    obtain ⟨s₁, hafter', ⟨s₂, hcall'⟩, -⟩ := hexact calls
    rw [hafter', Option.some.injEq] at hafter
    rw [← hafter, hcall', Option.some.injEq, Prod.mk.injEq] at hcall
    exact hcall.1.symm
  refine ⟨?_, fun place hplace => ?_⟩
  · obtain ⟨s', hafter, -, hend⟩ := h.run input _
    obtain ⟨s₁, hafter', -, hend'⟩ := hexact _
    rw [hafter', Option.some.injEq] at hafter
    rw [htokens] at hend
    rw [← hend (Nat.lt_succ_self _), ← hafter]
    exact hend' (Nat.lt_succ_self _)
  · obtain ⟨piece, hpiece, hmem⟩ := List.mem_flatMap.mp hplace
    obtain ⟨hstart, hstop⟩ := tokens_eq_iff.mp htokens piece hpiece
    rcases List.mem_cons.mp hmem with rfl | hmem
    · exact hstart
    · rw [List.mem_singleton.mp hmem]
      exact hstop

end CharTokenizer
end LucenePlusPlus
