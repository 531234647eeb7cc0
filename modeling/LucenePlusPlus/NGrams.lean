import LucenePlusPlus.NGramTokenizer
import LucenePlusPlus.FastCharStream

/-!
What the n-gram tokenizers make of a text. Whatever chunks it comes in, the buffer is a window on it; it is filled again before
a gram could reach past its end, and the end of the text is noticed only by a read that finds nothing. The edge tokenizer never
moves its window, so it notices the end only of a text that does not fill the buffer.
-/

namespace LucenePlusPlus
namespace NGramTokenizer
open ChunkedReader (store length_store take_store)

variable {s : NGramTokenizer} {text : WString} {p : Nat}

/-- The characters in the buffer that are not consumed. -/
def window (s : NGramTokenizer) : WString := (s.buffer.drop s.bufferStart).take (s.bufferEnd - s.bufferStart)

theorem readMore_spec {room : Nat} (hroom : s.buffer.length - s.bufferEnd ≤ room) (hle : s.bufferEnd ≤ s.buffer.length)
    (hexhausted : s.exhausted = false) : ∃ buffer bufferEnd exhausted input,
      readMore room s = { s with buffer, bufferEnd, exhausted, input } ∧ buffer.length = s.buffer.length ∧
      bufferEnd ≤ buffer.length ∧ buffer.take bufferEnd ++ input.rest = s.buffer.take s.bufferEnd ++ s.input.rest ∧
      (exhausted = true ↔ bufferEnd < buffer.length) ∧ (exhausted = true → input.rest = []) := by
  induction room generalizing s with
  | zero =>
      refine ⟨s.buffer, s.bufferEnd, false, s.input, ?_, rfl, hle, rfl, ?_, nofun⟩
      · rw [readMore, ← hexhausted]
      · simp only [Bool.false_eq_true, false_iff]
        omega
  | succ room ih =>
      rw [readMore]
      by_cases hlt : s.bufferEnd < s.buffer.length
      · rw [if_pos hlt]
        by_cases hrest : s.input.rest = []
        · rw [ChunkedReader.read_of_nil hrest]
          exact ⟨s.buffer, s.bufferEnd, true, s.input, rfl, rfl, hle, rfl, by simpa using hlt, fun _ => hrest⟩
        · obtain ⟨chars, input, hread, hne, hlength, happend⟩ :=
            @ChunkedReader.read_of_ne_nil _ s.input (s.buffer.length - s.bufferEnd) hrest (by omega)
          have hpos := List.length_pos_iff.mpr hne
          have hstore : (store s.buffer s.bufferEnd chars).length = s.buffer.length := length_store (by omega)
          obtain ⟨buffer, bufferEnd, exhausted, input', heq, hbuffer, hend, htaken, hmore, hdone⟩ :=
            @ih { s with buffer := store s.buffer s.bufferEnd chars, bufferEnd := s.bufferEnd + chars.length, input }
              (by simp only [hstore]; omega) (by simp only [hstore]; omega) hexhausted
          rw [hread]
          refine ⟨buffer, bufferEnd, exhausted, input', heq, hbuffer.trans hstore, hend, ?_, hmore, hdone⟩
          rw [htaken, take_store hle, happend, List.append_assoc]
      · rw [if_neg hlt]
        refine ⟨s.buffer, s.bufferEnd, false, s.input, ?_, rfl, hle, rfl, ?_, nofun⟩
        · rw [← hexhausted]
        · simp only [Bool.false_eq_true, false_iff]
          exact hlt

/-- `p` characters of the text are consumed, and the buffer has some of those that follow. -/
structure Reads (text : WString) (p : Nat) (s : NGramTokenizer) : Prop where
  one_le : 1 ≤ s.minGram
  min_le : s.minGram ≤ s.maxGram
  size : s.buffer.length = 2 * s.maxGram + 1024
  size_lt : s.buffer.length < 2 ^ 31
  offset_eq : s.offset = p
  start_le : s.bufferStart ≤ s.bufferEnd
  end_le : s.bufferEnd ≤ s.buffer.length
  rest : s.window ++ s.input.rest = text.drop p
  p_le : p ≤ text.length
  exhausted_iff : s.exhausted = true ↔ s.bufferEnd < s.buffer.length
  done : s.exhausted = true → s.input.rest = []
  started : s.bufferStart ≤ p ∨ s.exhausted = false ∧ s.bufferStart = s.bufferEnd
  nonToken : s.lastNonTokenChar = (s.bufferStart : Int) - 1 - p
  checked_ge : (s.bufferStart : Int) - 1 ≤ s.lastCheckedChar
  checked_lt : s.lastCheckedChar < s.buffer.length
  checked_start : s.minGram < s.gramSize → (s.bufferStart : Int) ≤ s.lastCheckedChar
  gramSize_ge : s.minGram ≤ s.gramSize
  gramSize_le : s.gramSize ≤ s.maxGram + 1

/-- The buffer reaches past the longest gram, or to the end of the text. -/
structure Filled (text : WString) (p : Nat) (s : NGramTokenizer) : Prop extends Reads text p s where
  start_le_p : s.bufferStart ≤ p
  enough : s.exhausted = true ∨ s.bufferStart + s.maxGram + 2 ≤ s.bufferEnd

theorem int32_eq {x : Int} (hge : -2 ^ 31 ≤ x) (hlt : x < 2 ^ 31) : int32 x = .ok x := if_pos ⟨hge, hlt⟩

theorem Reads.length_window (h : Reads text p s) : s.window.length = s.bufferEnd - s.bufferStart := by
  have hle := h.end_le
  rw [window, List.length_take, List.length_drop]
  omega

theorem moved (h : Reads text p s) : ∃ buffer : WString,
    (if s.bufferEnd - s.bufferStart > 0 ∧ s.bufferStart > 0 then
      store s.buffer 0 ((s.buffer.drop s.bufferStart).take (s.bufferEnd - s.bufferStart)) else s.buffer) = buffer ∧
    buffer.length = s.buffer.length ∧ buffer.take (s.bufferEnd - s.bufferStart) = s.window := by
  have hlength := h.length_window
  have hend := h.end_le
  refine ⟨_, rfl, ?_⟩
  split
  · have hle : 0 + s.window.length ≤ s.buffer.length := by omega
    have htake := @take_store _ s.buffer s.window 0 (by omega)
    rw [Nat.zero_add, hlength, List.take_zero, List.nil_append] at htake
    exact ⟨length_store hle, htake⟩
  · rename_i hstay
    refine ⟨rfl, ?_⟩
    rcases Nat.eq_zero_or_pos s.bufferStart with hzero | hpos
    · rw [window, hzero, List.drop_zero]
    · have hempty : s.bufferEnd - s.bufferStart = 0 := by omega
      rw [window, hempty, List.take_zero, List.take_zero]

theorem Reads.fill (h : Reads text p s) (hp : p < 2 ^ 31) : ∃ s', s.fillBuffer = .ok s' ∧ Filled text p s' ∧
    s'.gramSize = s.gramSize ∧ s'.minGram = s.minGram ∧ s'.maxGram = s.maxGram := by
  have hsize := h.size
  have hlt := h.size_lt
  have hstart := h.start_le
  have hend := h.end_le
  have hge := h.checked_ge
  have hchecked := h.checked_lt
  rw [fillBuffer]
  by_cases hskip : s.exhausted = true ∨ (s.bufferStart : Int) < s.bufferEnd - s.maxGram - 1
  · rw [if_pos hskip]
    have hstarted : s.bufferStart ≤ p := by
      rcases h.started with hle | ⟨hexhausted, heq⟩
      · exact hle
      · rcases hskip with htrue | hlt
        · rw [hexhausted] at htrue
          cases htrue
        · omega
    exact ⟨s, rfl, { h with start_le_p := hstarted, enough := hskip.imp_right fun hlt => by omega }, rfl, rfl, rfl⟩
  · rw [if_neg hskip]
    have hexhausted : s.exhausted = false := Bool.eq_false_iff.mpr fun htrue => hskip (.inl htrue)
    obtain ⟨buffer, hbuffer, hlength, htake⟩ := moved h
    have hlast : int32 (s.lastCheckedChar - s.bufferStart) = .ok (s.lastCheckedChar - s.bufferStart) :=
      int32_eq (by omega) (by omega)
    have hnon : int32 (s.lastNonTokenChar - s.bufferStart) = .ok (-1 - (p : Int)) := by
      rw [h.nonToken, show (s.bufferStart : Int) - 1 - p - s.bufferStart = -1 - p by omega]
      exact int32_eq (by omega) (by omega)
    obtain ⟨buffer', bufferEnd, exhausted, input, heq, hbuffer', hle, htaken, hmore, hdone⟩ :=
      @readMore_spec
        { s with
          buffer
          bufferEnd := s.bufferEnd - s.bufferStart
          lastCheckedChar := s.lastCheckedChar - s.bufferStart
          lastNonTokenChar := -1 - (p : Int)
          bufferStart := 0 }
        (buffer.length - (s.bufferEnd - s.bufferStart)) le_rfl (by simp only [hlength]; omega) hexhausted
    simp only [hbuffer, hlast, hnon]
    refine ⟨_, congrArg Except.ok heq, ?_, rfl, rfl, rfl⟩
    simp only at hbuffer' htaken
    have hfull : buffer'.length = s.buffer.length := hbuffer'.trans hlength
    refine { h with
      size := hfull.trans hsize
      size_lt := hfull ▸ hlt
      start_le := Nat.zero_le _
      end_le := hle
      rest := ?_
      exhausted_iff := hmore
      done := hdone
      started := .inl (Nat.zero_le p)
      nonToken := by simp only []; omega
      checked_ge := by simp only []; omega
      checked_lt := by simp only [hfull]; omega
      checked_start := fun hgram => by
        have hle := h.checked_start hgram
        simp only []
        omega
      start_le_p := Nat.zero_le p
      enough := ?_ }
    · rw [window, List.drop_zero, Nat.sub_zero, htaken, htake, h.rest]
    · by_cases hroom : bufferEnd < buffer'.length
      · exact .inl (hmore.mpr hroom)
      · refine .inr ?_
        simp only []
        omega

theorem Reads.le_room (h : Reads text p s) : s.bufferEnd - s.bufferStart ≤ text.length - p := by
  have hlength := congrArg List.length h.rest
  rw [List.length_append, h.length_window, List.length_drop] at hlength
  omega

theorem Reads.room_eq (h : Reads text p s) (hexhausted : s.exhausted = true) :
    s.bufferEnd - s.bufferStart = text.length - p := by
  have hlength := congrArg List.length h.rest
  rw [h.done hexhausted, List.append_nil, h.length_window, List.length_drop] at hlength
  exact hlength

theorem Filled.fits_iff (h : Filled text p s) {size : Nat} (hsize : size ≤ s.maxGram) :
    s.bufferStart + size ≤ s.bufferEnd ↔ p + size ≤ text.length := by
  have hstart := h.start_le
  have hp := h.p_le
  have hle := h.le_room
  rcases h.enough with hexhausted | henough
  · have heq := h.room_eq hexhausted
    omega
  · omega

theorem Reads.take_window (h : Reads text p s) {size : Nat} (hsize : s.bufferStart + size ≤ s.bufferEnd) :
    (s.buffer.drop s.bufferStart).take size = (text.drop p).take size := by
  have hle : size ≤ s.window.length := by
    rw [h.length_window]
    omega
  rw [← h.rest, List.take_append_of_le_length hle, window, List.take_take, Nat.min_eq_left (by omega)]

theorem Reads.charAt (h : Reads text p s) {i : Int} (hge : (s.bufferStart : Int) ≤ i) (hlt : i < s.bufferEnd) :
    ∃ c ∈ text, s.charAt i = .ok c := by
  have hend := h.end_le
  obtain ⟨k, rfl⟩ : ∃ k : Nat, i = s.bufferStart + k := ⟨(i - s.bufferStart).toNat, by omega⟩
  have hindex : ((s.bufferStart : Int) + k).toNat = s.bufferStart + k := by omega
  have hk : s.bufferStart + k < s.buffer.length := by omega
  refine ⟨s.buffer[s.bufferStart + k], ?_, ?_⟩
  · have hmem : s.buffer[s.bufferStart + k] ∈ s.window := by
      rw [window, List.mem_take_iff_getElem]
      refine ⟨k, ?_, List.getElem_drop⟩
      rw [List.length_drop]
      omega
    exact List.mem_of_mem_drop (h.rest ▸ List.mem_append_left _ hmem)
  · rw [NGramTokenizer.charAt, if_neg (by omega), hindex, List.getElem?_eq_getElem hk]

variable {isTokenChar : WChar → Bool}

theorem Reads.findNonTokenChar (h : Reads text p s) (hall : ∀ c ∈ text, isTokenChar c = true) {count : Nat} {i : Int}
    (hge : (s.bufferStart : Int) + count ≤ i + 1) (hlt : i < s.bufferEnd) :
    s.findNonTokenChar isTokenChar count i = .ok none := by
  induction count generalizing i with
  | zero => rfl
  | succ count ih =>
      obtain ⟨c, hc, hchar⟩ := h.charAt (show (s.bufferStart : Int) ≤ i by omega) hlt
      rw [NGramTokenizer.findNonTokenChar, hchar]
      refine (if_pos (hall c hc)).trans ?_
      exact ih (by omega) (by omega)

/-- All characters of the gram are of a token, those that have been looked at before included. -/
theorem Reads.update (h : Reads text p s) (hall : ∀ c ∈ text, isTokenChar c = true) (hfits : s.bufferStart + s.gramSize ≤ s.bufferEnd) :
    ∃ lastCheckedChar, s.updateLastNonTokenChar isTokenChar = .ok { s with lastCheckedChar } ∧
      (s.bufferStart : Int) + s.gramSize - 1 ≤ lastCheckedChar ∧ lastCheckedChar < s.buffer.length := by
  have hge := h.checked_ge
  have hchecked := h.checked_lt
  have hend := h.end_le
  have hpos := h.one_le.trans h.gramSize_ge
  rw [updateLastNonTokenChar]
  by_cases hlt : (s.bufferStart : Int) + s.gramSize - 1 > s.lastCheckedChar
  · refine ⟨(s.bufferStart : Int) + s.gramSize - 1, ?_, le_rfl, by omega⟩
    rw [if_pos hlt, h.findNonTokenChar hall (by omega) (by omega)]
    rfl
  · exact ⟨s.lastCheckedChar, if_neg hlt, by omega, hchecked⟩

/-- The piece of the text of this size from `start` on. -/
def gramAt (text : WString) (start size : Nat) : Gram := ⟨(text.drop start).take size, 1, start, (start + size : Nat)⟩

/-- The part of a round that is common to both tokenizers: a gram that fits is the next token. -/
theorem Filled.emits (h : Filled text p s) (hall : ∀ c ∈ text, isTokenChar c = true) (hgram : s.gramSize ≤ s.maxGram)
    (hfits : p + s.gramSize ≤ text.length) (hp : p + s.gramSize < 2 ^ 31) : ∃ t s', s.updateLastNonTokenChar isTokenChar = .ok t ∧
      ¬ (t.lastNonTokenChar ≥ t.bufferStart ∧ t.lastNonTokenChar < t.bufferStart + t.gramSize) ∧
      t.emit = .ok (some (gramAt text p s.gramSize), s') ∧ Reads text p s' ∧ s'.gramSize = s.gramSize + 1 ∧
      s'.minGram = s.minGram ∧ s'.maxGram = s.maxGram := by
  have hin := (h.fits_iff hgram).mpr hfits
  have hnon := h.nonToken
  have hge := h.gramSize_ge
  have hone := h.one_le
  obtain ⟨lastCheckedChar, hupdate, hchecked, hlt⟩ := h.update hall hin
  have htermEnd : int32 (s.offset + s.gramSize) = .ok ((p + s.gramSize : Nat) : Int) := by
    rw [h.offset_eq, Nat.cast_add]
    exact int32_eq (by omega) (by omega)
  refine ⟨_, { s with lastCheckedChar, gramSize := s.gramSize + 1 }, hupdate, ?_, ?_, ?_, rfl, rfl, rfl⟩
  · simp only []
    omega
  · simp only [emit, htermEnd]
    rw [h.take_window hin]
    exact congrArg (fun offset => Except.ok (some (Gram.mk _ 1 (correctOffset offset) _), _)) h.offset_eq
  · exact { h.toReads with
      checked_ge := by simp only []; omega
      checked_lt := hlt
      checked_start := fun _ => by simp only []; omega
      gramSize_ge := by simp only []; omega
      gramSize_le := by simp only []; omega }

theorem Filled.consume (h : Filled text p s) (hgram : s.minGram < s.gramSize) (hlt : s.bufferStart < s.bufferEnd)
    (hp : p + 1 < 2 ^ 31) : ∃ s', s.consume = .ok s' ∧ Reads text (p + 1) { s' with gramSize := s'.minGram } ∧
      s'.minGram = s.minGram ∧ s'.maxGram = s.maxGram := by
  have hoffset : int32 (s.offset + 1) = .ok ((p + 1 : Nat) : Int) := by
    rw [h.offset_eq, Nat.cast_add]
    exact int32_eq (by omega) (by omega)
  have hstart := h.start_le_p
  have hnon := h.nonToken
  have hchecked := h.checked_start hgram
  have hroom := h.le_room
  have hmin := h.min_le
  rw [NGramTokenizer.consume, hoffset]
  refine ⟨_, rfl, ?_, rfl, rfl⟩
  exact { h.toReads with
    offset_eq := rfl
    start_le := hlt
    rest := by
      have htail := congrArg (List.drop 1) h.rest
      rw [List.drop_append_of_le_length (by rw [h.length_window]; omega), List.drop_drop] at htail
      rw [window, List.drop_take, List.drop_drop] at htail
      rw [window, Nat.sub_add_eq]
      exact htail
    p_le := by omega
    started := .inl (by simp only []; omega)
    nonToken := by simp only []; omega
    checked_ge := by simp only []; omega
    checked_start := fun hlt => absurd hlt (lt_irrefl _)
    gramSize_ge := le_rfl
    gramSize_le := by simp only []; omega }

/-- The grams from `start` on of the sizes from `size` to the largest one, as far as they fit. -/
def gramsAt (maxGram : Nat) (text : WString) (start size : Nat) : List Gram :=
  ((List.range' size (maxGram + 1 - size)).filter fun size => start + size ≤ text.length).map (gramAt text start)

/-- The grams for each place from `start` on. -/
def gramsFrom (minGram maxGram : Nat) (text : WString) (start : Nat) : List Gram :=
  (List.range' start (text.length - start)).flatMap fun start => gramsAt maxGram text start minGram

def grams (minGram maxGram : Nat) (text : WString) : List Gram := gramsFrom minGram maxGram text 0

theorem gramsAt_cons {maxGram start size : Nat} (hsize : size ≤ maxGram) (hfits : start + size ≤ text.length) :
    gramsAt maxGram text start size = gramAt text start size :: gramsAt maxGram text start (size + 1) := by
  rw [gramsAt, show maxGram + 1 - size = (maxGram + 1 - (size + 1)) + 1 by omega, List.range'_succ,
    List.filter_cons_of_pos (by simpa using hfits), List.map_cons, gramsAt]

theorem gramsAt_eq_nil {maxGram start size : Nat} (h : maxGram < size ∨ text.length < start + size) :
    gramsAt maxGram text start size = [] := by
  rw [gramsAt, List.map_eq_nil_iff, List.filter_eq_nil_iff]
  intro size' hmem
  rw [List.mem_range'_1] at hmem
  simp only [decide_eq_true_eq]
  omega

theorem gramsFrom_cons {minGram maxGram start : Nat} (h : start < text.length) :
    gramsFrom minGram maxGram text start = gramsAt maxGram text start minGram ++ gramsFrom minGram maxGram text (start + 1) := by
  rw [gramsFrom, show text.length - start = (text.length - (start + 1)) + 1 by omega, List.range'_succ, List.flatMap_cons,
    gramsFrom]

theorem gramsFrom_eq_nil {minGram maxGram start : Nat} (h : text.length < start + minGram) :
    gramsFrom minGram maxGram text start = [] := by
  rw [gramsFrom, List.flatMap_eq_nil_iff]
  intro start' hmem
  rw [List.mem_range'_1] at hmem
  exact gramsAt_eq_nil (.inr (by omega))

/-! ### Runs -/

/-- The calls return these tokens, and then `false`, in a state of which `final` holds. -/
def Tokenizes (increment : Nat → NGramTokenizer → Option (Except Fault (Option Gram × NGramTokenizer)))
    (final : NGramTokenizer → Prop) : NGramTokenizer → List Gram → Prop
  | s, [] => ∃ rounds s', increment rounds s = some (.ok (none, s')) ∧ final s'
  | s, gram :: grams => ∃ rounds s', increment rounds s = some (.ok (some gram, s')) ∧ Tokenizes increment final s' grams

variable {increment : Nat → NGramTokenizer → Option (Except Fault (Option Gram × NGramTokenizer))}
variable {final : NGramTokenizer → Prop} {tokens : List Gram}

/-- A round that returns nothing is followed by the rounds of the state it leads to. -/
theorem Tokenizes.of_round {s' : NGramTokenizer} (hround : ∀ rounds, increment (rounds + 1) s = increment rounds s')
    (h : Tokenizes increment final s' tokens) : Tokenizes increment final s tokens := by
  cases tokens with
  | nil =>
      obtain ⟨rounds, t, hreturn, hfinal⟩ := h
      exact ⟨rounds + 1, t, (hround rounds).trans hreturn, hfinal⟩
  | cons gram tokens =>
      obtain ⟨rounds, t, hreturn, hrest⟩ := h
      exact ⟨rounds + 1, t, (hround rounds).trans hreturn, hrest⟩

theorem Tokenizes.exists_final (h : Tokenizes increment final s tokens) : ∃ s', final s' := by
  induction tokens generalizing s with
  | nil =>
      obtain ⟨_, t, -, hfinal⟩ := h
      exact ⟨t, hfinal⟩
  | cons gram tokens ih =>
      obtain ⟨_, t, -, hrest⟩ := h
      exact ih hrest

theorem Filled.finalOffset (h : Filled text p s) (hexhausted : s.exhausted = true) (hlength : text.length < 2 ^ 31) :
    s.finalOffset = .ok (text.length : Int) := by
  have hroom := h.room_eq hexhausted
  have hp := h.p_le
  rw [NGramTokenizer.finalOffset, h.offset_eq, hroom, show (p : Int) + (text.length - p : Nat) = text.length by omega,
    int32_eq (by omega) (by omega)]
  rfl

theorem Reads.tokenizes {p : Nat} {s : NGramTokenizer} (h : Reads text p s) (hall : ∀ c ∈ text, isTokenChar c = true) (hlength : text.length < 2 ^ 31) :
    Tokenizes (incrementToken isTokenChar) (fun s => s.finalOffset = .ok (text.length : Int)) s
      (gramsAt s.maxGram text p s.gramSize ++ gramsFrom s.minGram s.maxGram text (p + 1)) := by
  have hp := h.p_le
  obtain ⟨t, hfill, hfilled, hgram, hmin, hmax⟩ := h.fill (by omega)
  rw [← hgram, ← hmin, ← hmax]
  by_cases hfits : t.gramSize ≤ t.maxGram ∧ p + t.gramSize ≤ text.length
  · obtain ⟨u, s', hupdate, htokens, hemit, hreads, hgram', hmin', hmax'⟩ :=
      hfilled.emits hall hfits.1 hfits.2 (by omega)
    have hin := (hfilled.fits_iff hfits.1).mpr hfits.2
    have hround : incrementToken isTokenChar 1 s = some (.ok (some (gramAt text p t.gramSize), s')) := by
      rw [incrementToken, hfill]
      simp only []
      rw [if_neg (by omega), hupdate]
      simp only []
      rw [if_neg htokens, hemit]
    rw [gramsAt_cons hfits.1 hfits.2, List.cons_append]
    refine ⟨1, s', hround, ?_⟩
    rw [← hgram', ← hmin', ← hmax']
    exact hreads.tokenizes hall hlength
  · have hnone : t.gramSize > t.maxGram ∨ t.bufferStart + t.gramSize > t.bufferEnd := by
      by_cases hgramSize : t.gramSize ≤ t.maxGram
      · have hiff := hfilled.fits_iff hgramSize
        omega
      · omega
    rw [gramsAt_eq_nil (by omega), List.nil_append]
    have hminGram := hfilled.fits_iff hfilled.min_le
    have hroom := hfilled.le_room
    have hge := hfilled.gramSize_ge
    have hle := hfilled.min_le
    have hone := hfilled.one_le
    by_cases hlast : t.bufferStart + 1 + t.minGram > t.bufferEnd
    · have hexhausted : t.exhausted = true := by
        rcases hfilled.enough with hexhausted | henough
        · exact hexhausted
        · omega
      have heq := hfilled.room_eq hexhausted
      rw [gramsFrom_eq_nil (by omega)]
      refine ⟨1, t, ?_, hfilled.finalOffset hexhausted hlength⟩
      rw [incrementToken, hfill]
      simp only []
      rw [if_pos hnone, if_pos hlast, if_pos hexhausted]
    · obtain ⟨s', hconsume, hreads, hmin', hmax'⟩ := hfilled.consume (by omega) (by omega) (by omega)
      have hround (rounds : Nat) : incrementToken isTokenChar (rounds + 1) s =
          incrementToken isTokenChar rounds { s' with gramSize := s'.minGram } := by
        rw [incrementToken, hfill]
        simp only []
        rw [if_pos hnone, if_neg hlast, hconsume]
      refine Tokenizes.of_round hround ?_
      rw [gramsFrom_cons (by omega), ← hmin', ← hmax']
      exact hreads.tokenizes hall hlength
termination_by (text.length - p, s.maxGram + 1 - s.gramSize)
decreasing_by
  · rw [hgram', hmax', hgram, hmax]
    exact Prod.Lex.right _ (by omega)
  · exact Prod.Lex.left _ _ (by omega)

/-- With nothing consumed, the end of the text has been noticed only if the text does not fill the buffer. -/
theorem Filled.exhausted_iff_lt (h : Filled text 0 s) : s.exhausted = true ↔ text.length < 2 * s.maxGram + 1024 := by
  have hstart := h.start_le_p
  have hend := h.end_le
  have hroom := h.le_room
  rw [← h.size]
  constructor
  · intro hexhausted
    have heq := h.room_eq hexhausted
    have hlt := h.exhausted_iff.mp hexhausted
    omega
  · intro hlt
    rw [h.exhausted_iff]
    omega

theorem Reads.edge_emits {s : NGramTokenizer} (h : Reads text 0 s) (hall : ∀ c ∈ text, isTokenChar c = true)
    (hgram : s.gramSize ≤ s.maxGram) (hfits : s.gramSize ≤ text.length) :
    ∃ s', (∀ rounds, incrementEdgeToken isTokenChar (rounds + 1) s = some (.ok (some (gramAt text 0 s.gramSize), s'))) ∧
      Reads text 0 s' ∧ s'.gramSize = s.gramSize + 1 ∧ s'.maxGram = s.maxGram := by
  have hsize := h.size
  have hlt := h.size_lt
  obtain ⟨t, hfill, hfilled, hgram', -, hmax⟩ := h.fill (by omega)
  rw [← hgram', ← hmax] at hgram
  rw [← hgram'] at hfits ⊢
  rw [← hmax]
  obtain ⟨u, s', hupdate, htokens, hemit, hreads, hnext, -, hmax'⟩ := hfilled.emits hall hgram (by omega) (by omega)
  have hin := (hfilled.fits_iff hgram).mpr (by omega)
  refine ⟨s', fun rounds => ?_, hreads, hnext, hmax'⟩
  rw [incrementEdgeToken, hfill]
  simp only []
  rw [if_neg (by omega), hupdate]
  simp only []
  rw [if_neg htokens, hemit]

/-- When no gram is left, a round is the last one if the end of the text has been noticed, and changes nothing if not. -/
theorem Reads.edge_round (isTokenChar : WChar → Bool) {s : NGramTokenizer} (h : Reads text 0 s) (hnone : s.maxGram < s.gramSize ∨ text.length < s.gramSize) :
    ∃ t, Reads text 0 t ∧ t.gramSize = s.gramSize ∧ t.maxGram = s.maxGram ∧ ∀ rounds,
      incrementEdgeToken isTokenChar (rounds + 1) s =
        if text.length < 2 * s.maxGram + 1024 then some (.ok (none, t)) else incrementEdgeToken isTokenChar rounds t := by
  obtain ⟨t, hfill, hfilled, hgram, -, hmax⟩ := h.fill (by omega)
  have hstart := hfilled.start_le_p
  have hroom := hfilled.le_room
  refine ⟨t, hfilled.toReads, hgram, hmax, fun rounds => ?_⟩
  rw [incrementEdgeToken, hfill, ← hmax]
  simp only []
  rw [if_pos (by omega)]
  simp only [hfilled.exhausted_iff_lt]

theorem Reads.edge_tokenizes {s : NGramTokenizer} (h : Reads text 0 s) (hall : ∀ c ∈ text, isTokenChar c = true)
    (hlength : text.length < 2 * s.maxGram + 1024) :
    Tokenizes (incrementEdgeToken isTokenChar) (fun _ => True) s (gramsAt s.maxGram text 0 s.gramSize) := by
  by_cases hfits : s.gramSize ≤ s.maxGram ∧ s.gramSize ≤ text.length
  · obtain ⟨s', hemit, hreads, hgram, hmax⟩ := h.edge_emits hall hfits.1 hfits.2
    rw [gramsAt_cons hfits.1 (by omega)]
    refine ⟨1, s', hemit 0, ?_⟩
    rw [← hgram, ← hmax]
    exact hreads.edge_tokenizes hall (by omega)
  · obtain ⟨t, -, -, -, hround⟩ := h.edge_round isTokenChar (by omega)
    rw [gramsAt_eq_nil (by omega)]
    exact ⟨1, t, (hround 0).trans (if_pos hlength), trivial⟩
termination_by s.maxGram + 1 - s.gramSize
decreasing_by omega

/-- Once all prefixes of a text that fills the buffer have been tokens, no number of rounds does. -/
theorem Reads.edge_loops {s : NGramTokenizer} (h : Reads text 0 s) (hgram : s.maxGram < s.gramSize)
    (hlength : 2 * s.maxGram + 1024 ≤ text.length) (rounds : Nat) : incrementEdgeToken isTokenChar rounds s = none := by
  induction rounds generalizing s with
  | zero => rfl
  | succ rounds ih =>
      obtain ⟨t, hreads, hgram', hmax, hround⟩ := h.edge_round isTokenChar (.inl hgram)
      rw [hround rounds, if_neg (by omega)]
      exact ih hreads (by omega) (by omega)

theorem Reads.not_edge_tokenizes {s : NGramTokenizer} (h : Reads text 0 s) (hall : ∀ c ∈ text, isTokenChar c = true)
    (hlength : 2 * s.maxGram + 1024 ≤ text.length) :
    ¬ Tokenizes (incrementEdgeToken isTokenChar) final s (gramsAt s.maxGram text 0 s.gramSize) := by
  by_cases hgram : s.gramSize ≤ s.maxGram
  · obtain ⟨s', hemit, hreads, hnext, hmax⟩ := h.edge_emits hall hgram (by omega)
    rw [gramsAt_cons hgram (by omega), ← hnext, ← hmax]
    rintro ⟨rounds, t, hreturn, hrest⟩
    cases rounds with
    | zero => cases hreturn
    | succ rounds =>
        rw [hemit rounds] at hreturn
        cases hreturn
        exact hreads.not_edge_tokenizes hall (by omega) hrest
  · rw [gramsAt_eq_nil (by omega)]
    rintro ⟨rounds, t, hreturn, -⟩
    rw [h.edge_loops (by omega) hlength rounds] at hreturn
    cases hreturn
termination_by s.maxGram + 1 - s.gramSize
decreasing_by omega

variable {minGram maxGram : Nat} (sizes : Nat → Nat)

theorem new_spec (hmin : 1 ≤ minGram) (hle : minGram ≤ maxGram) (hsize : 2 * maxGram + 1024 < 2 ^ 31) :
    ∃ s, new minGram maxGram (.ofInput text sizes) = .ok s ∧ Reads text 0 s ∧ s.gramSize = minGram ∧ s.minGram = minGram ∧
      s.maxGram = maxGram := by
  have hint : int32 (2 * maxGram + 1024) = .ok ((2 * maxGram + 1024 : Nat) : Int) := int32_eq (by omega) (by omega)
  rw [new, if_neg (by omega), if_neg (by omega), hint]
  refine ⟨_, rfl, ?_, rfl, rfl, rfl⟩
  have hlength : (List.replicate (2 * maxGram + 1024) (⟨0, by decide⟩ : WChar)).length = 2 * maxGram + 1024 :=
    List.length_replicate
  exact {
    one_le := hmin
    min_le := hle
    size := hlength
    size_lt := hlength.symm ▸ hsize
    offset_eq := rfl
    start_le := le_rfl
    end_le := le_rfl
    rest := by
      rw [window]
      simp [resetState, ChunkedReader.ofInput]
    p_le := Nat.zero_le _
    exhausted_iff := by simp [resetState]
    done := fun hexhausted => absurd hexhausted Bool.false_ne_true
    started := .inr ⟨rfl, rfl⟩
    nonToken := by simp [resetState]
    checked_ge := by simp [resetState]
    checked_lt := by simp only [resetState]; omega
    checked_start := fun hlt => absurd hlt (lt_irrefl _)
    gramSize_ge := le_rfl
    gramSize_le := by simp only [resetState]; omega }

/-- The n-gram tokenizer has the grams of the text as tokens, returns `false` after them, and ends with the text's length. -/
def NGramExact (isTokenChar : WChar → Bool) (minGram maxGram : Nat) (text : WString) (sizes : Nat → Nat) : Prop :=
  ∃ s, new minGram maxGram (.ofInput text sizes) = .ok s ∧
    Tokenizes (incrementToken isTokenChar) (fun s => s.finalOffset = .ok (text.length : Int)) s (grams minGram maxGram text)

/-- The edge tokenizer has the prefixes of the text as tokens, and returns `false` after them. -/
def EdgeExact (isTokenChar : WChar → Bool) (minGram maxGram : Nat) (text : WString) (sizes : Nat → Nat) : Prop :=
  ∃ s, new minGram maxGram (.ofInput text sizes) = .ok s ∧
    Tokenizes (incrementEdgeToken isTokenChar) (fun _ => True) s (gramsAt maxGram text 0 minGram)

theorem not_edgeExact (hmin : 1 ≤ minGram) (hle : minGram ≤ maxGram) (hall : ∀ c ∈ text, isTokenChar c = true)
    (hsize : 2 * maxGram + 1024 < 2 ^ 31) (hlength : 2 * maxGram + 1024 ≤ text.length) :
    ¬ EdgeExact isTokenChar minGram maxGram text sizes := by
  rintro ⟨s, hs, htokens⟩
  obtain ⟨t, hnew, hreads, hgramSize, -, hmaxGram⟩ := @new_spec text _ _ sizes hmin hle hsize
  rw [hnew] at hs
  cases hs
  rw [← hmaxGram, ← hgramSize] at htokens
  exact hreads.not_edge_tokenizes hall (by omega) htokens

theorem new_of_size_ge {input : ChunkedReader WChar} (hsize : 2 ^ 31 ≤ 2 * maxGram + 1024) :
    ∀ s, new minGram maxGram input ≠ .ok s := by
  intro s hs
  have hint : int32 (2 * maxGram + 1024) = .error .overflow := if_neg (by omega)
  rw [new, hint] at hs
  split at hs
  · cases hs
  · split at hs
    · cases hs
    · cases hs

theorem grams_eq (hmin : 1 ≤ minGram) :
    grams minGram maxGram text = gramsAt maxGram text 0 minGram ++ gramsFrom minGram maxGram text 1 := by
  rw [grams]
  rcases Nat.eq_zero_or_pos text.length with hzero | hpos
  · rw [gramsFrom_eq_nil (by omega), gramsFrom_eq_nil (by omega), gramsAt_eq_nil (by omega), List.append_nil]
  · exact gramsFrom_cons hpos

theorem int32_ne_ok {x y : Int} (h : 2 ^ 31 ≤ y) : int32 x ≠ .ok y := by
  rw [int32]
  split
  · intro heq
    have hxy := Except.ok.inj heq
    omega
  · exact nofun

/-- The n-gram tokenizer is exact as far as the offsets are an `int32_t`, the edge tokenizer for what does not fill the buffer. -/
theorem tokenizers_iff (hmin : 1 ≤ minGram) (hle : minGram ≤ maxGram) (hall : ∀ c ∈ text, isTokenChar c = true) :
    (NGramExact isTokenChar minGram maxGram text sizes ↔ 2 * maxGram + 1024 < 2 ^ 31 ∧ text.length < 2 ^ 31) ∧
      (EdgeExact isTokenChar minGram maxGram text sizes ↔
        2 * maxGram + 1024 < 2 ^ 31 ∧ text.length < 2 * maxGram + 1024) := by
  by_cases hsize : 2 * maxGram + 1024 < 2 ^ 31
  · obtain ⟨s, hnew, hreads, hgramSize, hminGram, hmaxGram⟩ := @new_spec text _ _ sizes hmin hle hsize
    constructor
    · simp only [NGramExact, hnew, Except.ok.injEq, exists_eq_left', hsize, true_and]
      constructor
      · intro h
        by_contra hge
        obtain ⟨t, hfinal⟩ := h.exists_final
        rw [finalOffset] at hfinal
        cases hint : int32 (t.offset + (t.bufferEnd - t.bufferStart : Nat)) with
        | error e =>
            rw [hint] at hfinal
            cases hfinal
        | ok x =>
            rw [hint] at hfinal
            have hx : x = text.length := Except.ok.inj hfinal
            exact int32_ne_ok (by omega) (hx ▸ hint)
      · intro hlength
        have htokens := hreads.tokenizes hall hlength
        rw [hgramSize, hminGram, hmaxGram, ← grams_eq hmin] at htokens
        exact htokens
    · constructor
      · intro h
        refine ⟨hsize, ?_⟩
        by_contra hge
        exact not_edgeExact sizes hmin hle hall hsize (by omega) h
      · rintro ⟨-, hlength⟩
        have htokens := hreads.edge_tokenizes hall (by omega)
        rw [hgramSize, hmaxGram] at htokens
        exact ⟨s, hnew, htokens⟩
  · constructor
    · refine ⟨fun ⟨s, hs, _⟩ => absurd hs (new_of_size_ge (by omega) s), fun h => absurd h.1 hsize⟩
    · refine ⟨fun ⟨s, hs, _⟩ => absurd hs (new_of_size_ge (by omega) s), fun h => absurd h.1 hsize⟩

theorem tokenizers_iff_two : (1 ≤ 1 ∧ 1 ≤ 2 ∧ ∀ c ∈ ([⟨97, by decide⟩] : WString), (fun _ : WChar => true) c = true) ∧
    (NGramExact (fun _ => true) 1 2 [⟨97, by decide⟩] (fun _ => 0) ↔
      2 * 2 + 1024 < 2 ^ 31 ∧ ([⟨97, by decide⟩] : WString).length < 2 ^ 31) ∧
      (EdgeExact (fun _ => true) 1 2 [⟨97, by decide⟩] (fun _ => 0) ↔
        2 * 2 + 1024 < 2 ^ 31 ∧ ([⟨97, by decide⟩] : WString).length < 2 * 2 + 1024) :=
  ⟨⟨le_rfl, by decide, by simp⟩, tokenizers_iff (fun _ => 0) le_rfl (by decide) (by simp)⟩

/-- As many characters as the buffer has for grams of one character. -/
def fullText : WString := List.replicate 1026 ⟨97, by decide⟩

/-- The second call of the edge tokenizer never returns. -/
theorem full_buffer_loops : ¬ EdgeExact (fun _ => true) 1 1 fullText (fun _ => 1025) :=
  not_edgeExact (fun _ => 1025) le_rfl le_rfl (fun _ _ => rfl) (by decide) (by rw [fullText, List.length_replicate])

end NGramTokenizer
end LucenePlusPlus
