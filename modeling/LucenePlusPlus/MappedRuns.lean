import LucenePlusPlus.MappedText
import Mathlib.Data.List.Induction

/-!
`MappingCharFilter` goes through its input piece by piece, in whatever calls it is read.
-/

namespace LucenePlusPlus.MappingCharFilter
open NormalizeCharMap (begins value Represents begins_iff begins_mono begins_of_mem)

variable {keys : List WString} {entries : List (WString × WString)} {text t v w p : WString} {c : WChar}
  {map node : NormalizeCharMap} {s : MappingCharFilter}

theorem find_isSome_iff (h : Represents map entries) (hp : p ≠ []) :
    (∃ node, map.find p = some node) ↔ begins (entries.map Prod.fst) p := by
  have hinfo := h p
  rw [NormalizeCharMap.info] at hinfo
  constructor
  · rintro ⟨node, hnode⟩
    by_contra hbegins
    rw [hnode, if_neg (by simp [hp, hbegins])] at hinfo
    cases hinfo
  · intro hbegins
    rw [if_pos (.inr hbegins), Option.map_eq_some_iff] at hinfo
    obtain ⟨node, hnode, -⟩ := hinfo
    exact ⟨node, hnode⟩

theorem value_of_find (h : Represents map entries) (hfind : map.find p = some node) :
    (node.normStr, node.diff) = value entries p := by
  have hinfo := h p
  rw [NormalizeCharMap.info, hfind, Option.map_some] at hinfo
  split at hinfo
  · exact Option.some.inj hinfo
  · cases hinfo

theorem submap_isEmpty_iff : node.submap.isEmpty = true ↔ ∀ c, node.get c = none := by
  rw [List.isEmpty_iff]
  constructor
  · intro h c
    rw [NormalizeCharMap.get, h]
    rfl
  · intro h
    cases hsub : node.submap with
    | nil => rfl
    | cons edge edges =>
      have := h edge.1
      rw [NormalizeCharMap.get, hsub, List.lookup_cons_self] at this
      cases this

theorem goesOn_iff : goesOn keys w = true ↔ ∃ c, begins keys (w ++ [c]) := by
  rw [goesOn, List.any_eq_true]
  constructor
  · rintro ⟨key, hkey, h⟩
    rw [Bool.and_eq_true, List.isPrefixOf_iff_prefix, decide_eq_true_iff] at h
    obtain ⟨⟨rest, rfl⟩, hne⟩ := h
    cases rest with
    | nil => exact absurd (List.append_nil w) hne
    | cons c rest => exact ⟨c, begins_iff.mpr ⟨_, hkey, rest, by rw [List.append_assoc, List.singleton_append]⟩⟩
  · rintro ⟨c, h⟩
    obtain ⟨key, hkey, rest, rfl⟩ := begins_iff.mp h
    refine ⟨_, hkey, ?_⟩
    rw [Bool.and_eq_true, List.isPrefixOf_iff_prefix, decide_eq_true_iff, List.append_assoc]
    exact ⟨List.prefix_append _ _, by simp⟩

theorem goesOn_eq (h : Represents map entries) (hfind : map.find w = some node) :
    goesOn (entries.map Prod.fst) w = !node.submap.isEmpty := by
  rw [Bool.eq_iff_iff, goesOn_iff, Bool.not_eq_true', ← Bool.not_eq_true, submap_isEmpty_iff, not_forall]
  refine exists_congr fun c => ?_
  rw [← find_isSome_iff h (by simp), NormalizeCharMap.find_snoc hfind]
  exact Option.ne_none_iff_exists'.symm

theorem nextChar_of_nil (h : s.remaining = []) :
    s.nextChar = (none, { s with nextCharCounter := s.nextCharCounter + 1 }) := by
  rw [remaining, List.append_eq_nil_iff] at h
  rw [nextChar]
  simp only [h.1]
  rw [ChunkedReader.readOne, h.2]

theorem nextChar_of_cons (h : s.remaining = c :: t) :
    ∃ buffer input, s.nextChar = (some c, { s with nextCharCounter := s.nextCharCounter + 1, buffer, input }) ∧
      buffer ++ input.rest = t := by
  rw [remaining] at h
  rw [nextChar]
  cases hbuffer : s.buffer with
  | cons d buffer =>
    rw [hbuffer, List.cons_append, List.cons.injEq] at h
    obtain ⟨rfl, rfl⟩ := h
    exact ⟨buffer, s.input, rfl, rfl⟩
  | nil =>
    rw [hbuffer, List.nil_append] at h
    refine ⟨[], { s.input with rest := t }, ?_, rfl⟩
    rw [ChunkedReader.readOne, h]

/-- From the node of `p`, the characters `v` can be walked, and no more; the end of the input is seen when there is
no other character and the node has a submap. -/
theorem matchMap_spec {rounds : Nat} (hnode : map.find p = some node) (hrounds : s.remaining.length < rounds) :
    ∃ v buffer input node', s.remaining = v ++ (buffer ++ input.rest) ∧ map.find (p ++ v) = some node' ∧
      (∀ d t, buffer ++ input.rest = d :: t → map.find (p ++ v ++ [d]) = none) ∧
      s.matchMap rounds node = some (node', { s with
        buffer
        input
        nextCharCounter := s.nextCharCounter + v.length +
          if (buffer ++ input.rest).isEmpty && !node'.submap.isEmpty then 1 else 0 }) := by
  induction rounds generalizing s p node with
  | zero => exact absurd hrounds (Nat.not_lt_zero _)
  | succ rounds ih =>
    rw [matchMap]
    by_cases hsub : node.submap.isEmpty = true
    · refine ⟨[], s.buffer, s.input, node, rfl, by rwa [List.append_nil], fun d t _ => ?_, ?_⟩
      · rw [List.append_nil, NormalizeCharMap.find_snoc hnode, submap_isEmpty_iff.mp hsub d]
      · rw [if_pos hsub, hsub, Bool.not_true, Bool.and_false]
        simp
    · rw [if_neg hsub]
      cases ht : s.remaining with
      | nil =>
        refine ⟨[], s.buffer, s.input, node, (List.nil_append _).symm ▸ ht.symm, by rwa [List.append_nil],
          fun d t h => absurd (ht.symm.trans h) (by simp), ?_⟩
        rw [nextChar_of_nil ht, ← remaining, ht, List.isEmpty_nil, Bool.eq_false_iff.mpr hsub]
        simp
      | cons c t =>
        obtain ⟨buffer, input, hnext, hrest⟩ := nextChar_of_cons ht
        rw [hnext]
        dsimp only
        cases hget : node.get c with
        | some subMap =>
          have hfind : map.find (p ++ [c]) = some subMap := by rw [NormalizeCharMap.find_snoc hnode, hget]
          obtain ⟨v, buffer', input', node', hv, hnode', hstop, heq⟩ :=
            @ih (p ++ [c]) subMap { s with nextCharCounter := s.nextCharCounter + 1, buffer, input } hfind (by
              rw [remaining, hrest]
              rw [ht, List.length_cons] at hrounds
              omega)
          rw [remaining, hrest] at hv
          rw [List.append_assoc, List.singleton_append] at hnode' hstop
          refine ⟨c :: v, buffer', input', node', by rw [hv, List.cons_append], hnode', hstop, ?_⟩
          dsimp only
          rw [heq]
          simp only [List.length_cons, Nat.cast_add, Nat.cast_one, Option.some.injEq, Prod.mk.injEq, true_and]
          congr 1
          omega
        | none =>
          refine ⟨[], c :: buffer, input, node, by rw [List.nil_append, List.cons_append, hrest],
            by rwa [List.append_nil], ?_, ?_⟩
          · rintro d t' h
            obtain ⟨rfl, -⟩ := List.cons.inj h
            rw [List.append_nil, NormalizeCharMap.find_snoc hnode, hget]
          · rw [pushChar]
            simp

/-- What is walked from the first character on is the longest beginning that is one of a match string. -/
theorem walked_eq {rest : WString} (h : Represents map entries) (hnode : map.find (c :: v) = some node)
    (hstop : ∀ d t, rest = d :: t → map.find (c :: v ++ [d]) = none) :
    walked (entries.map Prod.fst) (c :: v ++ rest) = some (c :: v) := by
  have hbegins := (find_isSome_iff h (List.cons_ne_nil c v)).mp ⟨node, hnode⟩
  refine LongestPrefix.eq_some_iff.mpr ⟨List.prefix_append _ _, ?_, fun u hu hPu => ?_⟩
  · rw [Bool.and_eq_true, decide_eq_true_iff]
    exact ⟨List.cons_ne_nil c v, hbegins⟩
  · rw [Bool.and_eq_true, decide_eq_true_iff] at hPu
    by_contra hlong
    obtain ⟨u', rfl⟩ := List.prefix_of_prefix_length_le (List.prefix_append (c :: v) rest) hu (by omega)
    cases u' with
    | nil => rw [List.append_nil] at hlong; omega
    | cons d u' =>
      obtain ⟨t, rfl⟩ := (List.prefix_append_right_inj _).mp hu
      have hd : begins (entries.map Prod.fst) (c :: v ++ [d]) :=
        begins_mono ⟨u', by rw [List.append_assoc, List.singleton_append]⟩ hPu.2
      obtain ⟨node', hnode'⟩ := (find_isSome_iff h (by simp)).mpr hd
      rw [hstop d _ List.cons_append] at hnode'
      cases hnode'

theorem walked_eq_none (h : Represents map entries) (hget : map.get c = none) :
    walked (entries.map Prod.fst) (c :: t) = none := by
  refine LongestPrefix.eq_none_iff.mpr fun u hu => Bool.eq_false_iff.mpr fun hPu => ?_
  rw [Bool.and_eq_true, decide_eq_true_iff] at hPu
  obtain ⟨d, u, rfl⟩ := List.exists_cons_of_ne_nil hPu.1
  obtain ⟨rfl, -⟩ := List.cons_prefix_cons.mp hu
  obtain ⟨node, hnode⟩ := (find_isSome_iff h hPu.1).mpr hPu.2
  rw [NormalizeCharMap.find_cons, hget] at hnode
  cases hnode

/-- What is recorded for a difference, when the counter stands at `counter` and `prev` is the difference so far. -/
def corrected (diff counter prev : Int) : List (Int × Int) :=
  if diff < 0 then (List.range (-diff).toNat).map fun (i : Nat) => (counter + i - prev, prev - 1 - i)
  else if diff > 0 then [(counter - diff - prev, prev + diff)]
  else []

/-- For a piece that is taken after `consumed` characters. -/
def Piece.corrections (piece : Piece) (consumed prev : Int) : List (Int × Int) :=
  corrected piece.diff (consumed + piece.source.length + if piece.peeked then 1 else 0) prev

def corrections (consumed prev : Int) : List Piece → List (Int × Int)
  | [] => []
  | piece :: rest =>
      piece.corrections consumed prev ++ corrections (consumed + piece.source.length) (prev + piece.diff) rest

def sumDiffs (pieces : List Piece) : Int := (pieces.map Piece.diff).sum

theorem sources_append (a b : List Piece) : sources (a ++ b) = sources a ++ sources b := List.flatMap_append

theorem targets_append (a b : List Piece) : targets (a ++ b) = targets a ++ targets b := List.flatMap_append

theorem sources_cons (piece : Piece) (rest : List Piece) : sources (piece :: rest) = piece.source ++ sources rest :=
  List.flatMap_cons

theorem sumDiffs_cons (piece : Piece) (rest : List Piece) : sumDiffs (piece :: rest) = piece.diff + sumDiffs rest := by
  rw [sumDiffs, List.map_cons, List.sum_cons, ← sumDiffs]

theorem corrections_append (consumed prev : Int) (done rest : List Piece) :
    corrections consumed prev (done ++ rest) = corrections consumed prev done ++
      corrections (consumed + (sources done).length) (prev + sumDiffs done) rest := by
  induction done generalizing consumed prev with
  | nil => simp [corrections, sources, sumDiffs]
  | cons first done ih =>
    rw [List.cons_append, corrections, corrections, ih, List.append_assoc, sources_cons, sumDiffs_cons,
      List.length_append, Nat.cast_add, add_assoc, add_assoc]

theorem corrections_snoc (consumed prev : Int) (done : List Piece) (piece : Piece) :
    corrections consumed prev (done ++ [piece]) = corrections consumed prev done ++
      piece.corrections (consumed + (sources done).length) (prev + sumDiffs done) := by
  rw [corrections_append, corrections, corrections, List.append_nil]

theorem getLastD_corrected (diff counter prev : Int) :
    ((corrected diff counter prev).map Prod.snd).getLastD prev = prev + diff := by
  rw [corrected]
  split_ifs with hneg hpos
  · obtain ⟨n, hn⟩ : ∃ n, (-diff).toNat = n + 1 := Nat.exists_eq_succ_of_ne_zero (by omega)
    rw [hn, List.range_succ, List.map_append, List.map_append, List.map_singleton, List.map_singleton,
      List.getLastD_concat]
    omega
  · rfl
  · rw [List.map_nil, List.getLastD_nil]
    omega

theorem getLastD_append (a b : List Int) (d : Int) : (a ++ b).getLastD d = b.getLastD (a.getLastD d) := by
  induction b using List.reverseRecOn with
  | nil => rw [List.append_nil, List.getLastD_nil]
  | append_singleton b i _ => rw [← List.append_assoc, List.getLastD_concat, List.getLastD_concat]

theorem getLastD_corrections (consumed : Int) (done : List Piece) :
    ((corrections consumed 0 done).map Prod.snd).getLastD 0 = sumDiffs done := by
  induction done using List.reverseRecOn with
  | nil => rfl
  | append_singleton done piece ih =>
    rw [corrections_snoc, zero_add, List.map_append, getLastD_append, ih, Piece.corrections, getLastD_corrected,
      sumDiffs, sumDiffs, List.map_append, List.sum_append, List.map_singleton, List.sum_singleton]

theorem foldl_addOffCorrectMap (prev : Int) (g : Nat → Int) (is : List Nat) (s : MappingCharFilter) :
    is.foldl (fun s (i : Nat) => s.addOffCorrectMap (s.nextCharCounter + i - prev) (g i)) s =
      { s with
        offsets := s.offsets ++ is.map fun (i : Nat) => s.nextCharCounter + i - prev
        diffs := s.diffs ++ is.map g } := by
  induction is generalizing s with
  | nil => simp
  | cons i is ih => rw [List.foldl_cons, ih]; simp [addOffCorrectMap]

theorem replaceBy_eq (s : MappingCharFilter) (result : NormalizeCharMap) :
    s.replaceBy result =
      { s with
        replacement := result.normStr
        charPointer := 0
        offsets := s.offsets ++ (corrected result.diff s.nextCharCounter s.getLastCumulativeDiff).map Prod.fst
        diffs := s.diffs ++ (corrected result.diff s.nextCharCounter s.getLastCumulativeDiff).map Prod.snd } := by
  rw [replaceBy, corrected]
  simp only [getLastCumulativeDiff]
  split_ifs with hneg hpos
  · rw [foldl_addOffCorrectMap, List.map_map, List.map_map]
    rfl
  · rfl
  · simp

/-! ### The filter between two characters -/

/-- The pieces `done` have been taken, and the text `delivered` has been read. -/
structure Follows (entries : List (WString × WString)) (text : WString) (done : List Piece) (delivered : WString)
    (s : MappingCharFilter) : Prop where
  represents : Represents s.normMap entries
  pieces_eq : pieces entries text = done ++ pieces entries s.remaining
  delivered_eq : targets done = delivered ++ s.replacement.drop s.charPointer
  counter : s.remaining ≠ [] → s.nextCharCounter = (sources done).length
  offsets_eq : s.offsets = (corrections 0 0 done).map Prod.fst
  diffs_eq : s.diffs = (corrections 0 0 done).map Prod.snd

variable {done : List Piece} {delivered : WString}

theorem follows_new (h : Represents map entries) (text : WString) (sizes : Nat → Nat) :
    Follows entries text [] [] (new map (.ofInput text sizes)) where
  represents := h
  pieces_eq := rfl
  delivered_eq := rfl
  counter := fun _ => rfl
  offsets_eq := rfl
  diffs_eq := rfl

theorem Follows.output (h : Follows entries text done delivered s) :
    targets (pieces entries text) =
      delivered ++ (s.replacement.drop s.charPointer ++ targets (pieces entries s.remaining)) := by
  rw [h.pieces_eq, targets_append, h.delivered_eq, List.append_assoc]

theorem Follows.drained (h : Follows entries text done delivered s) {ch : WChar}
    (hch : s.replacement[s.charPointer]? = some ch) :
    Follows entries text done (delivered ++ [ch]) { s with charPointer := s.charPointer + 1 } where
  represents := h.represents
  pieces_eq := h.pieces_eq
  delivered_eq := by
    obtain ⟨hlt, hget⟩ := List.getElem?_eq_some_iff.mp hch
    rw [h.delivered_eq, List.drop_eq_getElem_cons hlt, hget, List.append_assoc, List.singleton_append]
  counter := h.counter
  offsets_eq := h.offsets_eq
  diffs_eq := h.diffs_eq

theorem Follows.copied (h : Follows entries text done delivered s) (ht : s.remaining = c :: t)
    (hdrop : s.replacement.drop s.charPointer = []) (hget : s.normMap.get c = none) {buffer : WString}
    {input : ChunkedReader WChar} (hrest : buffer ++ input.rest = t) :
    Follows entries text (done ++ [.copied c]) (delivered ++ [c])
      { s with nextCharCounter := s.nextCharCounter + 1, buffer, input } where
  represents := h.represents
  pieces_eq := by
    rw [remaining, hrest, h.pieces_eq, ht, pieces_cons_of_none (walked_eq_none h.represents hget), List.append_assoc,
      List.singleton_append]
  delivered_eq := by
    rw [targets_append, h.delivered_eq, hdrop, List.append_nil, List.append_nil]
    rfl
  counter := fun _ => by
    rw [h.counter (by rw [ht]; exact List.cons_ne_nil c t), sources_append, List.length_append]
    rfl
  offsets_eq := by rw [corrections_snoc, h.offsets_eq]; exact (congrArg _ (List.append_nil _)).symm
  diffs_eq := by rw [corrections_snoc, h.diffs_eq]; exact (congrArg _ (List.append_nil _)).symm

theorem Follows.replaced (h : Follows entries text done delivered s)
    (hdrop : s.replacement.drop s.charPointer = []) {buffer : WString} {input : ChunkedReader WChar}
    (ht : s.remaining = c :: v ++ (buffer ++ input.rest)) (hnode : s.normMap.find (c :: v) = some node)
    (hstop : ∀ d t, buffer ++ input.rest = d :: t → s.normMap.find (c :: v ++ [d]) = none) :
    Follows entries text (done ++ [.replaced entries (c :: v) (buffer ++ input.rest)]) delivered
      ({ s with
        buffer
        input
        nextCharCounter := s.nextCharCounter + (c :: v).length +
          if (buffer ++ input.rest).isEmpty && !node.submap.isEmpty then 1 else 0 }.replaceBy node) := by
  have hvalue := value_of_find h.represents hnode
  have hwalked : walked (entries.map Prod.fst) (c :: (v ++ (buffer ++ input.rest))) = some (c :: v) :=
    walked_eq h.represents hnode hstop
  have hcounter := h.counter (by rw [ht]; exact List.cons_ne_nil c _)
  have hprev : s.getLastCumulativeDiff = 0 + sumDiffs done := by
    rw [getLastCumulativeDiff, h.diffs_eq, getLastD_corrections, zero_add]
  have hcorrected : corrected node.diff (s.nextCharCounter + (c :: v).length +
      if (buffer ++ input.rest).isEmpty && !node.submap.isEmpty then 1 else 0) s.getLastCumulativeDiff =
      (Piece.replaced entries (c :: v) (buffer ++ input.rest)).corrections (0 + (sources done).length)
        (0 + sumDiffs done) := by
    rw [Piece.corrections, Piece.replaced, goesOn_eq h.represents hnode, hprev, hcounter, ← hvalue, zero_add, zero_add]
  rw [replaceBy_eq]
  constructor
  · exact h.represents
  · rw [h.pieces_eq, ht, List.append_assoc, List.cons_append, pieces_cons_of_some hwalked rfl]
    rfl
  · rw [targets_append, h.delivered_eq, hdrop, List.append_nil, List.drop_zero]
    rw [targets_cons, Piece.replaced, ← hvalue]
    exact congrArg _ (List.append_nil _)
  · intro hrest
    have hempty : (buffer ++ input.rest).isEmpty = false := Bool.eq_false_iff.mpr (fun h => hrest (List.isEmpty_iff.mp h))
    dsimp only
    rw [hempty, Bool.false_and, hcounter, sources_append, List.length_append]
    simp [sources, Piece.replaced]
  · dsimp only [getLastCumulativeDiff] at hcorrected ⊢
    rw [corrections_snoc, List.map_append, ← hcorrected, ← h.offsets_eq]
  · dsimp only [getLastCumulativeDiff] at hcorrected ⊢
    rw [corrections_snoc, List.map_append, ← hcorrected, ← h.diffs_eq]

theorem readLoop_spec {rounds : Nat} (h : Follows entries text done delivered s)
    (hrounds : s.remaining.length + 2 ≤ rounds) :
    ∃ c s' done', readLoop rounds s = some (c, s') ∧ Follows entries text done' (delivered ++ c.toList) s' ∧
      (c = none → done' = pieces entries text ∧ targets done' = delivered) := by
  induction rounds generalizing s done with
  | zero => omega
  | succ rounds ih =>
    rw [readLoop]
    cases hch : s.replacement[s.charPointer]? with
    | some ch => exact ⟨some ch, _, done, rfl, h.drained hch, fun hnone => absurd hnone (by simp)⟩
    | none =>
      have hdrop : s.replacement.drop s.charPointer = [] := List.drop_eq_nil_iff.mpr (List.getElem?_eq_none_iff.mp hch)
      cases ht : s.remaining with
      | nil =>
        rw [nextChar_of_nil ht]
        have hdone : done = pieces entries text := by
          rw [h.pieces_eq, ht, pieces_nil, List.append_nil]
        refine ⟨none, _, done, rfl, ?_, fun _ => ⟨hdone, by rw [h.delivered_eq, hdrop, List.append_nil]⟩⟩
        exact ⟨h.represents, h.pieces_eq, by rw [Option.toList_none, List.append_nil]; exact h.delivered_eq,
          fun hne => absurd ht hne, h.offsets_eq, h.diffs_eq⟩
      | cons c t =>
        obtain ⟨buffer, input, hnext, hrest⟩ := nextChar_of_cons ht
        rw [hnext]
        dsimp only
        cases hget : s.normMap.get c with
        | none =>
          exact ⟨some c, _, _, rfl, h.copied ht hdrop hget hrest, fun hnone => absurd hnone (by simp)⟩
        | some nm =>
          have hnm : s.normMap.find [c] = some nm := by
            rw [NormalizeCharMap.find_cons, hget]
            rfl
          obtain ⟨v, buffer', input', node, hv, hnode, hstop, heq⟩ :=
            @matchMap_spec _ _ _ { s with nextCharCounter := s.nextCharCounter + 1, buffer, input } _ hnm
              (Nat.lt_succ_self _)
          dsimp only
          rw [heq]
          dsimp only
          rw [remaining, hrest] at hv
          have htext : s.remaining = c :: v ++ (buffer' ++ input'.rest) := by rw [ht, hv, List.cons_append]
          have hcount : s.nextCharCounter + 1 + (v.length : Int) = s.nextCharCounter + ((c :: v).length : Nat) := by
            rw [List.length_cons]
            omega
          rw [hcount]
          refine ih (h.replaced hdrop htext hnode hstop) ?_
          rw [replaceBy_eq, remaining]
          rw [htext, List.length_append, List.length_cons] at hrounds
          dsimp only
          omega

theorem read_spec (h : Follows entries text done delivered s) :
    ∃ c s' done', s.read = some (c, s') ∧ Follows entries text done' (delivered ++ c.toList) s' ∧
      (c = none → done' = pieces entries text ∧ targets done' = delivered) :=
  readLoop_spec h (Nat.le_refl _)

theorem foldl_pushLastChar (chars : WString) (s : MappingCharFilter) :
    chars.foldl pushLastChar s = { s with buffer := s.buffer ++ chars } := by
  induction chars generalizing s with
  | nil => rw [List.foldl_nil, List.append_nil]
  | cons c chars ih => rw [List.foldl_cons, ih, pushLastChar, List.append_assoc, List.singleton_append]

theorem Follows.readAhead (h : Follows entries text done delivered s) (length : Nat) :
    Follows entries text done delivered (s.readAhead length) := by
  obtain ⟨buffer, input, heq, hrest⟩ : ∃ buffer input, s.readAhead length = { s with buffer, input } ∧
      buffer ++ input.rest = s.remaining := by
    rw [MappingCharFilter.readAhead]
    obtain heq | ⟨chunk, input, heq, hrest⟩ := s.input.read_cases length
    · rw [heq]
      exact ⟨s.buffer, s.input, rfl, rfl⟩
    · rw [heq]
      exact ⟨s.buffer ++ chunk, input, foldl_pushLastChar chunk _, by rw [List.append_assoc, ← hrest, remaining]⟩
  rw [heq]
  exact ⟨h.represents, by rw [remaining, hrest]; exact h.pieces_eq, h.delivered_eq,
    by rw [remaining, hrest]; exact h.counter, h.offsets_eq, h.diffs_eq⟩

theorem readChars_spec (length : Nat) (h : Follows entries text done delivered s) :
    ∃ chars s' done', readChars length s = some (chars, s') ∧ Follows entries text done' (delivered ++ chars) s' ∧
      chars.length ≤ length ∧
      (chars.length < length → done' = pieces entries text ∧ targets done' = delivered ++ chars) := by
  induction length generalizing s done delivered with
  | zero =>
    exact ⟨[], s, done, rfl, by rwa [List.append_nil], Nat.le_refl 0, fun hlt => absurd hlt (Nat.lt_irrefl 0)⟩
  | succ length ih =>
    rw [readChars]
    obtain ⟨c, s', done', hread, h', hend⟩ := read_spec h
    rw [hread]
    cases c with
    | none =>
      refine ⟨[], s', done', rfl, h', Nat.zero_le _, fun _ => ?_⟩
      rw [List.append_nil]
      exact hend rfl
    | some c =>
      obtain ⟨chars, s'', done'', hchars, h'', hle, hend⟩ := ih h'
      dsimp only
      rw [hchars]
      rw [Option.toList_some, List.append_assoc, List.singleton_append] at h'' hend
      exact ⟨c :: chars, s'', done'', rfl, h'', Nat.succ_le_succ hle, fun hlt => hend (Nat.lt_of_succ_lt_succ hlt)⟩

/-- A call that returns −1 only at the end. -/
def Call.asks : Call → Prop
  | .read => True
  | .readBuffer length => 0 < length

variable {rest : WString}

theorem call_spec (next : Call) (h : Follows entries text done delivered s)
    (hrest : targets (pieces entries text) = delivered ++ rest) :
    ∃ s' done' delivered', s.call next = some ((Cursor.call rest next).1, s') ∧
      Follows entries text done' delivered' s' ∧
      targets (pieces entries text) = delivered' ++ (Cursor.call rest next).2 ∧
      (next.asks → (Cursor.call rest next).1 = none → done' = pieces entries text) := by
  cases next with
  | read =>
    obtain ⟨c, s', done', hread, h', hend⟩ := read_spec h
    rw [call, hread]
    cases c with
    | none =>
      obtain ⟨hdone, htargets⟩ := hend rfl
      rw [← hdone, htargets, List.self_eq_append_right] at hrest
      subst hrest
      rw [Option.toList_none, List.append_nil] at h'
      refine ⟨s', done', delivered, rfl, h', ?_, fun _ _ => hdone⟩
      rw [← hdone, htargets]
      exact (List.append_nil _).symm
    | some c =>
      have hout := h'.output
      rw [hrest, List.append_assoc, List.append_cancel_left_eq, Option.toList_some, List.singleton_append] at hout
      rw [hrest, hout]
      refine ⟨s', done', delivered ++ [c], rfl, h', ?_, fun _ hnone => absurd hnone (Option.some_ne_none _)⟩
      rw [List.append_assoc]
      rfl
  | readBuffer length =>
    obtain ⟨chars, s', done', hread, h', hle, hend⟩ := readChars_spec length (h.readAhead length)
    have hout := h'.output
    rw [hrest, List.append_assoc, List.append_cancel_left_eq] at hout
    have htake : rest.take length = chars ∧ delivered ++ rest = delivered ++ chars ++ rest.drop length := by
      obtain heq | hlt := Nat.eq_or_lt_of_le hle
      · rw [hout, ← heq, List.take_left, List.drop_left, List.append_assoc]
        exact ⟨rfl, rfl⟩
      · obtain ⟨hdone, htargets⟩ := hend hlt
        rw [← hdone, htargets, List.append_cancel_left_eq] at hrest
        rw [← hrest, List.take_of_length_le hle, List.drop_of_length_le hle, List.append_nil]
        exact ⟨rfl, rfl⟩
    rw [call, readBuffer, hread, Cursor.call, htake.1]
    refine ⟨s', done', delivered ++ chars, ?_, h', hrest.trans htake.2, fun hasks hnone => ?_⟩
    · simp only [List.length_eq_zero_iff]
    · by_cases hchars : chars = []
      · subst hchars
        exact (hend hasks).1
      · rw [if_neg hchars] at hnone
        cases hnone

theorem run_append {s₁ s₂ : MappingCharFilter} {calls : List Call} {results : List (Option WString)} {last : Call}
    {result : Option WString} (hrun : s.run calls = some (results, s₁)) (hcall : s₁.call last = some (result, s₂)) :
    s.run (calls ++ [last]) = some (results ++ [result], s₂) := by
  induction calls generalizing s results with
  | nil =>
    cases hrun
    rw [List.nil_append, run, hcall]
    rfl
  | cons next calls ih =>
    rw [run] at hrun
    cases hnext : s.call next with
    | none => rw [hnext] at hrun; cases hrun
    | some first =>
      rw [hnext] at hrun
      dsimp only at hrun
      cases hrest : first.2.run calls with
      | none => rw [hrest] at hrun; cases hrun
      | some others =>
        rw [hrest] at hrun
        cases hrun
        rw [List.cons_append, run, hnext]
        dsimp only
        rw [ih hrest]
        rfl

theorem run_spec (calls : List Call) (h : Follows entries text done delivered s)
    (hrest : targets (pieces entries text) = delivered ++ rest) :
    ∃ s' done' delivered', s.run calls = some ((Cursor.run rest calls).1, s') ∧
      Follows entries text done' delivered' s' ∧
      targets (pieces entries text) = delivered' ++ (Cursor.run rest calls).2 := by
  induction calls generalizing s done delivered rest with
  | nil => exact ⟨s, done, delivered, rfl, h, hrest⟩
  | cons next calls ih =>
    obtain ⟨s₁, done₁, delivered₁, hcall, h₁, hrest₁, -⟩ := call_spec next h hrest
    obtain ⟨s', done', delivered', hrun, h', hrest'⟩ := ih h₁ hrest₁
    refine ⟨s', done', delivered', ?_, h', hrest'⟩
    rw [run, hcall]
    dsimp only
    rw [hrun]
    rfl

/-- The map of the entries, and the calls on a filter over the text. -/
def runOn (entries : List (WString × WString)) (sizes : Nat → Nat) (text : WString) (calls : List Call) :
    Option (List (Option WString) × MappingCharFilter) :=
  (NormalizeCharMap.new.addAll entries).bind fun map => (new map (.ofInput text sizes)).run calls

theorem runOn_eq (hkeys : (entries.map Prod.fst).Nodup) (sizes : Nat → Nat) (text : WString) (calls : List Call) :
    (runOn entries sizes text calls).map Prod.fst = some (Cursor.run (targets (pieces entries text)) calls).1 := by
  obtain ⟨map, hmap, hrepresents⟩ := NormalizeCharMap.exists_map hkeys
  obtain ⟨s, -, -, hrun, -⟩ := run_spec calls (follows_new hrepresents text sizes) (List.nil_append _).symm
  rw [runOn, hmap, Option.bind_some, hrun, Option.map_some]

/-- When a call that asks for a character has returned −1, all the pieces have been taken. -/
theorem follows_of_runOn (hkeys : (entries.map Prod.fst).Nodup) {sizes : Nat → Nat} {calls : List Call} {last : Call}
    {results : List (Option WString)} (hasks : last.asks)
    (hrun : runOn entries sizes text (calls ++ [last]) = some (results ++ [none], s)) :
    ∃ delivered, Follows entries text (pieces entries text) delivered s := by
  obtain ⟨map, hmap, hrepresents⟩ := NormalizeCharMap.exists_map hkeys
  obtain ⟨s₁, done₁, delivered₁, hrun₁, h₁, hrest₁⟩ :=
    run_spec calls (follows_new hrepresents text sizes) (List.nil_append _).symm
  obtain ⟨s₂, done₂, delivered₂, hcall, h₂, -, hend⟩ := call_spec last h₁ hrest₁
  rw [runOn, hmap, Option.bind_some, run_append hrun₁ hcall, Option.some.injEq, Prod.mk.injEq] at hrun
  obtain ⟨hresults, rfl⟩ := hrun
  have hnone := (List.append_inj' hresults rfl).2
  rw [List.singleton_inj] at hnone
  exact ⟨delivered₂, hend hasks hnone ▸ h₂⟩

theorem eq_of_run_eq {a b : WString} (h : ∀ calls, (Cursor.run a calls).1 = (Cursor.run b calls).1) : a = b := by
  have hrun := h [.readBuffer (max a.length b.length)]
  simp only [Cursor.run, Cursor.call, List.take_of_length_le (Nat.le_max_left a.length b.length),
    List.take_of_length_le (Nat.le_max_right a.length b.length), List.cons.injEq, and_true] at hrun
  split_ifs at hrun with ha hb hb
  · rw [ha, hb]
  · exact Option.some.inj hrun

/-- The text is rewritten from left to right by the longest match strings, whatever their replacements are, exactly when none
of the beginnings of match strings that are walked is a dead end. -/
theorem leftmost_longest_iff (hkeys : keys.Nodup) (text : WString) :
    (∀ replacement sizes calls, (runOn (withReplacement keys replacement) sizes text calls).map Prod.fst =
      some (Cursor.run (rewritten (withReplacement keys replacement) text) calls).1) ↔ NoDeadEnd keys text := by
  have hnodup : ∀ replacement, ((withReplacement keys replacement).map Prod.fst).Nodup := by
    intro replacement
    rwa [keys_withReplacement]
  constructor
  · intro h
    have htargets : targets (pieces (withReplacement keys id) text) = text := by
      refine eq_of_run_eq fun calls => ?_
      have := h id (fun _ => 0) calls
      rw [runOn_eq (hnodup id), rewritten_self] at this
      exact Option.some.inj this
    exact noDeadEnd_of_length_le (congrArg List.length htargets).ge
  · intro h replacement sizes calls
    rw [runOn_eq (hnodup replacement), targets_of_noDeadEnd (by rwa [keys_withReplacement])]

/-- With the match strings `a`, `ab` and `abc`, the text `abab` gives their replacements. -/
theorem leftmost_longest_iff_abab :
    (runOn (withReplacement [[⟨97, by decide⟩], [⟨97, by decide⟩, ⟨98, by decide⟩],
        [⟨97, by decide⟩, ⟨98, by decide⟩, ⟨99, by decide⟩]] fun _ => [⟨120, by decide⟩])
      (fun _ => 0) [⟨97, by decide⟩, ⟨98, by decide⟩, ⟨97, by decide⟩, ⟨98, by decide⟩] [.read, .readBuffer 3, .read]).map
        Prod.fst = some [some [⟨120, by decide⟩], some [⟨120, by decide⟩], none] :=
  ((leftmost_longest_iff (by decide) _).mpr (by decide +kernel) _ _ _).trans (by decide +kernel)

/-- The text `abd` and the match string `abc`: the characters `ab` are lost. -/
theorem walked_characters_are_lost : ¬∀ entries sizes text calls, (entries.map Prod.fst).Nodup →
    (runOn entries sizes text calls).map Prod.fst = some (Cursor.run (rewritten entries text) calls).1 := by
  intro h
  have hrun := h [([⟨97, by decide⟩, ⟨98, by decide⟩, ⟨99, by decide⟩], [⟨120, by decide⟩])] (fun _ => 0)
    [⟨97, by decide⟩, ⟨98, by decide⟩, ⟨100, by decide⟩] [.readBuffer 3] (by decide)
  revert hrun
  decide +kernel

end LucenePlusPlus.MappingCharFilter
