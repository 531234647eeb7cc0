import LucenePlusPlus.MappedRuns
import Mathlib.Data.Int.ConditionallyCompleteOrder
import Mathlib.Order.Monotone.Basic

/-!
The corrections that `MappingCharFilter` records bring an offset of its output back to the input.
-/

namespace LucenePlusPlus.MappingCharFilter

/-- The difference at an offset, when it is `d` before the first correction. -/
def diffAt (x : Int) : Int → List (Int × Int) → Int
  | d, [] => d
  | d, (off, diff) :: rest => if x < off then d else diffAt x diff rest

/-- The offsets ascend from `o` on, and no difference is less than the one before it by more than one. -/
def Ascends : Int → Int → List (Int × Int) → Prop
  | _, _, [] => True
  | o, d, (off, diff) :: rest => o < off ∧ d - 1 ≤ diff ∧ Ascends off diff rest

variable {o d o' x x' : Int} {a b corr : List (Int × Int)} {offsets : List Int}

theorem Ascends.mono (h : Ascends o d corr) (hle : o' ≤ o) : Ascends o' d corr := by
  cases corr with
  | nil => trivial
  | cons entry rest => exact ⟨lt_of_le_of_lt hle h.1, h.2⟩

theorem Ascends.lt_of_mem (h : Ascends o d corr) {entry : Int × Int} (hmem : entry ∈ corr) : o < entry.1 := by
  induction corr generalizing o d with
  | nil => cases hmem
  | cons first rest ih =>
    obtain rfl | hmem := List.mem_cons.mp hmem
    · exact h.1
    · exact h.1.trans (ih h.2.2 hmem)

theorem Ascends.sorted (h : Ascends o d corr) : (corr.map Prod.fst).Pairwise (· < ·) := by
  induction corr generalizing o d with
  | nil => exact List.Pairwise.nil
  | cons first rest ih =>
    refine List.pairwise_cons.mpr ⟨fun off hoff => ?_, ih h.2.2⟩
    obtain ⟨entry, hentry, rfl⟩ := List.mem_map.mp hoff
    exact h.2.2.lt_of_mem hentry

theorem Ascends.append (ha : Ascends o d a) (hlast : ∀ entry ∈ a, entry.1 ≤ o') (hle : o ≤ o')
    (hb : Ascends o' ((a.map Prod.snd).getLastD d) b) : Ascends o d (a ++ b) := by
  induction a generalizing o d with
  | nil => exact hb.mono hle
  | cons first rest ih =>
    rw [List.forall_mem_cons] at hlast
    refine ⟨ha.1, ha.2.1, ih ha.2.2 hlast.2 hlast.1 ?_⟩
    rwa [List.map_cons, List.getLastD_cons] at hb

theorem diffAt_append (h : ∀ entry ∈ a, entry.1 ≤ x) :
    diffAt x d (a ++ b) = diffAt x ((a.map Prod.snd).getLastD d) b := by
  induction a generalizing d with
  | nil => rfl
  | cons first rest ih =>
    rw [List.forall_mem_cons] at h
    rw [List.cons_append, diffAt, if_neg (not_lt.mpr h.1), ih h.2, List.map_cons, List.getLastD_cons]

theorem diffAt_of_lt (h : ∀ entry ∈ corr, x < entry.1) : diffAt x d corr = d := by
  cases corr with
  | nil => rfl
  | cons first rest => exact if_pos (h first List.mem_cons_self)

theorem Ascends.diffAt_succ (h : Ascends o d corr) : diffAt x d corr ≤ diffAt (x + 1) d corr + 1 := by
  induction corr generalizing o d with
  | nil =>
    rw [diffAt, diffAt]
    omega
  | cons first rest ih =>
    obtain ⟨off, diff⟩ := first
    rw [diffAt, diffAt]
    split_ifs with h₁ h₂ h₃
    · omega
    · have hd := h.2.1
      rw [diffAt_of_lt fun entry hentry => lt_of_le_of_lt (by omega) (h.2.2.lt_of_mem hentry)]
      omega
    · omega
    · exact ih h.2.2

theorem Ascends.monotone (h : Ascends o d corr) : Monotone fun x => x + diffAt x d corr :=
  monotone_int_of_le_succ fun x => by
    have := @Ascends.diffAt_succ o d x corr h
    omega

/-- Every offset before `lo` is less and every one after `hi` is more; the last place looked at is next to where they meet. -/
theorem search_spec (hsorted : offsets.Pairwise (· < ·)) {rounds : Nat} {lo hi mid : Int} (hlo : 0 ≤ lo)
    (hhi : hi < offsets.length) (hle : lo ≤ hi + 1) (hbelow : ∀ i (h : i < offsets.length), (i : Int) < lo → offsets[i] < x)
    (habove : ∀ i (h : i < offsets.length), hi < (i : Int) → x < offsets[i])
    (hmid : lo ≤ hi ∨ (0 ≤ mid ∧ mid < offsets.length ∧ (mid = lo - 1 ∨ mid = hi + 1))) (hrounds : hi + 1 - lo < rounds) :
    ∃ m : Nat, m < offsets.length ∧ search offsets x rounds lo hi mid = some (m : Int) ∧
      (∀ i (h : i < offsets.length), i < m → offsets[i] ≤ x) ∧
      ∀ i (h : i < offsets.length), m < i → x < offsets[i] := by
  induction rounds generalizing lo hi mid with
  | zero => omega
  | succ rounds ih =>
    rw [search]
    by_cases hcond : hi ≥ lo
    · have hlt : ((lo + hi) / 2).toNat < offsets.length := by omega
      rw [if_pos hcond]
      dsimp only
      rw [List.getElem?_eq_getElem hlt]
      dsimp only
      have hcast : (((lo + hi) / 2).toNat : Int) = (lo + hi) / 2 := Int.toNat_of_nonneg (by omega)
      have hmono : ∀ i j (hi : i < offsets.length) (hj : j < offsets.length), i < j → offsets[i] < offsets[j] :=
        fun i j hi hj => List.pairwise_iff_getElem.mp hsorted i j hi hj
      split_ifs with hless hmore
      · refine ih hlo (by omega) (by omega) hbelow (fun i h hlt' => ?_) (.inr (by omega)) (by omega)
        obtain heq | hgt := Nat.eq_or_lt_of_le (show ((lo + hi) / 2).toNat ≤ i by omega)
        · subst heq
          exact hless
        · exact hless.trans (hmono _ i hlt h hgt)
      · refine ih (by omega) hhi (by omega) (fun i h hlt' => ?_) habove (.inr (by omega)) (by omega)
        obtain heq | hgt := Nat.eq_or_lt_of_le (show i ≤ ((lo + hi) / 2).toNat by omega)
        · subst heq
          exact hmore
        · exact (hmono i _ h hlt hgt).trans hmore
      · have heq : offsets[((lo + hi) / 2).toNat] = x := by omega
        refine ⟨_, hlt, by rw [hcast], fun i h hi' => ?_, fun i h hi' => ?_⟩
        · exact ((hmono i _ h hlt hi').trans_eq heq).le
        · exact heq.symm.trans_lt (hmono _ i hlt h hi')
    · rw [if_neg hcond]
      obtain hcond' | ⟨hmid₀, hmid₁, hmid⟩ := hmid
      · exact absurd hcond' (by omega)
      · refine ⟨mid.toNat, by omega, by rw [Int.toNat_of_nonneg hmid₀], fun i h hi' => ?_, fun i h hi' => ?_⟩
        · exact (hbelow i h (by omega)).le
        · exact habove i h (by omega)

/-- Where the offsets up to place `m` are not more than `x` and the others are, `m` has the difference. -/
theorem diffAt_eq_getElem {m : Nat} (hm : m < corr.length)
    (hbelow : ∀ i (h : i < corr.length), i ≤ m → corr[i].1 ≤ x) (habove : ∀ i (h : i < corr.length), m < i → x < corr[i].1) :
    diffAt x 0 corr = corr[m].2 := by
  have hsplit : diffAt x 0 corr = diffAt x 0 (corr.take (m + 1) ++ corr.drop (m + 1)) := by rw [List.take_append_drop]
  rw [hsplit, diffAt_append, diffAt_of_lt]
  · rw [List.map_take, List.take_succ_eq_append_getElem (by rwa [List.length_map]), List.getLastD_concat, List.getElem_map]
  · intro entry hentry
    obtain ⟨i, hi, rfl⟩ := List.getElem_of_mem hentry
    rw [List.getElem_drop]
    exact habove _ _ (by omega)
  · intro entry hentry
    obtain ⟨i, hi, rfl⟩ := List.getElem_of_mem hentry
    rw [List.getElem_take]
    rw [List.length_take] at hi
    exact hbelow _ _ (by omega)

/-- Ascending corrections are found, and no place outside of the arrays is looked at. -/
theorem correctOffset_eq {s : MappingCharFilter} (h : Ascends o d corr) (hoffsets : s.offsets = corr.map Prod.fst)
    (hdiffs : s.diffs = corr.map Prod.snd) (x : Int) : s.correctOffset x = some (x + diffAt x 0 corr) := by
  rw [correctOffset, correct, hoffsets, hdiffs]
  have hsorted := h.sorted
  cases hc : corr with
  | nil => exact congrArg some (Int.add_zero x).symm
  | cons first rest =>
    rw [List.map_cons]
    dsimp only
    by_cases hfirst : x < first.1
    · rw [if_pos hfirst, diffAt, if_pos hfirst, Int.add_zero]
    · rw [if_neg hfirst, ← List.map_cons, ← hc]
      have hlen : (corr.map Prod.fst).length = corr.length := List.length_map ..
      have hpos : 0 < corr.length := by rw [hc]; exact Nat.succ_pos _
      have hhi : ((corr.map Prod.fst).length - 1 : Int).toNat = corr.length - 1 := by omega
      have hlast : corr.length - 1 < corr.length := by omega
      have hfirst' : (corr[0]).1 ≤ x := by
        simp only [hc, List.getElem_cons_zero]
        omega
      have hmono : ∀ i j (hi : i < corr.length) (hj : j < corr.length), i < j → corr[i].1 < corr[j].1 := by
        intro i j hi hj hij
        have := List.pairwise_iff_getElem.mp hsorted i j (by omega) (by omega) hij
        rwa [List.getElem_map, List.getElem_map] at this
      rw [hhi, List.getElem?_map, List.getElem?_eq_getElem hlast, List.getElem?_map, List.getElem?_eq_getElem hlast]
      simp only [Option.map_some, Option.bind_eq_bind, Option.bind_some, hlen]
      split_ifs with hge
      · rw [diffAt_eq_getElem hlast (fun i hi hle => ?_) fun i hi hlt => absurd hi (by omega)]
        obtain rfl | hlt := Nat.eq_or_lt_of_le hle
        · exact hge
        · exact ((hmono i _ hi hlast hlt).le).trans hge
      · obtain ⟨m, hm, hsearch, hbelow, habove⟩ := @search_spec x _ hsorted (corr.length + 1) 0 (corr.length - 1) (-1)
          (by omega) (by omega) (by omega) (fun i _ hlt => absurd hlt (by omega))
          (fun i hi hlt => absurd hlt (by omega)) (.inl (by omega)) (by omega)
        rw [hlen] at hm
        simp only [List.getElem_map] at hbelow habove
        rw [hsearch, Option.bind_some, Int.toNat_natCast, List.getElem?_map, List.getElem?_eq_getElem hm, Option.map_some,
          Option.bind_some]
        split_ifs with hless hzero
        · rw [Int.natCast_eq_zero] at hzero
          subst hzero
          exact absurd hless (not_lt.mpr hfirst')
        · have hm' : m - 1 < corr.length := by omega
          have hcast : ((m : Int) - 1).toNat = m - 1 := by omega
          rw [hcast, List.getElem?_map, List.getElem?_eq_getElem hm', Option.map_some, Option.bind_some,
            diffAt_eq_getElem hm' (fun i hi hle => hbelow i (by omega) (by omega)) fun i hi hlt => ?_]
          obtain rfl | hlt' := Nat.eq_or_lt_of_le (show m ≤ i by omega)
          · exact hless
          · exact habove i (by omega) hlt'
        · rw [List.getElem?_map, List.getElem?_eq_getElem hm, Option.map_some, Option.bind_some,
            diffAt_eq_getElem hm (fun i hi hle => ?_) fun i hi hlt => habove i (by omega) hlt]
          obtain rfl | hlt := Nat.eq_or_lt_of_le hle
          · exact not_lt.mp hless
          · exact hbelow i (by omega) hlt

/-! ### The pieces of a text -/

variable {entries : List (WString × WString)} {text : WString} {before rest ps : List Piece} {piece : Piece}
  {consumed prev : Int}

/-- What is so of the pieces of every text. -/
def WellTaken : List Piece → Prop
  | [] => True
  | piece :: rest =>
      piece.source ≠ [] ∧ (piece.target ≠ [] → piece.diff = piece.source.length - piece.target.length) ∧
        (piece.peeked → rest = []) ∧ WellTaken rest

theorem wellTaken_pieces (entries : List (WString × WString)) (text : WString) : WellTaken (pieces entries text) := by
  induction hn : text.length using Nat.strong_induction_on generalizing text with
  | _ n ih =>
    subst hn
    cases text with
    | nil => rw [pieces_nil]; trivial
    | cons c text =>
      obtain ⟨-, heq⟩ | ⟨w, rest, hwalked, -, hlen, heq⟩ := pieces_cases entries c text
      · rw [heq]
        exact ⟨List.cons_ne_nil _ _, fun _ => rfl, Bool.noConfusion, ih _ (Nat.lt_succ_self _) text rfl⟩
      · rw [heq]
        refine ⟨(walked_eq_some hwalked).1, fun htarget => ?_, fun hpeeked => ?_, ih _ (Nat.lt_succ_of_le hlen) rest rfl⟩
        · rw [Piece.replaced, NormalizeCharMap.value] at htarget ⊢
          cases hlookup : entries.lookup w with
          | none => rw [hlookup] at htarget; exact absurd rfl htarget
          | some replacement => rfl
        · rw [Piece.replaced, Bool.and_eq_true, List.isEmpty_iff] at hpeeked
          rw [hpeeked.1, pieces_nil]

theorem WellTaken.append (h : WellTaken (before ++ rest)) : WellTaken before ∧ WellTaken rest ∧
    (rest ≠ [] → ∀ piece ∈ before, piece.peeked = false) := by
  induction before with
  | nil => exact ⟨trivial, h, fun _ _ hmem => absurd hmem List.not_mem_nil⟩
  | cons first before ih =>
    obtain ⟨hsource, hdiff, hpeeked, htail⟩ := h
    obtain ⟨hbefore, hrest, hnot⟩ := ih htail
    refine ⟨⟨hsource, hdiff, fun hp => (List.append_eq_nil_iff.mp (hpeeked hp)).1, hbefore⟩, hrest, fun hne => ?_⟩
    rw [List.forall_mem_cons]
    exact ⟨Bool.eq_false_iff.mpr fun hp => hne (List.append_eq_nil_iff.mp (hpeeked hp)).2, hnot hne⟩

/-- Without empty replacements, the differences are what is missing in the output. -/
theorem WellTaken.sumDiffs_eq (h : WellTaken ps) (htargets : ∀ piece ∈ ps, piece.target ≠ []) :
    sumDiffs ps = (sources ps).length - (targets ps).length := by
  induction ps with
  | nil => rfl
  | cons piece rest ih =>
    rw [List.forall_mem_cons] at htargets
    rw [sumDiffs_cons, ih h.2.2.2 htargets.2, h.2.1 htargets.1, sources_cons, targets_cons, List.length_append,
      List.length_append, Nat.cast_add, Nat.cast_add]
    omega

theorem ascends_range' (n k : Nat) (h : o < x + k) (hd : d = prev - k) :
    Ascends o d ((List.range' k n).map fun (i : Nat) => (x + i, prev - 1 - i)) := by
  induction n generalizing o d k with
  | zero => trivial
  | succ n ih =>
    rw [List.range'_succ, List.map_cons]
    exact ⟨h, by omega, ih (k + 1) (by push_cast; omega) (by push_cast; omega)⟩

theorem ascends_piece (consumed prev : Int) (hsource : piece.source ≠ []) (htarget : piece.target ≠ [])
    (hdiff : piece.diff = piece.source.length - piece.target.length) :
    Ascends (consumed - prev) prev (piece.corrections consumed prev) := by
  have := List.length_pos_iff.mpr hsource
  have := List.length_pos_iff.mpr htarget
  rw [Piece.corrections, corrected]
  generalize hshift : (if piece.peeked = true then (1 : Int) else 0) = shift
  have hpos : 0 ≤ shift := by
    rw [← hshift]
    split <;> decide
  split_ifs
  · have hmap : (List.range (-piece.diff).toNat).map
        (fun (i : Nat) => (consumed + piece.source.length + shift + i - prev, prev - 1 - i)) =
        (List.range' 0 (-piece.diff).toNat).map
          fun (i : Nat) => (consumed + piece.source.length + shift - prev + i, prev - 1 - i) := by
      rw [List.range_eq_range']
      refine List.map_congr_left fun i _ => Prod.ext ?_ rfl
      dsimp only
      omega
    rw [hmap]
    exact ascends_range' _ 0 (by push_cast; omega) (by simp)
  · exact ⟨by omega, by omega, trivial⟩
  · trivial

/-- No correction for a piece comes after its end, unless the counter has moved at the end of the input. -/
theorem le_of_mem_corrections
    (hdiff : piece.diff = piece.source.length - piece.target.length) (hlate : ¬(piece.peeked ∧ 0 < piece.diff)) :
    ∀ entry ∈ piece.corrections consumed prev, entry.1 ≤ consumed - prev + piece.target.length := by
  intro entry hentry
  rw [Piece.corrections, corrected] at hentry
  generalize hshift : (if piece.peeked = true then (1 : Int) else 0) = shift at hentry
  have hle : shift ≤ 1 := by
    rw [← hshift]
    split <;> decide
  split_ifs at hentry with hneg hpos
  · obtain ⟨i, hi, rfl⟩ := List.mem_map.mp hentry
    rw [List.mem_range] at hi
    dsimp only
    omega
  · rw [List.mem_singleton] at hentry
    subst hentry
    have hzero : shift = 0 := by
      rw [← hshift, if_neg fun hpeeked => hlate ⟨hpeeked, hpos⟩]
    dsimp only
    omega
  · cases hentry

theorem getLastD_piece : ((piece.corrections consumed prev).map Prod.snd).getLastD prev = prev + piece.diff :=
  getLastD_corrected _ _ _

theorem ascends_corrections (consumed prev : Int) (h : WellTaken ps) (htargets : ∀ piece ∈ ps, piece.target ≠ []) :
    Ascends (consumed - prev) prev (corrections consumed prev ps) := by
  induction ps generalizing consumed prev with
  | nil => trivial
  | cons piece rest ih =>
    rw [List.forall_mem_cons] at htargets
    have hdiff := h.2.1 htargets.1
    have hpiece := ascends_piece consumed prev h.1 htargets.1 hdiff
    rw [corrections]
    cases hrest : rest with
    | nil => rwa [corrections, List.append_nil]
    | cons next others =>
      have hnot : ¬(piece.peeked ∧ 0 < piece.diff) := fun hp => by
        rw [h.2.2.1 hp.1] at hrest
        cases hrest
      rw [← hrest]
      refine hpiece.append (le_of_mem_corrections hdiff hnot) (by omega) ?_
      rw [getLastD_piece]
      have heq : consumed + piece.source.length - (prev + piece.diff) = consumed - prev + piece.target.length := by
        omega
      rw [← heq]
      exact ih _ _ h.2.2.2 htargets.2

/-- The corrections for these pieces all come before the end of what is delivered for them. -/
theorem corrections_le (h : WellTaken ps)
    (hps : ∀ piece ∈ ps, piece.target ≠ [] ∧ ¬(piece.peeked ∧ 0 < piece.diff)) :
    ∀ entry ∈ corrections consumed prev ps, entry.1 ≤ consumed - prev + (targets ps).length := by
  induction ps generalizing consumed prev with
  | nil => exact fun _ hmem => absurd hmem List.not_mem_nil
  | cons piece rest ih =>
    rw [List.forall_mem_cons] at hps
    have hdiff := h.2.1 hps.1.1
    intro entry hentry
    rw [corrections, List.mem_append] at hentry
    rw [targets_cons, List.length_append]
    obtain hentry | hentry := hentry
    · have := le_of_mem_corrections hdiff hps.1.2 entry hentry
      omega
    · have := ih h.2.2.2 hps.2 entry hentry
      omega

theorem diffAt_targets (h : WellTaken (before ++ rest))
    (hbefore : ∀ piece ∈ before, piece.target ≠ [] ∧ ¬(piece.peeked ∧ 0 < piece.diff))
    (hrest : ∀ piece ∈ rest, piece.target ≠ []) :
    diffAt (targets before).length 0 (corrections 0 0 (before ++ rest)) =
      (sources before).length - (targets before).length := by
  have hsum := h.append.1.sumDiffs_eq fun piece hpiece => (hbefore piece hpiece).1
  rw [corrections_append, diffAt_append, diffAt_of_lt, getLastD_corrections, hsum]
  · intro entry hentry
    have := (ascends_corrections _ _ h.append.2.1 hrest).lt_of_mem hentry
    omega
  · intro entry hentry
    have := corrections_le h.append.1 hbefore entry hentry
    omega

/-- Every offset is corrected, in their order, and the begin and the end of each piece are brought back to its begin and its
end in the input, and so is the end of the output. -/
def Corrects (s : MappingCharFilter) (ps : List Piece) : Prop :=
  ∃ f : Int → Int, (∀ off, s.correctOffset off = some (f off)) ∧ Monotone f ∧
    (∀ before piece after, ps = before ++ piece :: after →
      f (targets before).length = (sources before).length ∧
      f ((targets before).length + piece.target.length) = (sources before).length + piece.source.length) ∧
    f (targets ps).length = (sources ps).length

variable {s : MappingCharFilter}

theorem corrects_of_forall (h : WellTaken ps)
    (hps : ∀ piece ∈ ps, piece.target ≠ [] ∧ ¬(piece.peeked ∧ 0 < piece.diff))
    (hoffsets : s.offsets = (corrections 0 0 ps).map Prod.fst) (hdiffs : s.diffs = (corrections 0 0 ps).map Prod.snd) :
    Corrects s ps := by
  have hascends := ascends_corrections 0 0 h fun piece hpiece => (hps piece hpiece).1
  have hat : ∀ before rest, ps = before ++ rest →
      (targets before).length + diffAt (targets before).length 0 (corrections 0 0 ps) = (sources before).length := by
    rintro before rest rfl
    rw [diffAt_targets h (fun piece hpiece => hps piece (List.mem_append_left _ hpiece))
      fun piece hpiece => (hps piece (List.mem_append_right _ hpiece)).1]
    omega
  refine ⟨_, correctOffset_eq hascends hoffsets hdiffs, hascends.monotone, fun before piece after heq => ⟨?_, ?_⟩, ?_⟩
  · exact hat before _ heq
  · have := hat (before ++ [piece]) after (by rw [heq, List.append_assoc, List.singleton_append])
    rw [targets_append, targets_cons, sources_append, sources_cons, List.length_append, List.length_append,
      List.length_append, List.length_append] at this
    simpa [targets, sources] using this
  · exact hat ps [] (List.append_nil ps).symm

/-- One offset of the output would have to be brought back to the begin and to the end of a piece that leaves nothing. -/
theorem target_ne_nil_of_corrects (h : WellTaken ps) (hs : Corrects s ps) : ∀ piece ∈ ps, piece.target ≠ [] := by
  intro piece hpiece hempty
  obtain ⟨f, -, -, hends, -⟩ := hs
  obtain ⟨before, after, rfl⟩ := List.append_of_mem hpiece
  obtain ⟨hbegin, hend⟩ := hends before piece after rfl
  have := List.length_pos_iff.mpr h.append.2.1.1
  rw [hempty, List.length_nil, Nat.cast_zero, add_zero, hbegin] at hend
  omega

/-- Where the counter has moved at the end of the input, the last correction comes too late. -/
theorem not_late_of_corrects (h : WellTaken ps) (hs : Corrects s ps)
    (hoffsets : s.offsets = (corrections 0 0 ps).map Prod.fst) (hdiffs : s.diffs = (corrections 0 0 ps).map Prod.snd) :
    ∀ piece ∈ ps, ¬(piece.peeked ∧ 0 < piece.diff) := by
  rintro piece hpiece ⟨hpeeked, hpos⟩
  have htargets := target_ne_nil_of_corrects h hs
  have hascends := ascends_corrections 0 0 h htargets
  obtain ⟨f, hf, -, hends, -⟩ := hs
  obtain ⟨before, after, rfl⟩ := List.append_of_mem hpiece
  obtain ⟨hbefore, ⟨-, hdiff, hlast, -⟩, hnot⟩ := h.append
  obtain rfl := hlast hpeeked
  have hdiff := hdiff (htargets piece hpiece)
  have hsum := hbefore.sumDiffs_eq fun p hp => htargets p (List.mem_append_left _ hp)
  have hearly : ∀ p ∈ before, p.target ≠ [] ∧ ¬(p.peeked ∧ 0 < p.diff) := fun p hp => by
    refine ⟨htargets p (List.mem_append_left _ hp), fun hlate => ?_⟩
    rw [hnot (List.cons_ne_nil _ _) p hp] at hlate
    cases hlate.1
  have hend := (hends before piece [] rfl).2
  have heq := Option.some.inj ((hf _).symm.trans (correctOffset_eq hascends hoffsets hdiffs
    ((targets before).length + piece.target.length)))
  rw [corrections_snoc, diffAt_append, getLastD_corrections, diffAt_of_lt] at heq
  · omega
  · intro entry hentry
    rw [Piece.corrections, corrected, if_neg (by omega), if_pos hpos, if_pos hpeeked, List.mem_singleton] at hentry
    subst hentry
    dsimp only
    omega
  · intro entry hentry
    have := corrections_le hbefore hearly entry hentry
    omega

/-- Once the filter has been read to the end, its corrections are right exactly when no piece has left nothing and the last
one has not been replaced by less after the end of the input was seen. -/
theorem correct_offsets_iff (hkeys : (entries.map Prod.fst).Nodup) {sizes : Nat → Nat} {calls : List Call} {last : Call}
    {results : List (Option WString)} (hasks : last.asks)
    (hrun : runOn entries sizes text (calls ++ [last]) = some (results ++ [none], s)) :
    Corrects s (pieces entries text) ↔
      ∀ piece ∈ pieces entries text, piece.target ≠ [] ∧ ¬(piece.peeked ∧ 0 < piece.diff) := by
  obtain ⟨delivered, hfollows⟩ := follows_of_runOn hkeys hasks hrun
  have hwell := wellTaken_pieces entries text
  constructor
  · intro h piece hpiece
    exact ⟨target_ne_nil_of_corrects hwell h piece hpiece,
      not_late_of_corrects hwell h hfollows.offsets_eq hfollows.diffs_eq piece hpiece⟩
  · exact fun h => corrects_of_forall hwell h hfollows.offsets_eq hfollows.diffs_eq

/-- The text `aab` with `aa` replaced by `a`, and with `b` by `bb`. -/
theorem correct_offsets_iff_aab :
    ∃ s, runOn [([⟨97, by decide⟩, ⟨97, by decide⟩], [⟨97, by decide⟩]), ([⟨98, by decide⟩], [⟨98, by decide⟩, ⟨98, by decide⟩])]
        (fun _ => 0) [⟨97, by decide⟩, ⟨97, by decide⟩, ⟨98, by decide⟩] ([.readBuffer 3] ++ [.read]) =
          some ([some [⟨97, by decide⟩, ⟨98, by decide⟩, ⟨98, by decide⟩]] ++ [none], s) ∧
      Corrects s (pieces
        [([⟨97, by decide⟩, ⟨97, by decide⟩], [⟨97, by decide⟩]), ([⟨98, by decide⟩], [⟨98, by decide⟩, ⟨98, by decide⟩])]
        [⟨97, by decide⟩, ⟨97, by decide⟩, ⟨98, by decide⟩]) :=
  ⟨_, rfl, (@correct_offsets_iff _ _ _ (by decide) (fun _ => 0) [.readBuffer 3] .read
    [some [⟨97, by decide⟩, ⟨98, by decide⟩, ⟨98, by decide⟩]] trivial rfl).mpr (by decide +kernel)⟩

/-- The text `ab` with `ab` replaced by `x` and `abc` by `y`: the end of the output is brought back to 1. -/
theorem end_of_output_is_not_corrected : ¬∀ entries sizes text calls last results s, (entries.map Prod.fst).Nodup →
    Call.asks last → runOn entries sizes text (calls ++ [last]) = some (results ++ [none], s) →
      Corrects s (pieces entries text) := by
  intro h
  have hcorrects := h [([⟨97, by decide⟩, ⟨98, by decide⟩], [⟨120, by decide⟩]),
      ([⟨97, by decide⟩, ⟨98, by decide⟩, ⟨99, by decide⟩], [⟨121, by decide⟩])] (fun _ => 0)
    [⟨97, by decide⟩, ⟨98, by decide⟩] [.readBuffer 3] .read [some [⟨120, by decide⟩]] _ (by decide) trivial rfl
  obtain ⟨f, hf, -, -, hend⟩ := hcorrects
  have hpieces : pieces [([⟨97, by decide⟩, ⟨98, by decide⟩], [⟨120, by decide⟩]),
      ([⟨97, by decide⟩, ⟨98, by decide⟩, ⟨99, by decide⟩], [⟨121, by decide⟩])] [⟨97, by decide⟩, ⟨98, by decide⟩] =
      [⟨[⟨97, by decide⟩, ⟨98, by decide⟩], [⟨120, by decide⟩], 1, true⟩] := by
    decide +kernel
  rw [hpieces] at hend
  have hone : f 1 = 2 := hend
  have hcode : some (1 : Int) = some (f 1) := hf 1
  rw [hone] at hcode
  exact absurd hcode (by decide)

end LucenePlusPlus.MappingCharFilter
