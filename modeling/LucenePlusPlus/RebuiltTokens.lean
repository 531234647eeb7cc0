import LucenePlusPlus.TokenSources
import Mathlib.Data.List.Induction
import Mathlib.Data.List.Nodup

/-!
The tokens that a term vector is turned back into. They come in the order of their start offsets when no token begins behind the
end of another one, for only then is the comparison of the sort an order; and when the vector's positions are those of a list,
in the order of the positions. Either way they come from the first one on only if the memory of the stream was zero.
-/

namespace LucenePlusPlus
namespace TokenSources
open StdSort (Sorts StrictWeakOn sorts_mergeSort)

theorem lessTokenOffset_eq_true {x y : Token} :
    lessTokenOffset x y = true ↔ x.startOffset < y.startOffset ∨ y.endOffset < x.startOffset := by
  rw [lessTokenOffset]
  split
  · simp_all
  · simp_all

theorem strictWeakOn_lessTokenOffset_iff (xs : List Token) :
    StrictWeakOn lessTokenOffset xs ↔ ∀ x ∈ xs, ∀ y ∈ xs, x.startOffset ≤ y.endOffset := by
  constructor
  · intro h x hx y hy
    by_contra hbehind
    have hxy : lessTokenOffset x y = true := lessTokenOffset_eq_true.mpr (.inr (by omega))
    have hyx := h.asymm hx hy hxy
    have hyy := h.irrefl y hy
    rw [Bool.eq_false_iff, Ne, lessTokenOffset_eq_true] at hyx hyy
    omega
  · intro h
    refine StrictWeakOn.of_key Token.startOffset fun x hx y hy => ?_
    rw [lessTokenOffset_eq_true]
    have hle := h x hx y hy
    omega

/-- The calls return these tokens one after the other, and from then on none. -/
def Returns (s : StoredTokenStream) (ordered : List Token) : Prop := ∀ n, s.call n = .ok ordered[n]?

theorem incrementToken_of_nonneg (ordered : List Token) (k : Nat) :
    StoredTokenStream.incrementToken ⟨ordered.map some, k⟩ =
      .ok (ordered[k]?, ⟨ordered.map some, if k < ordered.length then k + 1 else k⟩) := by
  rw [StoredTokenStream.incrementToken]
  by_cases hk : k < ordered.length
  · rw [if_neg (by simpa using hk), if_neg (by simp)]
    simp [hk]
  · rw [if_pos (by simpa using hk), if_neg hk, List.getElem?_eq_none (by omega)]

theorem call_of_nonneg (ordered : List Token) (k n : Nat) :
    StoredTokenStream.call n ⟨ordered.map some, k⟩ = .ok ordered[k + n]? := by
  induction n generalizing k with
  | zero =>
      rw [StoredTokenStream.call, incrementToken_of_nonneg]
      rfl
  | succ n ih =>
      rw [StoredTokenStream.call, incrementToken_of_nonneg]
      split
      · refine (ih (k + 1)).trans ?_
        rw [show k + 1 + n = k + (n + 1) by omega]
      · refine (ih k).trans ?_
        rw [List.getElem?_eq_none (by omega), List.getElem?_eq_none (by omega)]

theorem returns_iff (ordered ordered' : List Token) (memory : Int) :
    Returns ⟨ordered.map some, memory⟩ ordered' ↔ 0 ≤ memory ∧ ordered' = ordered.drop memory.toNat := by
  by_cases hmemory : 0 ≤ memory
  · obtain ⟨k, rfl⟩ := Int.eq_ofNat_of_zero_le hmemory
    have hcall (n : Nat) : StoredTokenStream.call n ⟨ordered.map some, (k : Int)⟩ = .ok (ordered.drop k)[n]? := by
      rw [call_of_nonneg, List.getElem?_drop]
    constructor
    · intro h
      refine ⟨hmemory, List.ext_getElem? fun n => ?_⟩
      exact (Except.ok.inj ((hcall n).symm.trans (h n))).symm
    · rintro ⟨-, rfl⟩
      exact hcall
  · refine ⟨fun h => ?_, fun h => absurd h.1 hmemory⟩
    have hzero := h 0
    rw [StoredTokenStream.call, StoredTokenStream.incrementToken, if_neg (by simp only []; omega), if_pos (by simpa using hmemory)] at hzero
    cases hzero

/-- Where the stream starts: at the first token, or there is none. -/
def Starts (memory : Int) (tokens : List Token) : Prop := memory = 0 ∨ tokens = [] ∧ 0 ≤ memory

theorem returns_all_iff (ordered ordered' : List Token) (memory : Int) :
    Returns ⟨ordered.map some, memory⟩ ordered' ∧ ordered'.length = ordered.length ↔
      Starts memory ordered ∧ ordered' = ordered := by
  rw [returns_iff, Starts]
  constructor
  · rintro ⟨⟨hmemory, rfl⟩, hlength⟩
    rw [List.length_drop] at hlength
    cases ordered with
    | nil => exact ⟨.inr ⟨rfl, hmemory⟩, List.drop_nil⟩
    | cons token rest =>
        rw [List.length_cons] at hlength
        have hzero : memory = 0 := by omega
        subst hzero
        exact ⟨.inl rfl, rfl⟩
  · rintro ⟨rfl | ⟨rfl, hmemory⟩, rfl⟩
    · exact ⟨⟨le_rfl, rfl⟩, rfl⟩
    · exact ⟨⟨hmemory, List.drop_nil.symm⟩, rfl⟩

theorem foldlM_range {α β : Type} {f : β → Nat → Except Stop β} {g : β → α → Except Stop β} (l : List α)
    (h : ∀ t a, l[t]? = some a → ∀ s, f s t = g s a) (s : β) : (List.range l.length).foldlM f s = l.foldlM g s := by
  induction l using List.reverseRecOn generalizing s with
  | nil => rfl
  | append_singleton l a ih =>
      have hinit := ih fun t b hb => h t b (by
        rw [List.getElem?_append_left (List.getElem?_eq_some_iff.mp hb).1]
        exact hb)
      have hlast := h l.length a (by simp)
      rw [List.length_append, List.length_singleton, List.range_succ, List.foldlM_append, List.foldlM_append, hinit]
      simp only [List.foldlM_cons, List.foldlM_nil, hlast]

variable {entries : List Entry} {sort : (Token → Token → Bool) → List Token → List Token} {memory : Int}

theorem tokens_cons (entry : Entry) (entries : List Entry) :
    tokens (entry :: entries) = entry.occurrences.map entry.token ++ tokens entries := by
  simp [tokens, placements, Function.comp_def]

theorem sum_getTermFrequencies (storePositions : Bool) (entries : List Entry) :
    (vector storePositions entries).getTermFrequencies.sum = (tokens entries).length := by
  simp [vector, tokens, placements, List.length_flatMap]

theorem addTerm_unsorted {storePositions guaranteed : Bool} (hnull : (guaranteed && storePositions) = false) {t : Nat}
    {entry : Entry} (h : entries[t]? = some entry) (s : Building) :
    addTerm (vector storePositions entries) guaranteed s t =
      .ok { s with unsortedTokens := some (s.unsortedTokens.getD [] ++ entry.occurrences.map entry.token) } := by
  have hpositions : (if guaranteed then (vector storePositions entries).getTermPositions t else none) = none := by
    cases guaranteed <;> cases storePositions <;> simp_all [vector]
  rw [addTerm, hpositions]
  simp [vector, h, Entry.token, Function.comp_def]

theorem foldlM_unsorted (entries : List Entry) (s : Building) :
    entries.foldlM (fun (s : Building) (entry : Entry) => (Except.ok
      { s with unsortedTokens := some (s.unsortedTokens.getD [] ++ entry.occurrences.map entry.token) } : Except Stop Building)) s =
      .ok { s with
        unsortedTokens := if entries = [] then s.unsortedTokens else some (s.unsortedTokens.getD [] ++ tokens entries) } := by
  induction entries generalizing s with
  | nil => rfl
  | cons entry entries ih =>
      rw [List.foldlM_cons]
      refine (ih _).trans ?_
      cases entries with
      | nil => simp [tokens, placements]
      | cons next entries => simp [tokens_cons]

/-- Without the guarantee, or without positions, the stream has the tokens as the sort leaves them. -/
theorem getTokenStream_unsorted (hsort : Sorts sort) {storePositions guaranteed : Bool}
    (hnull : (guaranteed && storePositions) = false) :
    getTokenStream sort memory (vector storePositions entries) guaranteed =
      .ok ⟨(sort lessTokenOffset (tokens entries)).map some, memory⟩ := by
  have hlength : (vector storePositions entries).getTermFrequencies.length = entries.length := by simp [vector]
  rw [getTokenStream, hlength, foldlM_range entries fun t entry h s => addTerm_unsorted hnull h s, foldlM_unsorted]
  cases entries with
  | nil =>
      have hempty : sort lessTokenOffset [] = [] :=
        ((hsort lessTokenOffset [] ((strictWeakOn_lessTokenOffset_iff []).mpr (by simp))).1).eq_nil
      simp [vector, tokens, placements, hempty, Except.map]
  | cons entry entries => simp [Except.map]

/-! ### Tokens at their positions -/

/-- A token is written at its position. -/
def put (order : List (Option Token)) (p : Int × Token) : List (Option Token) := order.set p.1.toNat (some p.2)

theorem length_foldl_put (ps : List (Int × Token)) (order : List (Option Token)) : (ps.foldl put order).length = order.length := by
  induction ps generalizing order with
  | nil => rfl
  | cons p ps ih => rw [List.foldl_cons, ih, put, List.length_set]

theorem getElem?_foldl_put_of_ne {ps : List (Int × Token)} {k : Nat} (h : ∀ p ∈ ps, p.1.toNat ≠ k) (order : List (Option Token)) :
    (ps.foldl put order)[k]? = order[k]? := by
  induction ps generalizing order with
  | nil => rfl
  | cons p ps ih =>
      rw [List.foldl_cons, ih (fun q hq => h q (List.mem_cons_of_mem _ hq)), put,
        List.getElem?_set_ne (h p List.mem_cons_self)]

theorem getElem?_foldl_put {ps : List (Int × Token)} (hnodup : (ps.map fun p => p.1.toNat).Nodup) {order : List (Option Token)}
    (hlt : ∀ p ∈ ps, p.1.toNat < order.length) {p : Int × Token} (hp : p ∈ ps) :
    (ps.foldl put order)[p.1.toNat]? = some (some p.2) := by
  induction ps generalizing order with
  | nil => cases hp
  | cons q ps ih =>
      rw [List.map_cons, List.nodup_cons] at hnodup
      rw [List.foldl_cons]
      rcases List.mem_cons.mp hp with rfl | hmem
      · have hne (q : Int × Token) (hq : q ∈ ps) : q.1.toNat ≠ p.1.toNat := fun heq =>
          hnodup.1 (heq ▸ List.mem_map_of_mem hq)
        rw [getElem?_foldl_put_of_ne hne, put, List.getElem?_set_self (hlt p List.mem_cons_self)]
      · refine ih hnodup.2 (fun r hr => ?_) hmem
        rw [put, List.length_set]
        exact hlt r (List.mem_cons_of_mem _ hr)

theorem place_eq (term : WString) (os : List Occurrence) {order : List (Option Token)}
    (h : ∀ o ∈ os, 0 ≤ o.position ∧ o.position < order.length) :
    place term order (os.map Occurrence.position) (os.map fun o => (o.startOffset, o.endOffset)) =
      .ok ((os.map fun o => (o.position, Token.mk term o.startOffset o.endOffset)).foldl put order) := by
  induction os generalizing order with
  | nil => rfl
  | cons o os ih =>
      have hrest : ∀ o' ∈ os, 0 ≤ o'.position ∧
          o'.position < (put order (o.position, ⟨term, o.startOffset, o.endOffset⟩)).length := by
        intro o' ho'
        rw [put, List.length_set]
        exact h o' (List.mem_cons_of_mem _ ho')
      rw [List.map_cons, List.map_cons, place, if_pos (h o List.mem_cons_self)]
      exact ih hrest

theorem foldlM_placed {order : List (Option Token)} (hpositions : ∀ p ∈ placements entries, 0 ≤ p.1 ∧ p.1 < order.length) :
    entries.foldlM (fun (s : Building) (entry : Entry) =>
      (place entry.term s.tokensInOriginalOrder (entry.occurrences.map Occurrence.position)
        (entry.occurrences.map fun o => (o.startOffset, o.endOffset))).map fun order =>
          { s with tokensInOriginalOrder := order }) ⟨order, none⟩ =
      .ok ⟨(placements entries).foldl put order, none⟩ := by
  induction entries generalizing order with
  | nil => rfl
  | cons entry entries ih =>
      rw [placements, List.flatMap_cons] at hpositions
      have hhead : ∀ o ∈ entry.occurrences, 0 ≤ o.position ∧ o.position < order.length := fun o ho =>
        hpositions (o.position, entry.token o) (List.mem_append_left _ (List.mem_map_of_mem ho))
      rw [List.foldlM_cons, place_eq entry.term entry.occurrences hhead, placements, List.flatMap_cons, List.foldl_append]
      refine ih fun p hp => ?_
      rw [length_foldl_put]
      exact hpositions p (List.mem_append_right _ hp)

theorem getTokenStream_placed (hpositions : ∀ p ∈ placements entries, 0 ≤ p.1 ∧ p.1 < (tokens entries).length) :
    getTokenStream sort memory (vector true entries) true =
      .ok ⟨(placements entries).foldl put (List.replicate (tokens entries).length none), memory⟩ := by
  have hlength : (vector true entries).getTermFrequencies.length = entries.length := by simp [vector]
  have hterm (t : Nat) (entry : Entry) (h : entries[t]? = some entry) (s : Building) :
      addTerm (vector true entries) true s t =
        (place entry.term s.tokensInOriginalOrder (entry.occurrences.map Occurrence.position)
          (entry.occurrences.map fun o => (o.startOffset, o.endOffset))).map fun order =>
            { s with tokensInOriginalOrder := order } := by
    simp [addTerm, vector, h]
  rw [getTokenStream, hlength, foldlM_range entries hterm, sum_getTermFrequencies, foldlM_placed (by simpa using hpositions)]
  rfl

/-- The positions are those of a list: each from 0 on, once. -/
def Contiguous (entries : List Entry) : Prop :=
  ((placements entries).map Prod.fst).Perm ((List.range (tokens entries).length).map fun (n : Nat) => (n : Int))

theorem exists_map_some {α : Type} (xs : List (Option α)) (h : ∀ x ∈ xs, x.isSome) : ∃ ys : List α, xs = ys.map some := by
  induction xs with
  | nil => exact ⟨[], rfl⟩
  | cons x xs ih =>
      obtain ⟨ys, rfl⟩ := ih fun y hy => h y (List.mem_cons_of_mem _ hy)
      obtain ⟨y, rfl⟩ := Option.isSome_iff_exists.mp (h x List.mem_cons_self)
      exact ⟨y :: ys, rfl⟩

namespace Contiguous

theorem lt (h : Contiguous entries) {p : Int × Token} (hp : p ∈ placements entries) :
    0 ≤ p.1 ∧ p.1 < (tokens entries).length := by
  have hmem := h.subset (List.mem_map_of_mem hp)
  rw [List.mem_map] at hmem
  obtain ⟨n, hn, heq⟩ := hmem
  rw [List.mem_range] at hn
  omega

theorem nodup (h : Contiguous entries) : ((placements entries).map fun p => p.1.toNat).Nodup := by
  have hmap := h.map Int.toNat
  rw [List.map_map, List.map_map] at hmap
  refine (List.Perm.nodup_iff hmap).mpr ?_
  have hid : (Int.toNat ∘ fun (n : Nat) => (n : Int)) = id := by
    funext n
    exact Int.toNat_natCast n
  rw [hid, List.map_id]
  exact List.nodup_range

theorem placed (h : Contiguous entries) : ∃ ordered : List Token,
    (placements entries).foldl put (List.replicate (tokens entries).length none) = ordered.map some ∧
      ordered.length = (tokens entries).length ∧ ∀ p ∈ placements entries, ordered[p.1.toNat]? = some p.2 := by
  have hlt : ∀ p ∈ placements entries, p.1.toNat < (List.replicate (tokens entries).length (none : Option Token)).length := by
    intro p hp
    have hpos := h.lt hp
    rw [List.length_replicate]
    omega
  have hput := fun p hp => @getElem?_foldl_put _ h.nodup _ hlt p hp
  have hlength := length_foldl_put (placements entries) (List.replicate (tokens entries).length none)
  rw [List.length_replicate] at hlength
  obtain ⟨ordered, hordered⟩ := exists_map_some
    ((placements entries).foldl put (List.replicate (tokens entries).length none)) (by
      intro x hx
      obtain ⟨k, hk, rfl⟩ := List.getElem_of_mem hx
      rw [hlength] at hk
      have hposition : (k : Int) ∈ (placements entries).map Prod.fst :=
        h.mem_iff.mpr (List.mem_map_of_mem (List.mem_range.mpr hk))
      obtain ⟨p, hp, hpk⟩ := List.mem_map.mp hposition
      have hget := hput p hp
      rw [hpk, Int.toNat_natCast, List.getElem?_eq_some_iff] at hget
      obtain ⟨_, hget⟩ := hget
      rw [hget]
      rfl)
  rw [hordered, List.length_map] at hlength
  refine ⟨ordered, hordered, hlength, fun p hp => ?_⟩
  have hget := hput p hp
  rw [hordered, List.getElem?_map] at hget
  obtain ⟨token, htoken, heq⟩ := Option.map_eq_some_iff.mp hget
  rw [htoken, Option.some.inj heq]

end Contiguous

/-- Without the guarantee: all tokens, in the order of their start offsets, by a sort with a comparison that is an order. -/
def Unguaranteed (sort : (Token → Token → Bool) → List Token → List Token) (memory : Int) (storePositions : Bool)
    (entries : List Entry) : Prop :=
  StrictWeakOn lessTokenOffset (tokens entries) ∧
    ∃ s ordered, getTokenStream sort memory (vector storePositions entries) false = .ok s ∧ Returns s ordered ∧
      ordered.Perm (tokens entries) ∧ ordered.Pairwise fun x y => x.startOffset ≤ y.startOffset

/-- With the guarantee: as many tokens as there are, each at its position. -/
def Guaranteed (sort : (Token → Token → Bool) → List Token → List Token) (memory : Int) (entries : List Entry) : Prop :=
  ∃ s ordered, getTokenStream sort memory (vector true entries) true = .ok s ∧ Returns s ordered ∧
    ordered.length = (tokens entries).length ∧ ∀ p ∈ placements entries, ordered[p.1.toNat]? = some p.2

theorem unguaranteed_iff (hsort : Sorts sort) (storePositions : Bool) : Unguaranteed sort memory storePositions entries ↔
    Starts memory (tokens entries) ∧ ∀ x ∈ tokens entries, ∀ y ∈ tokens entries, x.startOffset ≤ y.endOffset := by
  rw [Unguaranteed, strictWeakOn_lessTokenOffset_iff, and_comm, getTokenStream_unsorted hsort rfl]
  refine and_congr_left fun hbefore => ?_
  obtain ⟨hperm, hsorted⟩ := hsort lessTokenOffset (tokens entries) ((strictWeakOn_lessTokenOffset_iff _).mpr hbefore)
  have hstarts : Starts memory (sort lessTokenOffset (tokens entries)) ↔ Starts memory (tokens entries) := by
    rw [Starts, Starts, ← List.length_eq_zero_iff, ← List.length_eq_zero_iff, hperm.length_eq]
  rw [← hstarts]
  constructor
  · rintro ⟨s, ordered, ⟨⟩, hreturns, hordered, -⟩
    exact ((returns_all_iff _ _ _).mp ⟨hreturns, hordered.length_eq.trans hperm.length_eq.symm⟩).1
  · intro h
    refine ⟨_, _, rfl, ((returns_all_iff _ _ _).mpr ⟨h, rfl⟩).1, hperm, hsorted.imp fun hlt => ?_⟩
    rw [Bool.eq_false_iff, Ne, lessTokenOffset_eq_true] at hlt
    omega

theorem guaranteed_iff (h : Contiguous entries) : Guaranteed sort memory entries ↔ Starts memory (tokens entries) := by
  obtain ⟨placed, hplaced, hlength, hat⟩ := h.placed
  have hstarts : Starts memory placed ↔ Starts memory (tokens entries) := by
    rw [Starts, Starts, ← List.length_eq_zero_iff, ← List.length_eq_zero_iff, hlength]
  rw [Guaranteed, getTokenStream_placed fun p hp => h.lt hp, hplaced, ← hstarts]
  constructor
  · rintro ⟨s, ordered, ⟨⟩, hreturns, hordered, -⟩
    exact ((returns_all_iff _ _ _).mp ⟨hreturns, hordered.trans hlength.symm⟩).1
  · intro hzero
    exact ⟨_, placed, rfl, ((returns_all_iff _ _ _).mpr ⟨hzero, rfl⟩).1, hlength, hat⟩

/-- A stream has all its tokens, in order, if it starts at the first one, and no token begins behind another's end. -/
theorem getTokenStream_iff (hsort : Sorts sort) (memory : Int) (storePositions : Bool) (entries : List Entry) :
    (Unguaranteed sort memory storePositions entries ↔ Starts memory (tokens entries) ∧
      ∀ x ∈ tokens entries, ∀ y ∈ tokens entries, x.startOffset ≤ y.endOffset) ∧
      (Contiguous entries → (Guaranteed sort memory entries ↔ Starts memory (tokens entries))) :=
  ⟨unguaranteed_iff hsort storePositions, guaranteed_iff⟩

/-- Two terms, the second one behind the first. -/
def twoTerms : List Entry := [⟨[], [⟨0, 0, 1⟩]⟩, ⟨[], [⟨1, 2, 3⟩]⟩]

theorem contiguous_twoTerms : Contiguous twoTerms := List.Perm.refl [0, 1]

theorem getTokenStream_iff_two : Sorts (@StdSort.mergeSort Token) ∧ Contiguous twoTerms ∧
    (Guaranteed StdSort.mergeSort 0 twoTerms ↔ Starts 0 (tokens twoTerms)) :=
  ⟨sorts_mergeSort, contiguous_twoTerms, (getTokenStream_iff sorts_mergeSort 0 true twoTerms).2 contiguous_twoTerms⟩

/-- Of two tokens one behind the other, each is less than the other. -/
theorem separate_tokens_have_no_order : lessTokenOffset ⟨[], 0, 1⟩ ⟨[], 2, 3⟩ = true ∧
    lessTokenOffset ⟨[], 2, 3⟩ ⟨[], 0, 1⟩ = true ∧ ¬ Unguaranteed StdSort.mergeSort 0 true twoTerms := by
  refine ⟨rfl, rfl, fun h => ?_⟩
  have hlt := h.1.asymm (show (⟨[], 0, 1⟩ : Token) ∈ tokens twoTerms by decide)
    (show (⟨[], 2, 3⟩ : Token) ∈ tokens twoTerms by decide) rfl
  exact absurd hlt (by decide)

end TokenSources
end LucenePlusPlus
