import LucenePlusPlus.LongestPrefix
import LucenePlusPlus.MappingCharFilter

/-!
A text in the pieces that `MappingCharFilter` takes of it, and what is to become of it: from left to right, the longest match
string is replaced.
-/

namespace LucenePlusPlus.MappingCharFilter
open NormalizeCharMap (begins value Represents begins_iff begins_mono begins_of_mem)

/-- The longest match string that the text begins with. -/
def matched (keys : List WString) (text : WString) : Option WString :=
  longestPrefix (fun w => w ≠ [] && keys.contains w) text

def replacementOf (entries : List (WString × WString)) (w : WString) : WString := (entries.lookup w).getD []

theorem fst_value (entries : List (WString × WString)) (w : WString) : (value entries w).1 = replacementOf entries w := by
  rw [value, replacementOf]
  cases entries.lookup w <;> rfl

/-- The input rewritten: the longest match string is replaced, and a character that begins none is copied. -/
def rewritten (entries : List (WString × WString)) : WString → WString
  | [] => []
  | c :: text =>
      match matched (entries.map Prod.fst) (c :: text) with
      | some w => replacementOf entries w ++ rewritten entries (text.drop (w.length - 1))
      | none => c :: rewritten entries text
termination_by text => text.length
decreasing_by
  · rw [List.length_drop, List.length_cons]
    omega
  · exact Nat.lt_succ_self _

/-- What is left of the input where the rewriting goes on. -/
def remainders (keys : List WString) : WString → List WString
  | [] => []
  | c :: text =>
      (c :: text) ::
        match matched keys (c :: text) with
        | some w => remainders keys (text.drop (w.length - 1))
        | none => remainders keys text
termination_by text => text.length
decreasing_by
  · rw [List.length_drop, List.length_cons]
    omega
  · exact Nat.lt_succ_self _

/-- The longest beginning of the text that is the beginning of a match string. -/
def walked (keys : List WString) (text : WString) : Option WString :=
  longestPrefix (fun w => w ≠ [] && begins keys w) text

/-- A match string goes on after these characters. -/
def goesOn (keys : List WString) (w : WString) : Bool := keys.any fun key => w.isPrefixOf key && key ≠ w

/-- What is taken of the input, what is delivered for it and by how much it is taken to be shorter; `peeked` when the end of
the input was seen on the way. -/
structure Piece where
  source : WString
  target : WString
  diff : Int
  peeked : Bool
deriving DecidableEq

def Piece.copied (c : WChar) : Piece := { source := [c], target := [c], diff := 0, peeked := false }

/-- The characters `w`, when `rest` is left of the input. -/
def Piece.replaced (entries : List (WString × WString)) (w rest : WString) : Piece :=
  { source := w
    target := (value entries w).1
    diff := (value entries w).2
    peeked := rest.isEmpty && goesOn (entries.map Prod.fst) w }

def pieces (entries : List (WString × WString)) : WString → List Piece
  | [] => []
  | c :: text =>
      match walked (entries.map Prod.fst) (c :: text) with
      | some w => .replaced entries w (text.drop (w.length - 1)) :: pieces entries (text.drop (w.length - 1))
      | none => .copied c :: pieces entries text
termination_by text => text.length
decreasing_by
  · rw [List.length_drop, List.length_cons]
    omega
  · exact Nat.lt_succ_self _

def sources (pieces : List Piece) : WString := pieces.flatMap Piece.source

def targets (pieces : List Piece) : WString := pieces.flatMap Piece.target

variable {keys : List WString} {entries : List (WString × WString)} {text w p : WString} {c : WChar}

theorem walked_eq_some (h : walked keys text = some w) : w ≠ [] ∧ w <+: text ∧ begins keys w := by
  obtain ⟨hpre, hw, -⟩ := LongestPrefix.eq_some_iff.mp h
  rw [Bool.and_eq_true, decide_eq_true_iff] at hw
  exact ⟨hw.1, hpre, hw.2⟩

theorem matched_eq_some (h : matched keys text = some w) : w ≠ [] ∧ w <+: text ∧ w ∈ keys := by
  obtain ⟨hpre, hw, -⟩ := LongestPrefix.eq_some_iff.mp h
  rw [Bool.and_eq_true, decide_eq_true_iff, List.contains_iff_mem] at hw
  exact ⟨hw.1, hpre, hw.2⟩

theorem begins_of_matches (w : WString) (h : (w ≠ [] && keys.contains w) = true) :
    (w ≠ [] && begins keys w) = true := by
  rw [Bool.and_eq_true, List.contains_iff_mem] at h
  rw [Bool.and_eq_true]
  exact ⟨h.1, begins_of_mem h.2⟩

theorem matched_of_walked (h : walked keys text = some w) (hw : w ∈ keys) : matched keys text = some w := by
  refine LongestPrefix.eq_some_of_imp begins_of_matches h ?_
  rw [Bool.and_eq_true, decide_eq_true_iff, List.contains_iff_mem]
  exact ⟨(walked_eq_some h).1, hw⟩

theorem matched_of_walked_eq_none (h : walked keys text = none) : matched keys text = none :=
  LongestPrefix.eq_none_of_imp begins_of_matches h

theorem drop_pred_eq (hw : w ≠ []) (h : w <+: c :: text) : c :: text = w ++ text.drop (w.length - 1) := by
  obtain ⟨d, w, rfl⟩ := List.exists_cons_of_ne_nil hw
  obtain ⟨rfl, rest, rfl⟩ := List.cons_prefix_cons.mp h
  rw [List.length_cons, Nat.add_sub_cancel, List.drop_left, List.cons_append]

theorem pieces_nil : pieces entries [] = [] := by rw [pieces]

theorem pieces_cons_of_none (h : walked (entries.map Prod.fst) (c :: text) = none) :
    pieces entries (c :: text) = .copied c :: pieces entries text := by
  rw [pieces, h]

theorem pieces_cons_of_some {rest : WString} (h : walked (entries.map Prod.fst) (c :: text) = some w)
    (htext : c :: text = w ++ rest) :
    pieces entries (c :: text) = .replaced entries w rest :: pieces entries rest := by
  obtain ⟨hw, hpre, -⟩ := walked_eq_some h
  rw [pieces, h]
  dsimp only
  rw [List.append_cancel_left ((drop_pred_eq hw hpre).symm.trans htext)]

/-- The pieces of a text that is not empty: a character that begins no match string, or all that could be walked. -/
theorem pieces_cases (entries : List (WString × WString)) (c : WChar) (text : WString) :
    (walked (entries.map Prod.fst) (c :: text) = none ∧
        pieces entries (c :: text) = .copied c :: pieces entries text) ∨
      ∃ w rest, walked (entries.map Prod.fst) (c :: text) = some w ∧ c :: text = w ++ rest ∧
        rest.length ≤ text.length ∧ pieces entries (c :: text) = .replaced entries w rest :: pieces entries rest := by
  cases h : walked (entries.map Prod.fst) (c :: text) with
  | none => exact .inl ⟨rfl, pieces_cons_of_none h⟩
  | some w =>
    obtain ⟨hw, hpre, -⟩ := walked_eq_some h
    have htext := drop_pred_eq hw hpre
    refine .inr ⟨w, _, rfl, htext, ?_, pieces_cons_of_some h htext⟩
    rw [List.length_drop]
    exact Nat.sub_le _ _

/-! ### Where the pieces are those of the rewriting -/

/-- Wherever the rewriting goes on, the longest beginning of a match string that follows is itself a match string. -/
def NoDeadEnd (keys : List WString) (text : WString) : Prop :=
  ∀ rest ∈ remainders keys text, ∀ w ∈ walked keys rest, w ∈ keys

instance : Decidable (NoDeadEnd keys text) :=
  inferInstanceAs (Decidable (∀ rest ∈ remainders keys text, ∀ w ∈ walked keys rest, w ∈ keys))

theorem rewritten_nil : rewritten entries [] = [] := by rw [rewritten]

theorem rewritten_cons_of_none (h : matched (entries.map Prod.fst) (c :: text) = none) :
    rewritten entries (c :: text) = c :: rewritten entries text := by
  rw [rewritten, h]

theorem rewritten_cons_of_some {rest : WString} (h : matched (entries.map Prod.fst) (c :: text) = some w)
    (htext : c :: text = w ++ rest) :
    rewritten entries (c :: text) = replacementOf entries w ++ rewritten entries rest := by
  obtain ⟨hw, hpre, -⟩ := matched_eq_some h
  rw [rewritten, h]
  dsimp only
  rw [List.append_cancel_left ((drop_pred_eq hw hpre).symm.trans htext)]

theorem noDeadEnd_cons_of_none (h : matched keys (c :: text) = none) :
    NoDeadEnd keys (c :: text) ↔ (∀ w ∈ walked keys (c :: text), w ∈ keys) ∧ NoDeadEnd keys text := by
  rw [NoDeadEnd, remainders, h, List.forall_mem_cons, ← NoDeadEnd]

theorem noDeadEnd_cons_of_some {rest : WString} (h : matched keys (c :: text) = some w)
    (htext : c :: text = w ++ rest) :
    NoDeadEnd keys (c :: text) ↔ (∀ w ∈ walked keys (c :: text), w ∈ keys) ∧ NoDeadEnd keys rest := by
  obtain ⟨hw, hpre, -⟩ := matched_eq_some h
  rw [NoDeadEnd, remainders, h, List.forall_mem_cons]
  dsimp only
  rw [List.append_cancel_left ((drop_pred_eq hw hpre).symm.trans htext), ← NoDeadEnd]

theorem targets_cons (piece : Piece) (rest : List Piece) : targets (piece :: rest) = piece.target ++ targets rest :=
  List.flatMap_cons

theorem targets_of_noDeadEnd (h : NoDeadEnd (entries.map Prod.fst) text) :
    targets (pieces entries text) = rewritten entries text := by
  induction hn : text.length using Nat.strong_induction_on generalizing text with
  | _ n ih =>
    subst hn
    cases text with
    | nil => rw [pieces_nil, rewritten_nil]; rfl
    | cons c text =>
      obtain ⟨hwalked, heq⟩ | ⟨w, rest, hwalked, htext, hlen, heq⟩ := pieces_cases entries c text
      · have hmatched := matched_of_walked_eq_none hwalked
        rw [heq, targets_cons, rewritten_cons_of_none hmatched,
          ih _ (Nat.lt_succ_self _) ((noDeadEnd_cons_of_none hmatched).mp h).2 rfl]
        rfl
      · have hkey := h (c :: text) (by rw [remainders]; exact List.mem_cons_self) w hwalked
        have hmatched := matched_of_walked hwalked hkey
        rw [heq, targets_cons, rewritten_cons_of_some hmatched htext,
          ih _ (Nat.lt_succ_of_le hlen) ((noDeadEnd_cons_of_some hmatched htext).mp h).2 rfl, Piece.replaced, fst_value]

def withReplacement (keys : List WString) (replacement : WString → WString) : List (WString × WString) :=
  keys.map fun key => (key, replacement key)

variable {replacement : WString → WString}

theorem keys_withReplacement : (withReplacement keys replacement).map Prod.fst = keys := by
  rw [withReplacement, List.map_map]
  exact List.map_id keys

theorem lookup_withReplacement :
    (withReplacement keys replacement).lookup w = if w ∈ keys then some (replacement w) else none := by
  induction keys with
  | nil => rfl
  | cons key keys ih =>
    rw [withReplacement, List.map_cons, List.lookup_cons, ← withReplacement, ih]
    by_cases h : w = key
    · subst h
      rw [beq_self_eq_true, if_pos List.mem_cons_self]
    · rw [beq_eq_false_iff_ne.mpr h]
      simp only [List.mem_cons, h, false_or]

theorem replacementOf_withReplacement :
    replacementOf (withReplacement keys replacement) w = if w ∈ keys then replacement w else [] := by
  rw [replacementOf, lookup_withReplacement]
  split <;> rfl

theorem rewritten_self (keys : List WString) (text : WString) : rewritten (withReplacement keys id) text = text := by
  induction hn : text.length using Nat.strong_induction_on generalizing text with
  | _ n ih =>
    subst hn
    cases text with
    | nil => exact rewritten_nil
    | cons c text =>
      cases h : matched ((withReplacement keys id).map Prod.fst) (c :: text) with
      | none => rw [rewritten_cons_of_none h, ih _ (Nat.lt_succ_self _) text rfl]
      | some w =>
        obtain ⟨hw, ⟨rest, htext⟩, hkey⟩ := matched_eq_some h
        rw [keys_withReplacement] at hkey
        have hlen : rest.length < (c :: text).length := by
          rw [← htext, List.length_append]
          exact Nat.lt_add_of_pos_left (List.length_pos_iff.mpr hw)
        rw [rewritten_cons_of_some h htext.symm, ih _ hlen rest rfl, replacementOf_withReplacement, if_pos hkey]
        exact htext

theorem length_targets_self_le (keys : List WString) (text : WString) :
    (targets (pieces (withReplacement keys id) text)).length ≤ text.length := by
  induction hn : text.length using Nat.strong_induction_on generalizing text with
  | _ n ih =>
    subst hn
    cases text with
    | nil => rw [pieces_nil]; exact Nat.le_refl 0
    | cons c text =>
      obtain ⟨-, heq⟩ | ⟨w, rest, -, htext, hlen, heq⟩ := pieces_cases (withReplacement keys id) c text
      · rw [heq, targets_cons, List.length_append, Piece.copied]
        have := ih _ (Nat.lt_succ_self _) text rfl
        simp only [List.length_cons, List.length_nil]
        omega
      · have := ih _ (Nat.lt_succ_of_le hlen) rest rfl
        rw [heq, targets_cons, List.length_append, htext, List.length_append, Piece.replaced, fst_value,
          replacementOf_withReplacement]
        dsimp only
        split
        · rw [id_eq]
          omega
        · rw [List.length_nil]
          omega

theorem noDeadEnd_of_length_le (h : text.length ≤ (targets (pieces (withReplacement keys id) text)).length) :
    NoDeadEnd keys text := by
  induction hn : text.length using Nat.strong_induction_on generalizing text with
  | _ n ih =>
    subst hn
    cases text with
    | nil =>
      rw [NoDeadEnd, remainders]
      exact fun rest hrest => absurd hrest List.not_mem_nil
    | cons c text =>
      obtain ⟨hwalked, heq⟩ | ⟨w, rest, hwalked, htext, hlen, heq⟩ := pieces_cases (withReplacement keys id) c text
      · rw [keys_withReplacement] at hwalked
        rw [heq, targets_cons, List.length_append, Piece.copied] at h
        simp only [List.length_cons, List.length_nil] at h
        rw [noDeadEnd_cons_of_none (matched_of_walked_eq_none hwalked), hwalked]
        exact ⟨fun w hw => absurd hw (by simp), ih _ (Nat.lt_succ_self _) (by omega) rfl⟩
      · rw [keys_withReplacement] at hwalked
        have hle := length_targets_self_le keys rest
        rw [heq, targets_cons, List.length_append, htext, List.length_append, Piece.replaced, fst_value,
          replacementOf_withReplacement] at h
        dsimp only at h
        have hkey : w ∈ keys := by
          by_contra hkey
          rw [if_neg hkey, List.length_nil] at h
          have := List.length_pos_iff.mpr (walked_eq_some hwalked).1
          omega
        rw [if_pos hkey, id_eq] at h
        rw [noDeadEnd_cons_of_some (matched_of_walked hwalked hkey) htext, hwalked]
        refine ⟨?_, ih _ (Nat.lt_succ_of_le hlen) (by omega) rfl⟩
        rintro _ ⟨⟩
        exact hkey

end LucenePlusPlus.MappingCharFilter
