import Mathlib.Algebra.Order.Group.Abs
import Mathlib.Tactic

/-!
Pieces of data are copied in runs, to a file that has an index of where each of them is. A run is copied as one, so much
of its source as the lengths of its pieces make up. The index has the places that follow from these lengths. Where no
piece is confused with a shorter or a longer one, the index and the data are those of the pieces only if all the lengths
are right.
-/

namespace CopiedRuns
variable {α : Type}

/-- Where pieces of these lengths are, of which the first is at `start`. -/
def positions (start : Int) : List Int → List Int
  | [] => []
  | length :: lengths => start :: positions (start + length) lengths

def lengthsOf (pieces : List (List α)) : List Int := pieces.map fun piece => (piece.length : Int)

@[simp] theorem lengthsOf_cons (piece : List α) (pieces : List (List α)) :
    lengthsOf (piece :: pieces) = (piece.length : Int) :: lengthsOf pieces := rfl

@[simp] theorem lengthsOf_append (pieces pieces' : List (List α)) :
    lengthsOf (pieces ++ pieces') = lengthsOf pieces ++ lengthsOf pieces' := List.map_append

@[simp] theorem length_lengthsOf (pieces : List (List α)) : (lengthsOf pieces).length = pieces.length :=
  List.length_map _

theorem sum_lengthsOf (pieces : List (List α)) : (lengthsOf pieces).sum = pieces.flatten.length := by
  induction pieces with
  | nil => rfl
  | cons piece pieces ih =>
      rw [lengthsOf_cons, List.sum_cons, List.flatten_cons, List.length_append, Nat.cast_add, ih]

@[simp] theorem length_positions (start : Int) (lengths : List Int) :
    (positions start lengths).length = lengths.length := by
  induction lengths generalizing start with
  | nil => rfl
  | cons length lengths ih => rw [positions, List.length_cons, List.length_cons, ih]

theorem positions_append (start : Int) (lengths lengths' : List Int) :
    positions start (lengths ++ lengths') = positions start lengths ++ positions (start + lengths.sum) lengths' := by
  induction lengths generalizing start with
  | nil => rw [List.nil_append, positions, List.nil_append, List.sum_nil, Int.add_zero]
  | cons length lengths ih => rw [List.cons_append, positions, ih, positions, List.cons_append, List.sum_cons, Int.add_assoc]

theorem eq_of_positions_eq {start start' : Int} {lengths lengths' : List Int}
    (h : positions start lengths = positions start' lengths') (hsum : start + lengths.sum = start' + lengths'.sum) :
    lengths = lengths' := by
  induction lengths generalizing start start' lengths' with
  | nil =>
      have hlength := congrArg List.length h
      rw [length_positions, length_positions] at hlength
      exact (List.length_eq_zero_iff.mp hlength.symm).symm
  | cons length lengths ih =>
      cases lengths' with
      | nil => cases h
      | cons length' lengths' =>
          obtain ⟨rfl, htail⟩ := List.cons.inj h
          rw [List.sum_cons, List.sum_cons, ← Int.add_assoc, ← Int.add_assoc] at hsum
          obtain rfl := ih htail hsum
          rw [Int.add_left_inj, Int.add_right_inj] at hsum
          rw [hsum]

theorem abs_sub_le_of_mem_positions {bound start place : Int} {lengths : List Int} (hbound : 0 ≤ bound)
    (hlengths : ∀ length ∈ lengths, |length| ≤ bound) (hmem : place ∈ positions start lengths) :
    |place - start| ≤ bound * lengths.length := by
  induction lengths generalizing start with
  | nil => cases hmem
  | cons length lengths ih =>
      rw [List.length_cons, Nat.cast_succ, mul_add, mul_one]
      rw [positions] at hmem
      rcases List.mem_cons.mp hmem with rfl | hmem
      · rw [sub_self, abs_zero]
        exact add_nonneg (mul_nonneg hbound (Nat.cast_nonneg _)) hbound
      · have hrest := ih (fun l hl => hlengths l (List.mem_cons_of_mem _ hl)) hmem
        have hfirst := hlengths length List.mem_cons_self
        calc |place - start|
            = |(place - (start + length)) + length| := by ring_nf
          _ ≤ |place - (start + length)| + |length| := abs_add_le _ _
          _ ≤ bound * lengths.length + bound := add_le_add hrest hfirst

theorem le_of_mem_positions {start place : Int} {pieces : List (List α)} (hmem : place ∈ positions start (lengthsOf pieces)) :
    start ≤ place ∧ place ≤ start + pieces.flatten.length := by
  induction pieces generalizing start with
  | nil => cases hmem
  | cons piece pieces ih =>
      rw [List.flatten_cons, List.length_append, Nat.cast_add]
      rw [lengthsOf_cons, positions] at hmem
      rcases List.mem_cons.mp hmem with rfl | hmem
      · omega
      · have hrest := ih hmem
        omega

structure Run (α : Type) where
  pieces : List (List α)
  /-- the lengths that the pieces are said to have -/
  lengths : List Int
  /-- what the source has behind the pieces -/
  rest : List α
  pieces_ne : pieces ≠ []
  length_lengths : lengths.length = pieces.length
  sum_nonneg : 0 ≤ lengths.sum
  sum_le : lengths.sum ≤ (pieces.flatten ++ rest).length

namespace Run

def copied (run : Run α) : List α := (run.pieces.flatten ++ run.rest).take run.lengths.sum.toNat

theorem length_copied (run : Run α) : (run.copied.length : Int) = run.lengths.sum := by
  have hnonneg := run.sum_nonneg
  have hle := run.sum_le
  rw [copied, List.length_take]
  omega

/-- The lengths are those that the pieces have. -/
def Exact (run : Run α) : Prop := run.lengths = lengthsOf run.pieces

theorem copied_of_exact {run : Run α} (h : run.Exact) : run.copied = run.pieces.flatten := by
  rw [copied, h, sum_lengthsOf, Int.toNat_natCast, List.take_left]

end Run

/-- The index, when the first run is at `start`. -/
def entries (start : Int) : List (Run α) → List Int
  | [] => []
  | run :: runs => positions start run.lengths ++ entries (start + run.copied.length) runs

def data (runs : List (Run α)) : List α := runs.flatMap Run.copied

def pieces (runs : List (Run α)) : List (List α) := runs.flatMap Run.pieces

@[simp] theorem pieces_cons (run : Run α) (runs : List (Run α)) : pieces (run :: runs) = run.pieces ++ pieces runs := rfl

@[simp] theorem data_cons (run : Run α) (runs : List (Run α)) : data (run :: runs) = run.copied ++ data runs := rfl

theorem forall₂_flatMap {ι β : Type} {docs : ι → List β} {P : β → List α → Prop} {jobs : List ι} {runs : List (Run α)}
    (h : List.Forall₂ (fun job run => List.Forall₂ P (docs job) run.pieces) jobs runs) :
    List.Forall₂ P (jobs.flatMap docs) (pieces runs) := by
  induction h with
  | nil => exact List.Forall₂.nil
  | cons hrun _ ih => exact List.rel_append hrun ih

@[simp] theorem length_entries (start : Int) (runs : List (Run α)) :
    (entries start runs).length = (pieces runs).length := by
  induction runs generalizing start with
  | nil => rfl
  | cons run runs ih =>
      rw [entries, pieces_cons, List.length_append, List.length_append, length_positions, run.length_lengths, ih]

theorem data_of_exact {runs : List (Run α)} (h : ∀ run ∈ runs, run.Exact) : data runs = (pieces runs).flatten := by
  induction runs with
  | nil => rfl
  | cons run runs ih =>
      rw [data_cons, pieces_cons, List.flatten_append, Run.copied_of_exact (h run List.mem_cons_self),
        ih fun r hmem => h r (List.mem_cons_of_mem _ hmem)]

theorem entries_of_exact (start : Int) {runs : List (Run α)} (h : ∀ run ∈ runs, run.Exact) :
    entries start runs = positions start (lengthsOf (pieces runs)) := by
  induction runs generalizing start with
  | nil => rfl
  | cons run runs ih =>
      have hrun : run.lengths = lengthsOf run.pieces := h run List.mem_cons_self
      rw [entries, ih _ fun r hmem => h r (List.mem_cons_of_mem _ hmem), pieces_cons, lengthsOf_append,
        positions_append, run.length_copied, hrun]

/-- One of the two does not begin with the other. -/
def Separate (piece piece' : List α) : Prop := ∀ source, piece <+: source → piece' <+: source → piece = piece'

theorem forall₂_common {β γ δ : Type} {P : β → γ → Prop} {Q : β → δ → Prop} {docs : List β} {l : List γ} {l' : List δ}
    (h : List.Forall₂ P docs l) (h' : List.Forall₂ Q docs l') : List.Forall₂ (fun c d => ∃ b, P b c ∧ Q b d) l l' := by
  induction h generalizing l' with
  | nil =>
      rw [List.forall₂_nil_left_iff.mp h']
      exact List.Forall₂.nil
  | cons hfirst _ ih =>
      obtain ⟨d, rest', hd, hrest', rfl⟩ := List.forall₂_cons_left_iff.mp h'
      exact List.Forall₂.cons ⟨_, hfirst, hd⟩ (ih hrest')

theorem forall₂_separate {β : Type} {P : β → List α → Prop} (hP : ∀ b piece piece', P b piece → P b piece' → Separate piece piece')
    {docs : List β} {pieces pieces' : List (List α)} (h : List.Forall₂ P docs pieces) (h' : List.Forall₂ P docs pieces') :
    List.Forall₂ Separate pieces pieces' :=
  (forall₂_common h h').imp fun _ _ ⟨b, hpiece, hpiece'⟩ => hP b _ _ hpiece hpiece'

theorem eq_of_flatten_prefixed {pieces pieces' : List (List α)} {source : List α}
    (hseparate : List.Forall₂ Separate pieces pieces') (h : pieces.flatten <+: source) (h' : pieces'.flatten <+: source) :
    pieces = pieces' := by
  induction hseparate generalizing source with
  | nil => rfl
  | cons hpiece _ ih =>
      rw [List.flatten_cons] at h h'
      obtain rfl := hpiece source ((List.prefix_append _ _).trans h) ((List.prefix_append _ _).trans h')
      obtain ⟨rest, rfl⟩ := h
      rw [List.append_assoc, List.prefix_append_right_inj] at h'
      rw [ih (List.prefix_append _ _) h']

/-- The index and the data are those of some pieces, of which none is confused with what is copied in its place. Then they
are the pieces that are copied, and all lengths are right. -/
theorem exact_of_entries {start : Int} {runs : List (Run α)} {pieces' : List (List α)}
    (hseparate : List.Forall₂ Separate (pieces runs) pieces') (hdata : data runs = pieces'.flatten)
    (hentries : entries start runs = positions start (lengthsOf pieces')) :
    pieces runs = pieces' ∧ ∀ run ∈ runs, run.Exact := by
  induction runs generalizing start pieces' with
  | nil =>
      rw [pieces, List.flatMap_nil, List.forall₂_nil_left_iff] at hseparate
      exact ⟨hseparate.symm, fun run hmem => absurd hmem List.not_mem_nil⟩
  | cons run runs ih =>
      rw [pieces_cons] at hseparate ⊢
      obtain ⟨pieces₁, pieces₂, hfirst, hothers, rfl⟩ : ∃ pieces₁ pieces₂, List.Forall₂ Separate run.pieces pieces₁ ∧
          List.Forall₂ Separate (pieces runs) pieces₂ ∧ pieces' = pieces₁ ++ pieces₂ :=
        ⟨_, _, (List.forall₂_take_append _ _ _ hseparate.flip).flip, (List.forall₂_drop_append _ _ _ hseparate.flip).flip,
          (List.take_append_drop _ _).symm⟩
      have hcount : run.lengths.length = pieces₁.length := run.length_lengths.trans hfirst.length_eq
      rw [data_cons, List.flatten_append] at hdata
      rw [entries, lengthsOf_append, positions_append] at hentries
      obtain ⟨hplaces, hrest⟩ := List.append_inj hentries (by
        rw [length_positions, length_positions, length_lengthsOf, hcount])
      -- the next run starts where this one ends
      have hend : run.copied.length = pieces₁.flatten.length := by
        cases runs with
        | nil =>
            rw [pieces, List.flatMap_nil, List.forall₂_nil_left_iff] at hothers
            rw [hothers, data, List.flatMap_nil, List.append_nil, List.flatten_nil, List.append_nil] at hdata
            rw [hdata]
        | cons run' runs =>
            have hcount' := hothers.length_eq
            rw [pieces_cons, List.length_append] at hcount'
            have hpos := List.length_pos_of_ne_nil run'.pieces_ne
            cases pieces₂ with
            | nil =>
                rw [List.length_nil] at hcount'
                omega
            | cons piece pieces₂ =>
                cases hlengths : run'.lengths with
                | nil =>
                    have hlength := run'.length_lengths
                    rw [hlengths, List.length_nil] at hlength
                    omega
                | cons length lengths =>
                    rw [entries, hlengths, lengthsOf_cons, positions, positions, List.cons_append] at hrest
                    have hhead := (List.cons.inj hrest).1
                    rw [sum_lengthsOf] at hhead
                    omega
      have hcopied : run.copied = pieces₁.flatten := (List.append_inj hdata hend).1
      have hpieces : run.pieces = pieces₁ := by
        apply eq_of_flatten_prefixed hfirst (List.prefix_append _ run.rest)
        rw [← hcopied, Run.copied]
        exact List.take_prefix _ _
      subst hpieces
      have hexact : run.Exact := by
        apply eq_of_positions_eq hplaces
        rw [← run.length_copied, hend, sum_lengthsOf]
      rw [hcopied, List.append_cancel_left_eq] at hdata
      rw [sum_lengthsOf, hend] at hrest
      obtain ⟨hpieces', hruns⟩ := ih hothers hdata hrest
      refine ⟨congrArg _ hpieces', fun r hmem => ?_⟩
      rcases List.mem_cons.mp hmem with rfl | hmem
      · exact hexact
      · exact hruns r hmem

/-- The places are not far outside the data, where lengths that are not right are small. -/
theorem mem_entries {bound count start place : Int} {runs : List (Run α)} (hbound : 0 ≤ bound) (hcount : 0 ≤ count)
    (hruns : ∀ run ∈ runs, run.Exact ∨ (∀ length ∈ run.lengths, |length| ≤ bound) ∧ (run.lengths.length : Int) ≤ count)
    (hmem : place ∈ entries start runs) :
    start - bound * count ≤ place ∧ place ≤ start + (data runs).length + bound * count := by
  have hproduct := mul_nonneg hbound hcount
  induction runs generalizing start with
  | nil => cases hmem
  | cons run runs ih =>
      rw [data_cons, List.length_append, Nat.cast_add]
      rw [entries, List.mem_append] at hmem
      rcases hmem with hmem | hmem
      · rcases hruns run List.mem_cons_self with hexact | ⟨hlengths, hlength⟩
        · rw [hexact] at hmem
          have hplace := le_of_mem_positions hmem
          rw [Run.copied_of_exact hexact]
          omega
        · have habs := abs_sub_le_of_mem_positions hbound hlengths hmem
          have hle := mul_le_mul_of_nonneg_left hlength hbound
          rw [abs_le] at habs
          omega
      · have hrest := ih (fun r hr => hruns r (List.mem_cons_of_mem _ hr)) hmem
        omega

end CopiedRuns
