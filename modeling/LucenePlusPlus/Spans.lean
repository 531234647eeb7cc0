import Mathlib.Data.List.Sort
import Mathlib.Data.List.TakeWhile
import Mathlib.Data.Prod.Lex
import Mathlib.Order.Lattice.Nat
import Mathlib.Order.Interval.Basic

/-!
`Spans`: places in documents, one after the other, with skips. What the calls of an enumeration return is told by the
list of the spans that are to come.
-/

namespace LucenePlusPlus

/-- A place in a document, from `start()` to before `end()`. -/
structure Span where
  doc : Int
  start : Int
  stop : Int
  deriving DecidableEq

namespace Span

def key (span : Span) : Int ×ₗ Int ×ₗ Int := toLex (span.doc, toLex (span.start, span.stop))

theorem key_injective : Function.Injective key := by
  rintro ⟨doc, start, stop⟩ ⟨doc', start', stop'⟩ h
  simpa [key] using h

/-- By document, start and end. -/
instance : LinearOrder Span := LinearOrder.lift' key key_injective

variable {a b : Span}

theorem lt_iff : a < b ↔ a.doc < b.doc ∨ a.doc = b.doc ∧ (a.start < b.start ∨ a.start = b.start ∧ a.stop < b.stop) := by
  change key a < key b ↔ _
  rw [key, key, Prod.Lex.toLex_lt_toLex, Prod.Lex.toLex_lt_toLex]

theorem le_iff : a ≤ b ↔ a.doc < b.doc ∨ a.doc = b.doc ∧ (a.start < b.start ∨ a.start = b.start ∧ a.stop ≤ b.stop) := by
  change key a ≤ key b ↔ _
  rw [key, key, Prod.Lex.toLex_le_toLex, Prod.Lex.toLex_le_toLex]

theorem doc_le (h : a ≤ b) : a.doc ≤ b.doc := by
  rw [le_iff] at h
  omega

end Span

/-- The functions of an enumeration. `span` gives `doc()`, `start()` and `end()`. -/
structure Spans (σ : Type) where
  next : σ → Bool × σ
  skipTo : σ → Int → Bool × σ
  span : σ → Span

inductive SpansCall
  | next
  | skipTo (target : Int)

namespace SpansCall

/-- A skip goes behind the document that the enumeration is in. There is none when the enumeration is exhausted. -/
def Legal (position : Option Int) : SpansCall → Prop
  | next => True
  | skipTo target => ∀ doc, position = some doc → doc < target

/-- The spans from the one that the call moves to on. -/
def remaining (pending : List Span) : SpansCall → List Span
  | next => pending
  | skipTo target => pending.dropWhile (·.doc < target)

end SpansCall

namespace Spans
variable {σ : Type} (spans : Spans σ)

def call (s : σ) : SpansCall → Bool × σ
  | .next => spans.next s
  | .skipTo target => spans.skipTo s target

/-- These calls on an enumeration that is in a document are answered with the spans that are pending. -/
def Answers : List SpansCall → σ → Option Int → List Span → Prop
  | [], _, _, _ => True
  | call :: calls, s, position, pending =>
      call.Legal position →
        match call.remaining pending with
        | [] => (spans.call s call).1 = false ∧ Answers calls (spans.call s call).2 none []
        | span :: rest =>
            (spans.call s call).1 = true ∧ spans.span (spans.call s call).2 = span ∧
              Answers calls (spans.call s call).2 (some span.doc) rest

/-- Whatever calls are made, the enumeration goes on with these spans. -/
def Follows (s : σ) (position : Option Int) (pending : List Span) : Prop :=
  ∀ calls, spans.Answers calls s position pending

/-- From its start on, the enumeration has these spans. -/
def Enumerates (s : σ) (list : List Span) : Prop := spans.Follows s (some (-1)) list

variable {spans} {s : σ} {position : Option Int} {pending rest : List Span} {span : Span}

theorem Follows.call_nil (h : spans.Follows s position pending) (call : SpansCall) (hlegal : call.Legal position)
    (hremaining : call.remaining pending = []) :
    (spans.call s call).1 = false ∧ spans.Follows (spans.call s call).2 none [] := by
  have hanswers : ∀ calls, (spans.call s call).1 = false ∧ spans.Answers calls (spans.call s call).2 none [] := by
    intro calls
    have hcalls := h (call :: calls) hlegal
    rw [hremaining] at hcalls
    exact hcalls
  exact ⟨(hanswers []).1, fun calls => (hanswers calls).2⟩

theorem Follows.call_cons (h : spans.Follows s position pending) (call : SpansCall) (hlegal : call.Legal position)
    (hremaining : call.remaining pending = span :: rest) :
    (spans.call s call).1 = true ∧ spans.span (spans.call s call).2 = span ∧
      spans.Follows (spans.call s call).2 (some span.doc) rest := by
  have hanswers : ∀ calls, (spans.call s call).1 = true ∧ spans.span (spans.call s call).2 = span ∧
      spans.Answers calls (spans.call s call).2 (some span.doc) rest := by
    intro calls
    have hcalls := h (call :: calls) hlegal
    rw [hremaining] at hcalls
    exact hcalls
  exact ⟨(hanswers []).1, (hanswers []).2.1, fun calls => (hanswers calls).2.2⟩

theorem Follows.next_nil (h : spans.Follows s position []) :
    (spans.next s).1 = false ∧ spans.Follows (spans.next s).2 none [] :=
  h.call_nil .next trivial rfl

theorem Follows.next_cons (h : spans.Follows s position (span :: rest)) :
    (spans.next s).1 = true ∧ spans.span (spans.next s).2 = span ∧ spans.Follows (spans.next s).2 (some span.doc) rest :=
  h.call_cons .next trivial rfl

theorem Follows.skipTo_nil {target : Int} (h : spans.Follows s position pending) (hlegal : ∀ doc, position = some doc → doc < target)
    (hremaining : pending.dropWhile (·.doc < target) = []) :
    (spans.skipTo s target).1 = false ∧ spans.Follows (spans.skipTo s target).2 none [] :=
  h.call_nil (.skipTo target) hlegal hremaining

theorem Follows.skipTo_cons {target : Int} (h : spans.Follows s position pending) (hlegal : ∀ doc, position = some doc → doc < target)
    (hremaining : pending.dropWhile (·.doc < target) = span :: rest) :
    (spans.skipTo s target).1 = true ∧ spans.span (spans.skipTo s target).2 = span ∧
      spans.Follows (spans.skipTo s target).2 (some span.doc) rest :=
  h.call_cons (.skipTo target) hlegal hremaining

/-- The answer to one call, with what is kept for the next one. -/
def Keeps (spans : Spans σ) (Inv : σ → Option Int → List Span → Prop) (answer : Bool × σ) : List Span → Prop
  | [] => answer.1 = false ∧ Inv answer.2 none []
  | span :: rest => answer.1 = true ∧ spans.span answer.2 = span ∧ Inv answer.2 (some span.doc) rest

theorem follows_of_invariant (Inv : σ → Option Int → List Span → Prop) (hinit : Inv s position pending)
    (hcall : ∀ s position pending call, Inv s position pending → call.Legal position →
      spans.Keeps Inv (spans.call s call) (call.remaining pending)) : spans.Follows s position pending := by
  intro calls
  induction calls generalizing s position pending with
  | nil => trivial
  | cons call calls ih =>
      intro hlegal
      have hkeeps := hcall s position pending call hinit hlegal
      generalize call.remaining pending = remaining at hkeeps ⊢
      cases remaining with
      | nil => exact ⟨hkeeps.1, ih hkeeps.2⟩
      | cons span rest => exact ⟨hkeeps.1, hkeeps.2.1, ih hkeeps.2.2⟩

theorem Follows.keeps (h : spans.Follows s position pending) (call : SpansCall) (hlegal : call.Legal position) :
    spans.Keeps spans.Follows (spans.call s call) (call.remaining pending) := by
  generalize hremaining : call.remaining pending = remaining
  cases remaining with
  | nil => exact h.call_nil call hlegal hremaining
  | cons span rest => exact h.call_cons call hlegal hremaining

/-- The spans of a list, with the one that the enumeration is at. -/
def ofList : Spans (Span × List Span) where
  next := fun s =>
    match s.2 with
    | [] => (false, s)
    | span :: rest => (true, (span, rest))
  skipTo := fun s target =>
    match s.2.dropWhile (·.doc < target) with
    | [] => (false, (s.1, []))
    | span :: rest => (true, (span, rest))
  span := Prod.fst

theorem ofList_follows (at_ : Span) (position : Option Int) (pending : List Span) :
    ofList.Follows (at_, pending) position pending := by
  apply follows_of_invariant fun s _ pending => s.2 = pending
  · rfl
  · rintro ⟨at_, rest⟩ position pending call rfl -
    cases call with
    | next =>
        cases rest with
        | nil => exact ⟨rfl, rfl⟩
        | cons span rest => exact ⟨rfl, rfl, rfl⟩
    | skipTo target =>
        unfold SpansCall.remaining call ofList
        dsimp only
        generalize rest.dropWhile (·.doc < target) = remaining
        cases remaining with
        | nil => exact ⟨rfl, rfl⟩
        | cons span rest => exact ⟨rfl, rfl, rfl⟩

theorem mem_dropWhile_of_neg {p : Span → Bool} {list : List Span} (hmem : span ∈ list) (hp : p span = false) :
    span ∈ list.dropWhile p := by
  rw [← List.takeWhile_append_dropWhile (p := p) (l := list), List.mem_append] at hmem
  rcases hmem with hmem | hmem
  · rw [List.mem_takeWhile_imp hmem] at hp
    cases hp
  · exact hmem

theorem neg_of_dropWhile_eq_cons {p : Span → Bool} {list : List Span} (h : list.dropWhile p = span :: rest) :
    p span = false := by
  have hhead := List.head?_dropWhile_not p list
  rw [h] at hhead
  exact hhead

/-- In a sorted list, a skip leaves the spans of the documents from the target on. -/
theorem dropWhile_eq_filter {list : List Span} (h : list.Pairwise (· ≤ ·)) (target : Int) :
    list.dropWhile (·.doc < target) = list.filter (fun span => ¬ span.doc < target) := by
  induction list with
  | nil => rfl
  | cons span list ih =>
      rw [List.pairwise_cons] at h
      by_cases hlt : span.doc < target
      · rw [List.dropWhile_cons_of_pos (by simpa using hlt), List.filter_cons_of_neg (by simpa using hlt), ih h.2]
      · rw [List.dropWhile_cons_of_neg (by simpa using hlt), eq_comm, List.filter_eq_self]
        intro span' hmem
        rcases List.mem_cons.mp hmem with rfl | hmem
        · simpa using hlt
        · have hle := Span.doc_le (h.1 span' hmem)
          simp only [decide_eq_true_eq]
          omega

end Spans
end LucenePlusPlus
