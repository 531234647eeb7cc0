import LucenePlusPlus.PriorityQueue

/-!
`DocIdSetIterator`: the documents of a set one after the other, with skips. A call answers with the first document of
the set that is not before a target.
-/

namespace LucenePlusPlus

/-- `DocIdSetIterator::NO_MORE_DOCS` -/
def NO_MORE_DOCS : Int := INT_MAX

/-- `doc` is the first document from `target` on, or `NO_MORE_DOCS` if there is none. -/
def IsFirst (docs : Set Nat) (target doc : Int) : Prop :=
  (∃ n ∈ docs, doc = n ∧ target ≤ n ∧ ∀ m ∈ docs, target ≤ (m : Int) → n ≤ m) ∨
    doc = NO_MORE_DOCS ∧ ∀ m ∈ docs, ¬ target ≤ (m : Int)

theorem IsFirst.target_le {docs : Set Nat} {target doc : Int} (h : IsFirst docs target doc)
    (htarget : target ≤ NO_MORE_DOCS) : target ≤ doc := by
  rcases h with ⟨n, -, rfl, hle, -⟩ | ⟨rfl, -⟩
  · exact hle
  · exact htarget

theorem IsFirst.self {docs : Set Nat} {n : Nat} (h : n ∈ docs) : IsFirst docs n n :=
  Or.inl ⟨n, h, rfl, le_rfl, fun _ _ hle => Int.ofNat_le.mp hle⟩

theorem IsFirst.none {docs : Set Nat} {target : Int} (h : ∀ m ∈ docs, ¬ target ≤ (m : Int)) :
    IsFirst docs target NO_MORE_DOCS :=
  Or.inr ⟨rfl, h⟩

theorem IsFirst.of_le {docs : Set Nat} {target next doc : Int} (h : IsFirst docs next doc) (hle : target ≤ next)
    (hskip : ∀ m ∈ docs, target ≤ (m : Int) → next ≤ m) : IsFirst docs target doc := by
  rcases h with ⟨n, hmem, rfl, hnext, hleast⟩ | ⟨rfl, hnone⟩
  · exact Or.inl ⟨n, hmem, rfl, hle.trans hnext, fun m hm htarget => hleast m hm (hskip m hm htarget)⟩
  · exact Or.inr ⟨rfl, fun m hm htarget => hnone m hm (hskip m hm htarget)⟩

theorem IsFirst.mem {docs : Set Nat} {target doc : Int} (h : IsFirst docs target doc) :
    doc = NO_MORE_DOCS ∨ ∃ n ∈ docs, doc = n := by
  rcases h with ⟨n, hmem, heq, -⟩ | ⟨heq, -⟩
  · exact Or.inr ⟨n, hmem, heq⟩
  · exact Or.inl heq

theorem IsFirst.le_of_mem {docs : Set Nat} {target doc : Int} (h : IsFirst docs target doc) {m : Nat} (hm : m ∈ docs)
    (htarget : target ≤ (m : Int)) : doc ≤ m := by
  rcases h with ⟨n, -, rfl, -, hleast⟩ | ⟨-, hnone⟩
  · exact Int.ofNat_le.mpr (hleast m hm htarget)
  · exact absurd htarget (hnone m hm)

theorem IsFirst.le_noMoreDocs {docs : Set Nat} {target doc : Int} (h : IsFirst docs target doc)
    (hdocs : ∀ n ∈ docs, (n : Int) < NO_MORE_DOCS) : doc ≤ NO_MORE_DOCS := by
  rcases h.mem with rfl | ⟨n, hmem, rfl⟩
  · exact le_rfl
  · exact (hdocs n hmem).le

theorem IsFirst.mem_iff {docs : Set Nat} {n : Nat} {doc : Int} (h : IsFirst docs n doc) (hn : (n : Int) < NO_MORE_DOCS) :
    n ∈ docs ↔ doc = n := by
  constructor
  · intro hmem
    rcases h with ⟨m, -, rfl, hle, hleast⟩ | ⟨-, hnone⟩
    · have hmn := hleast n hmem le_rfl
      omega
    · exact absurd le_rfl (hnone n hmem)
  · rintro rfl
    rcases h with ⟨m, hmem, heq, -⟩ | ⟨heq, -⟩
    · rw [Int.natCast_inj] at heq
      rwa [heq]
    · omega

/-- The functions of an iterator, with the document they return. -/
structure DocIdSetIterator (σ : Type) where
  nextDoc : σ → Int × σ
  advance : σ → Int → Int × σ

inductive IteratorCall
  | nextDoc
  | advance (target : Int)

namespace IteratorCall

/-- The first document that a call on `doc` may return. -/
def target (doc : Int) : IteratorCall → Int
  | nextDoc => doc + 1
  | advance target => target

/-- The iterator is on `doc` and not exhausted, and the target is behind it. -/
def Legal (doc : Int) : IteratorCall → Prop
  | nextDoc => doc < NO_MORE_DOCS
  | advance target => doc < target ∧ target ≤ NO_MORE_DOCS

theorem Legal.target {call : IteratorCall} {doc : Int} (h : call.Legal doc) :
    doc < call.target doc ∧ call.target doc ≤ NO_MORE_DOCS := by
  cases call with
  | nextDoc =>
      have hlt : doc < NO_MORE_DOCS := h
      exact ⟨Int.lt_succ doc, hlt⟩
  | advance target => exact h

end IteratorCall

namespace DocIdSetIterator
variable {σ : Type} (it : DocIdSetIterator σ)

def call (s : σ) : IteratorCall → Int × σ
  | .nextDoc => it.nextDoc s
  | .advance target => it.advance s target

/-- These calls on an iterator on `doc` are answered with the first documents of the set. -/
def Answers (docs : Set Nat) : σ → Int → List IteratorCall → Prop
  | _, _, [] => True
  | s, doc, call :: calls =>
      call.Legal doc → IsFirst docs (call.target doc) (it.call s call).1 ∧
        Answers docs (it.call s call).2 (it.call s call).1 calls

/-- Whatever calls are made, the iterator returns the documents of the set in their order. -/
def Enumerates (s : σ) (docs : Set Nat) : Prop := ∀ calls, it.Answers docs s (-1) calls

/-- Whatever calls are made on an iterator on `doc`. -/
def AnswersAll (docs : Set Nat) (s : σ) (doc : Int) : Prop := ∀ calls, it.Answers docs s doc calls

variable {it} {s : σ} {docs docs' : Set Nat}

theorem AnswersAll.call {doc : Int} {call : IteratorCall} (h : it.AnswersAll docs s doc) (hlegal : call.Legal doc) :
    IsFirst docs (call.target doc) (it.call s call).1 ∧ it.AnswersAll docs (it.call s call).2 (it.call s call).1 :=
  ⟨(h [call] hlegal).1, fun calls => (h (call :: calls) hlegal).2⟩

theorem AnswersAll.nextDoc {doc : Int} (h : it.AnswersAll docs s doc) (hlt : doc < NO_MORE_DOCS) :
    IsFirst docs (doc + 1) (it.nextDoc s).1 ∧ it.AnswersAll docs (it.nextDoc s).2 (it.nextDoc s).1 :=
  @AnswersAll.call _ _ _ _ _ .nextDoc h hlt

theorem AnswersAll.advance {doc target : Int} (h : it.AnswersAll docs s doc) (hlt : doc < target)
    (hle : target ≤ NO_MORE_DOCS) :
    IsFirst docs target (it.advance s target).1 ∧ it.AnswersAll docs (it.advance s target).2 (it.advance s target).1 :=
  @AnswersAll.call _ _ _ _ _ (.advance target) h ⟨hlt, hle⟩

theorem enumerates_of_invariant (Inv : σ → Int → Prop) (hinit : Inv s (-1))
    (hcall : ∀ s doc call, Inv s doc → call.Legal doc →
      IsFirst docs (call.target doc) (it.call s call).1 ∧ Inv (it.call s call).2 (it.call s call).1) :
    it.Enumerates s docs := by
  have hall : ∀ calls s doc, Inv s doc → it.Answers docs s doc calls := by
    intro calls
    induction calls with
    | nil => exact fun _ _ _ => trivial
    | cons call calls ih =>
        intro s doc hinv hlegal
        obtain ⟨hfirst, hnext⟩ := hcall s doc call hinv hlegal
        exact ⟨hfirst, ih _ _ hnext⟩
  exact fun calls => hall calls s (-1) hinit

/-- The states that legal calls lead to, with the document that was returned last. -/
inductive Reached (it : DocIdSetIterator σ) (start : σ) : σ → Int → Prop
  | new : Reached it start start (-1)
  | call {s : σ} {doc : Int} {call : IteratorCall} (h : Reached it start s doc) (hlegal : call.Legal doc) :
      Reached it start (it.call s call).2 (it.call s call).1

theorem Reached.invariant {start : σ} {doc : Int} (h : it.Reached start s doc) (Inv : σ → Int → Prop)
    (hinit : Inv start (-1))
    (hcall : ∀ s doc call, Inv s doc → call.Legal doc → Inv (it.call s call).2 (it.call s call).1) : Inv s doc := by
  induction h with
  | new => exact hinit
  | call _ hlegal ih => exact hcall _ _ _ ih hlegal

theorem Enumerates.unique (h : it.Enumerates s docs) (h' : it.Enumerates s docs')
    (hdocs : ∀ n ∈ docs, (n : Int) < NO_MORE_DOCS) (hdocs' : ∀ n ∈ docs', (n : Int) < NO_MORE_DOCS) : docs = docs' := by
  ext n
  by_cases hn : (n : Int) < NO_MORE_DOCS
  · have hlegal : (IteratorCall.advance n).Legal (-1) := ⟨by omega, hn.le⟩
    have hfirst := (h [.advance n] hlegal).1
    have hfirst' := (h' [.advance n] hlegal).1
    exact (hfirst.mem_iff hn).trans (hfirst'.mem_iff hn).symm
  · exact iff_of_false (fun hmem => hn (hdocs n hmem)) (fun hmem => hn (hdocs' n hmem))

end DocIdSetIterator
end LucenePlusPlus
