import LucenePlusPlus.RankedQueue
import Mathlib.Order.WithBot

/-!
`TopScoreDocCollector`: the hits with the greatest scores, and of equal ones those with the least documents.
-/

namespace LucenePlusPlus

/-- A hit. Scores are numbers, or `⊥` for negative infinity. -/
structure ScoreDoc (S : Type) where
  doc : Nat
  score : WithBot S
  deriving DecidableEq

/-- `maxScore` is none where it is not a number. A null pointer in the array is none. -/
structure TopDocs (S : Type) where
  totalHits : Nat
  scoreDocs : List (Option (ScoreDoc S))
  maxScore : Option (WithBot S)
  deriving DecidableEq

variable {S : Type} [LinearOrder S]

def HitQueue.lessThan (first second : ScoreDoc S) : Bool :=
  if first.score = second.score then second.doc < first.doc else first.score < second.score

/-- `HitQueue::getSentinelObject` -/
def HitQueue.sentinel : ScoreDoc S := ⟨INT_MAX, ⊥⟩

structure TopScoreDocCollector (S : Type) where
  /-- its first element is the one `pqTop` points to -/
  pq : PriorityQueue (ScoreDoc S)
  docBase : Nat
  totalHits : Nat

namespace TopScoreDocCollector

def new (numHits : Nat) : TopScoreDocCollector S := ⟨.newPopulated HitQueue.sentinel numHits, 0, 0⟩

def setNextReader (docBase : Nat) (c : TopScoreDocCollector S) : TopScoreDocCollector S := { c with docBase := docBase }

/-- `pqTop` is given a new document and score. -/
def updateTop (c : TopScoreDocCollector S) (doc : Nat) (score : S) : TopScoreDocCollector S :=
  { c with pq := c.pq.changeTop HitQueue.lessThan ⟨doc, score⟩ }

end TopScoreDocCollector

/-- There always is a first element. -/
def InOrderTopScoreDocCollector.collect (c : TopScoreDocCollector S) (doc : Nat) (score : S) :
    TopScoreDocCollector S :=
  let c := { c with totalHits := c.totalHits + 1 }
  match c.pq.top with
  | none => c
  | some pqTop => if ↑score ≤ pqTop.score then c else c.updateTop (doc + c.docBase) score

def OutOfOrderTopScoreDocCollector.collect (c : TopScoreDocCollector S) (doc : Nat) (score : S) :
    TopScoreDocCollector S :=
  let c := { c with totalHits := c.totalHits + 1 }
  match c.pq.top with
  | none => c
  | some pqTop =>
      if ↑score < pqTop.score ∨ ↑score = pqTop.score ∧ pqTop.doc < doc + c.docBase then c
      else c.updateTop (doc + c.docBase) score

section Results
variable (c : TopScoreDocCollector S) (start howMany : Int)

def EMPTY_TOPDOCS : TopDocs S := ⟨0, [], none⟩

/-- `newTopDocs` of results that are not null: without the first ones, the greatest score is that of the element
that comes out last. -/
def TopScoreDocCollector.newTopDocs (pq : PriorityQueue (ScoreDoc S)) (results : List (Option (ScoreDoc S))) :
    TopDocs S :=
  let maxScore :=
    if start = 0 then (results.head?.join).map ScoreDoc.score
    else (((pq.discard HitQueue.lessThan (pq.size - 1)).pop HitQueue.lessThan).1).map ScoreDoc.score
  ⟨c.totalHits, results, maxScore⟩

def TopScoreDocCollector.topDocs : TopDocs S :=
  let size := if c.totalHits < c.pq.size then c.totalHits else c.pq.size
  if start < 0 ∨ size ≤ start ∨ howMany ≤ 0 then EMPTY_TOPDOCS
  else
    let howMany := min (size - start) howMany
    let pq := c.pq.discard HitQueue.lessThan (c.pq.size - start - howMany).toNat
    let populated := pq.popInto HitQueue.lessThan howMany.toNat
    c.newTopDocs start populated.2 populated.1

end Results

/-- The hits in a segment, in the order they are collected in. -/
structure SegmentHits (S : Type) where
  docBase : Nat
  hits : List (Nat × S)

def SegmentHits.scoreDocs (segment : SegmentHits S) : List (ScoreDoc S) :=
  segment.hits.map fun hit => ⟨hit.1 + segment.docBase, hit.2⟩

/-- All hits, with their documents in the index. -/
def scoreDocsOf (segments : List (SegmentHits S)) : List (ScoreDoc S) := segments.flatMap SegmentHits.scoreDocs

def collectAll (collect : TopScoreDocCollector S → Nat → S → TopScoreDocCollector S) (c : TopScoreDocCollector S)
    (segments : List (SegmentHits S)) : TopScoreDocCollector S :=
  segments.foldl (fun c segment =>
    segment.hits.foldl (fun c hit => collect c hit.1 hit.2) (c.setNextReader segment.docBase)) c

/-- `first` has the greater score, or the same score and a document that is not greater. -/
def ScoreDoc.RanksBefore (first second : ScoreDoc S) : Prop :=
  second.score < first.score ∨ first.score = second.score ∧ first.doc ≤ second.doc

instance : DecidableRel (@ScoreDoc.RanksBefore S _) := fun _ _ => inferInstanceAs (Decidable (_ ∨ _))

namespace ScoreDoc
variable {first second third : ScoreDoc S}

instance : Std.Total (@RanksBefore S _) where
  total first second := by
    unfold RanksBefore
    rcases lt_trichotomy first.score second.score with hlt | heq | hgt
    · exact Or.inr (Or.inl hlt)
    · rcases Nat.le_total first.doc second.doc with hle | hle
      · exact Or.inl (Or.inr ⟨heq, hle⟩)
      · exact Or.inr (Or.inr ⟨heq.symm, hle⟩)
    · exact Or.inl (Or.inl hgt)

instance : IsTrans (ScoreDoc S) RanksBefore where
  trans first second third := by
    rintro (h₁₂ | ⟨h₁₂, hle⟩) (h₂₃ | ⟨h₂₃, hle'⟩)
    · exact Or.inl (h₂₃.trans h₁₂)
    · exact Or.inl (h₂₃ ▸ h₁₂)
    · exact Or.inl (h₁₂ ▸ h₂₃)
    · exact Or.inr ⟨h₁₂.trans h₂₃, hle.trans hle'⟩

instance : Std.Antisymm (@RanksBefore S _) where
  antisymm first second := by
    rintro (h₁₂ | ⟨h₁₂, hle⟩) (h₂₁ | ⟨h₂₁, hle'⟩)
    · exact absurd h₁₂ h₂₁.not_gt
    · exact absurd h₂₁ h₁₂.ne
    · exact absurd h₁₂ h₂₁.ne
    · cases first
      cases second
      simp only [ScoreDoc.mk.injEq]
      exact ⟨hle.antisymm hle', h₁₂⟩

theorem ranks_lessThan : PriorityQueue.Ranks (@HitQueue.lessThan S _) RanksBefore := by
  intro first second
  unfold HitQueue.lessThan RanksBefore
  split
  · rename_i heq
    simp [heq]
  · rename_i hne
    rw [decide_eq_false_iff_not, not_lt]
    constructor
    · intro hle
      exact Or.inl (lt_of_le_of_ne hle (Ne.symm hne))
    · rintro (hlt | ⟨heq, -⟩)
      · exact hlt.le
      · exact absurd heq hne

theorem ranksBefore_sentinel (doc : Nat) (score : S) : RanksBefore ⟨doc, (score : WithBot S)⟩ HitQueue.sentinel :=
  Or.inl (WithBot.bot_lt_coe score)

end ScoreDoc

open Ranking ScoreDoc

/-- After these hits the queue has the best of them, and sentinels if they are too few. -/
structure TopScoreDocCollector.Keeps (numHits : Nat) (c : TopScoreDocCollector S) (hits : List (ScoreDoc S)) :
    Prop where
  holds : c.pq.Holds HitQueue.lessThan
    (best RanksBefore numHits (hits ++ List.replicate numHits HitQueue.sentinel) : Multiset (ScoreDoc S))
  totalHits : c.totalHits = hits.length

namespace TopScoreDocCollector
variable {numHits : Nat} {c : TopScoreDocCollector S} {hits : List (ScoreDoc S)} {doc : Nat} {score : S}

theorem keeps_new (hpos : 1 ≤ numHits) (hmax : numHits < INT_MAX) : (new numHits).Keeps numHits ([] : List (ScoreDoc S)) where
  holds := by
    have hself : HitQueue.lessThan (HitQueue.sentinel : ScoreDoc S) HitQueue.sentinel = false := by
      simp [HitQueue.lessThan]
    have hbest : best RanksBefore numHits (List.replicate numHits (HitQueue.sentinel : ScoreDoc S)) =
        List.replicate numHits HitQueue.sentinel := by
      rw [best, List.Pairwise.insertionSort_eq]
      · rw [List.take_replicate, min_self]
      · rw [List.pairwise_replicate]
        exact Or.inr (Or.inr ⟨rfl, le_rfl⟩)
    rw [List.nil_append, hbest, Multiset.coe_replicate]
    exact PriorityQueue.holds_newPopulated hself hpos hmax
  totalHits := rfl

theorem Keeps.length_le {α : Type} (hits : List α) (numHits : Nat) (sentinel : α) :
    numHits ≤ (hits ++ List.replicate numHits sentinel).length := by
  rw [List.length_append, List.length_replicate]
  exact Nat.le_add_left _ _

theorem Keeps.size_eq (h : c.Keeps numHits hits) : c.pq.size = numHits := by
  rw [← h.holds.card, Multiset.coe_card, length_best (Keeps.length_le hits numHits _)]

theorem Keeps.top (h : c.Keeps numHits hits) (hpos : 1 ≤ numHits) :
    ∃ pqTop, c.pq.top = some pqTop ∧ (pqTop ∈ hits ∨ pqTop = HitQueue.sentinel) := by
  obtain ⟨k, rfl⟩ : ∃ k, numHits = k + 1 := ⟨numHits - 1, by omega⟩
  obtain ⟨b, hb⟩ := best_eq_append (r := RanksBefore) (Keeps.length_le hits (k + 1) _)
  have hholds := h.holds
  have hsorted := @pairwise_best _ RanksBefore _ (hits ++ List.replicate (k + 1) HitQueue.sentinel) (k + 1) _ _
  rw [hb] at hholds hsorted
  obtain ⟨-, htop, -⟩ := hholds.pop_last ranks_lessThan hsorted
  refine ⟨b, htop, ?_⟩
  have hmem : b ∈ best RanksBefore (k + 1) (hits ++ List.replicate (k + 1) HitQueue.sentinel) := by
    rw [hb]
    simp
  have hall := (List.mem_insertionSort _).mp (List.mem_of_mem_take hmem)
  rcases List.mem_append.mp hall with hhit | hsentinel
  · exact Or.inl hhit
  · exact Or.inr (List.eq_of_mem_replicate hsentinel)

theorem Keeps.reject (h : c.Keeps numHits hits) (hpos : 1 ≤ numHits) {pqTop : ScoreDoc S}
    (htop : c.pq.top = some pqTop) {x : ScoreDoc S} (hx : RanksBefore pqTop x) :
    { c with totalHits := c.totalHits + 1 }.Keeps numHits (x :: hits) := by
  obtain ⟨k, rfl⟩ : ∃ k, numHits = k + 1 := ⟨numHits - 1, by omega⟩
  refine ⟨?_, ?_⟩
  · exact h.holds.keep_behind ranks_lessThan (Keeps.length_le hits (k + 1) _) htop hx
  · dsimp only
    rw [h.totalHits, List.length_cons]

theorem Keeps.accept (h : c.Keeps numHits hits) (hpos : 1 ≤ numHits) {pqTop : ScoreDoc S}
    (htop : c.pq.top = some pqTop) (hx : RanksBefore ⟨doc, score⟩ pqTop) :
    ({ c with totalHits := c.totalHits + 1 }.updateTop doc score).Keeps numHits (⟨doc, score⟩ :: hits) := by
  obtain ⟨k, rfl⟩ : ∃ k, numHits = k + 1 := ⟨numHits - 1, by omega⟩
  refine ⟨?_, ?_⟩
  · exact h.holds.keep_before ranks_lessThan (Keeps.length_le hits (k + 1) _) htop hx
  · dsimp only [updateTop]
    rw [h.totalHits, List.length_cons]

end TopScoreDocCollector

/-- Hits that may be collected after others are. -/
def Collects (numHits : Nat) (collect : TopScoreDocCollector S → Nat → S → TopScoreDocCollector S)
    (after : ScoreDoc S → ScoreDoc S → Prop) : Prop :=
  ∀ (c : TopScoreDocCollector S) (hits : List (ScoreDoc S)) (doc : Nat) (score : S), c.Keeps numHits hits →
    (∀ hit ∈ hits, after hit ⟨doc + c.docBase, score⟩) →
    (collect c doc score).Keeps numHits (⟨doc + c.docBase, score⟩ :: hits) ∧ (collect c doc score).docBase = c.docBase

section Variants
variable {numHits : Nat}

theorem inOrder_collects (hpos : 1 ≤ numHits) :
    Collects numHits (@InOrderTopScoreDocCollector.collect S _) fun hit hit' => hit.doc < hit'.doc := by
  intro c hits doc score h hafter
  obtain ⟨pqTop, htop, hmem⟩ := h.top hpos
  unfold InOrderTopScoreDocCollector.collect
  dsimp only
  rw [htop]
  dsimp only
  split
  · rename_i hle
    refine ⟨h.reject hpos htop ?_, rfl⟩
    rcases lt_or_eq_of_le hle with hlt | heq
    · exact Or.inl hlt
    · rcases hmem with hhit | rfl
      · exact Or.inr ⟨heq.symm, (hafter pqTop hhit).le⟩
      · exact absurd heq (WithBot.coe_ne_bot)
  · rename_i hgt
    exact ⟨h.accept hpos htop (Or.inl (not_le.mp hgt)), rfl⟩

theorem outOfOrder_collects (hpos : 1 ≤ numHits) :
    Collects numHits (@OutOfOrderTopScoreDocCollector.collect S _) fun _ _ => True := by
  intro c hits doc score h _
  obtain ⟨pqTop, htop, -⟩ := h.top hpos
  unfold OutOfOrderTopScoreDocCollector.collect
  dsimp only
  rw [htop]
  dsimp only
  split
  · rename_i hbehind
    refine ⟨h.reject hpos htop ?_, rfl⟩
    rcases hbehind with hlt | ⟨heq, hlt⟩
    · exact Or.inl hlt
    · exact Or.inr ⟨heq.symm, hlt.le⟩
  · rename_i hbefore
    refine ⟨h.accept hpos htop ?_, rfl⟩
    rw [not_or, not_lt, not_and, not_lt] at hbefore
    rcases lt_or_eq_of_le hbefore.1 with hlt | heq
    · exact Or.inl hlt
    · exact Or.inr ⟨heq.symm, hbefore.2 heq.symm⟩

end Variants

section Runs
variable {numHits : Nat} {collect : TopScoreDocCollector S → Nat → S → TopScoreDocCollector S}
  {after : ScoreDoc S → ScoreDoc S → Prop} {c : TopScoreDocCollector S} {earlier : List (ScoreDoc S)}

theorem Collects.hits (h : Collects numHits collect after) {hits : List (Nat × S)} (hc : c.Keeps numHits earlier)
    (hafter : (earlier.reverse ++ SegmentHits.scoreDocs ⟨c.docBase, hits⟩).Pairwise after) :
    (hits.foldl (fun c hit => collect c hit.1 hit.2) c).Keeps numHits
      ((SegmentHits.scoreDocs ⟨c.docBase, hits⟩).reverse ++ earlier) := by
  induction hits generalizing c earlier with
  | nil => exact hc
  | cons hit hits ih =>
      have hfirst : ∀ hit' ∈ earlier, after hit' ⟨hit.1 + c.docBase, hit.2⟩ := by
        intro hit' hmem
        exact (List.pairwise_append.mp hafter).2.2 hit' (List.mem_reverse.mpr hmem) _ List.mem_cons_self
      obtain ⟨hkeeps, hbase⟩ := h c earlier hit.1 hit.2 hc hfirst
      have hcons : SegmentHits.scoreDocs ⟨c.docBase, hit :: hits⟩ =
          ⟨hit.1 + c.docBase, (hit.2 : WithBot S)⟩ :: SegmentHits.scoreDocs ⟨c.docBase, hits⟩ := rfl
      have hrest : ((⟨hit.1 + c.docBase, hit.2⟩ :: earlier).reverse ++
          SegmentHits.scoreDocs ⟨c.docBase, hits⟩).Pairwise after := by
        rw [List.reverse_cons, List.append_assoc, List.singleton_append, ← hcons]
        exact hafter
      rw [← hbase] at hrest
      have hstep := ih hkeeps (by rw [hbase] at hrest ⊢; exact hrest)
      rw [hbase] at hstep
      rw [hcons, List.reverse_cons, List.append_assoc, List.foldl_cons]
      exact hstep

theorem Collects.segments (h : Collects numHits collect after) {segments : List (SegmentHits S)}
    (hc : c.Keeps numHits earlier) (hafter : (earlier.reverse ++ scoreDocsOf segments).Pairwise after) :
    (collectAll collect c segments).Keeps numHits ((scoreDocsOf segments).reverse ++ earlier) := by
  induction segments generalizing c earlier with
  | nil => exact hc
  | cons segment segments ih =>
      have hcons : scoreDocsOf (segment :: segments) = segment.scoreDocs ++ scoreDocsOf segments := List.flatMap_cons
      rw [hcons, ← List.append_assoc] at hafter
      have hnext : (c.setNextReader segment.docBase).Keeps numHits earlier := ⟨hc.holds, hc.totalHits⟩
      have hsegment := h.hits hnext (List.pairwise_append.mp hafter).1
      have hrest := ih hsegment (by
        rw [List.reverse_append, List.reverse_reverse]
        exact hafter)
      rw [hcons, List.reverse_append, List.append_assoc]
      exact hrest

theorem Collects.all (h : Collects numHits collect after) (hpos : 1 ≤ numHits) (hmax : numHits < INT_MAX)
    {segments : List (SegmentHits S)} (hafter : (scoreDocsOf segments).Pairwise after) :
    (collectAll collect (.new numHits) segments).Keeps numHits (scoreDocsOf segments).reverse := by
  have hall := h.segments (TopScoreDocCollector.keeps_new hpos hmax) hafter
  rw [List.append_nil] at hall
  exact hall

end Runs

/-! ### What is returned -/

/-- What a search for the best hits is to return from one position on. -/
structure IsTopDocs (hits : List (ScoreDoc S)) (numHits start howMany : Nat) (topDocs : TopDocs S) : Prop where
  totalHits : topDocs.totalHits = hits.length
  scoreDocs : topDocs.scoreDocs =
    ((((hits.insertionSort ScoreDoc.RanksBefore).take numHits).drop start).take howMany).map some
  maxScore : ∃ maxScore, topDocs.maxScore = some maxScore ∧ IsGreatest {score | ∃ hit ∈ hits, hit.score = score} maxScore

section Returned
variable {numHits : Nat} {c : TopScoreDocCollector S} {hits : List (ScoreDoc S)}

theorem discard_eq {α : Type} (lessThan : α → α → Bool) (n : Nat) (q : PriorityQueue α) :
    q.discard lessThan n = (q.popInto lessThan n).2 := by
  induction n generalizing q with
  | zero => rfl
  | succ n ih => exact ih _

theorem best_append_sentinels (hreal : ∀ hit ∈ hits, RanksBefore hit HitQueue.sentinel) (numHits : Nat) :
    best RanksBefore numHits (hits ++ List.replicate numHits HitQueue.sentinel) =
      (hits.insertionSort RanksBefore).take numHits ++ List.replicate (numHits - hits.length) HitQueue.sentinel := by
  have hsorted : (hits ++ List.replicate numHits HitQueue.sentinel).insertionSort RanksBefore =
      hits.insertionSort RanksBefore ++ List.replicate numHits HitQueue.sentinel := by
    apply List.Perm.eq_of_pairwise' (List.pairwise_insertionSort _ _)
    · rw [List.pairwise_append]
      refine ⟨List.pairwise_insertionSort _ _, ?_, fun hit hhit sentinel hsentinel => ?_⟩
      · rw [List.pairwise_replicate]
        exact Or.inr (Or.inr ⟨rfl, le_rfl⟩)
      · rw [List.eq_of_mem_replicate hsentinel]
        exact hreal hit ((List.mem_insertionSort _).mp hhit)
    · apply (List.perm_insertionSort _ _).trans
      exact List.Perm.append_right _ (List.perm_insertionSort _ _).symm
  rw [best, hsorted, List.take_append, List.length_insertionSort, List.take_replicate, min_eq_left (Nat.sub_le _ _)]

theorem isGreatest_head {first : ScoreDoc S} {rest : List (ScoreDoc S)}
    (h : hits.insertionSort RanksBefore = first :: rest) :
    IsGreatest {score | ∃ hit ∈ hits, hit.score = score} first.score := by
  have hsorted := List.pairwise_insertionSort RanksBefore hits
  rw [h, List.pairwise_cons] at hsorted
  constructor
  · refine ⟨first, (List.mem_insertionSort RanksBefore).mp ?_, rfl⟩
    rw [h]
    exact List.mem_cons_self
  · rintro _ ⟨hit, hmem, rfl⟩
    rw [← List.mem_insertionSort RanksBefore, h] at hmem
    rcases List.mem_cons.mp hmem with rfl | hrest
    · exact le_rfl
    · rcases hsorted.1 hit hrest with hlt | ⟨heq, -⟩
      · exact hlt.le
      · exact heq.ge

/-- What is left in the queue are the hits before those returned: the greatest score is the first one's. -/
theorem maxScore_of_holds {pq : PriorityQueue (ScoreDoc S)} {first : ScoreDoc S} {rest : List (ScoreDoc S)}
    (h : pq.Holds HitQueue.lessThan ((first :: rest : List (ScoreDoc S)) : Multiset (ScoreDoc S)))
    (hsorted : (first :: rest).Pairwise RanksBefore) :
    (((pq.discard HitQueue.lessThan (pq.size - 1)).pop HitQueue.lessThan).1).map ScoreDoc.score =
      some first.score := by
  have hsize : pq.size - 1 = rest.length := by
    rw [← h.card, Multiset.coe_card, List.length_cons]
    omega
  have hpopped := PriorityQueue.Holds.popInto (p := [first]) h ranks_lessThan hsorted
  obtain ⟨q', hinto, hholds⟩ := hpopped
  have hlast := PriorityQueue.Holds.pop_last (p := []) hholds ranks_lessThan (List.pairwise_singleton _ _)
  obtain ⟨q'', -, hpop, -⟩ := hlast
  rw [hsize, discard_eq, hinto, hpop]
  rfl

theorem TopScoreDocCollector.Keeps.topDocs (h : c.Keeps numHits hits)
    (hreal : ∀ hit ∈ hits, RanksBefore hit HitQueue.sentinel) {start howMany : Nat}
    (hstart : start < min hits.length numHits) (hhow : 1 ≤ howMany) :
    IsTopDocs hits numHits start howMany (c.topDocs start howMany) := by
  obtain ⟨B, hB⟩ : ∃ B, B = (hits.insertionSort RanksBefore).take numHits := ⟨_, rfl⟩
  have hlength : B.length = min numHits hits.length := by
    rw [hB, List.length_take, List.length_insertionSort]
  obtain ⟨k, hk⟩ : ∃ k, k = min (min hits.length numHits - start) howMany := ⟨_, rfl⟩
  -- the elements of the queue, from the best to the last
  have hholds := h.holds
  have hsorted := @pairwise_best _ RanksBefore _ (hits ++ List.replicate numHits HitQueue.sentinel) numHits _ _
  have hsize := h.size_eq
  rw [best_append_sentinels hreal, ← hB] at hholds hsorted
  have hsplit : B ++ List.replicate (numHits - hits.length) HitQueue.sentinel =
      (B.take start ++ (B.drop start).take k) ++
        (B.drop (start + k) ++ List.replicate (numHits - hits.length) HitQueue.sentinel) := by
    rw [← List.append_assoc]
    congr 1
    rw [List.append_assoc, ← List.drop_drop, List.take_append_drop, List.take_append_drop]
  rw [hsplit] at hholds hsorted
  obtain ⟨q, hdiscard, hq⟩ := hholds.popInto ranks_lessThan hsorted
  obtain ⟨q', hinto, hq'⟩ := hq.popInto ranks_lessThan (List.pairwise_append.mp hsorted).1
  have hslice : ((B.drop start).take k).length = k := by
    rw [List.length_take, List.length_drop, hlength]
    omega
  have hpopped : (B.drop (start + k) ++ List.replicate (numHits - hits.length) HitQueue.sentinel).length =
      numHits - start - k := by
    rw [List.length_append, List.length_drop, List.length_replicate, hlength]
    omega
  rw [hpopped] at hdiscard
  rw [hslice] at hinto
  -- the first of all
  obtain ⟨first, rest, hfirst⟩ : ∃ first rest, hits.insertionSort RanksBefore = first :: rest := by
    apply List.exists_cons_of_length_pos
    rw [List.length_insertionSort]
    omega
  have hBcons : B = first :: rest.take (numHits - 1) := by
    rw [hB, hfirst, List.take_cons (by omega)]
  have hmax : (c.newTopDocs start q' (((B.drop start).take k).map some)).maxScore = some first.score := by
    unfold TopScoreDocCollector.newTopDocs
    dsimp only
    split
    · rename_i hzero
      have hzero' : start = 0 := by omega
      obtain ⟨n, hn⟩ : ∃ n, k = n + 1 := ⟨k - 1, by omega⟩
      rw [hzero', hBcons, hn]
      rfl
    · rename_i hpos
      obtain ⟨n, hn⟩ : ∃ n, start = n + 1 := ⟨start - 1, by omega⟩
      rw [hBcons, hn, List.take_succ_cons] at hq'
      apply maxScore_of_holds hq'
      have hprefix := (List.pairwise_append.mp (List.pairwise_append.mp hsorted).1).1
      rw [hBcons, hn, List.take_succ_cons] at hprefix
      exact hprefix
  have heq : c.topDocs start howMany = c.newTopDocs start q' (((B.drop start).take k).map some) := by
    unfold TopScoreDocCollector.topDocs
    dsimp only
    rw [h.totalHits, hsize]
    have hmin : (if hits.length < numHits then hits.length else numHits) = min hits.length numHits := by
      split <;> omega
    rw [hmin, if_neg (by omega)]
    have hk' : min (((min hits.length numHits : Nat) : Int) - start) howMany = (k : Int) := by omega
    have hn : ((numHits : Int) - start - k).toNat = numHits - start - k := by omega
    rw [hk', hn, discard_eq, hdiscard, Int.toNat_natCast, hinto]
  rw [heq]
  refine ⟨h.totalHits, ?_, first.score, hmax, isGreatest_head hfirst⟩
  rw [← hB]
  change ((B.drop start).take k).map some = _
  congr 1
  rw [List.take_eq_take_iff, List.length_drop, hlength]
  omega

theorem TopScoreDocCollector.Keeps.topDocs_outside (h : c.Keeps numHits hits) {start howMany : Int}
    (hrange : ¬(0 ≤ start ∧ start < min hits.length numHits ∧ 1 ≤ howMany)) :
    c.topDocs start howMany = EMPTY_TOPDOCS := by
  have hmin : (if hits.length < numHits then hits.length else numHits) = min hits.length numHits := by
    split <;> omega
  unfold TopScoreDocCollector.topDocs
  dsimp only
  rw [h.totalHits, h.size_eq, hmin, if_pos (by omega)]

theorem IsTopDocs.congr {start howMany : Nat} {topDocs : TopDocs S} {hits' : List (ScoreDoc S)}
    (h : IsTopDocs hits numHits start howMany topDocs) (hperm : hits.Perm hits') :
    IsTopDocs hits' numHits start howMany topDocs where
  totalHits := h.totalHits.trans hperm.length_eq
  scoreDocs := by rw [h.scoreDocs, insertionSort_congr hperm]
  maxScore := by
    obtain ⟨maxScore, heq, hgreatest⟩ := h.maxScore
    refine ⟨maxScore, heq, ?_⟩
    have hset : {score | ∃ hit ∈ hits', hit.score = score} = {score | ∃ hit ∈ hits, hit.score = score} := by
      ext score
      simp only [Set.mem_ofPred_eq, hperm.mem_iff]
    rw [hset]
    exact hgreatest

theorem scoreDocsOf_real (segments : List (SegmentHits S)) :
    ∀ hit ∈ scoreDocsOf segments, RanksBefore hit HitQueue.sentinel := by
  intro hit hmem
  obtain ⟨segment, -, hhit⟩ := List.mem_flatMap.mp hmem
  obtain ⟨pair, -, rfl⟩ := List.mem_map.mp hhit
  exact ranksBefore_sentinel _ _

end Returned

/-- What a collector answers after these hits: the range if it begins among the hits kept, and nothing, not even
the number of the hits, if it does not. -/
def Answers (hits : List (ScoreDoc S)) (numHits : Nat) (start howMany : Int) (topDocs : TopDocs S) : Prop :=
  if 0 ≤ start ∧ start < min hits.length numHits ∧ 1 ≤ howMany then
    IsTopDocs hits numHits start.toNat howMany.toNat topDocs
  else topDocs = EMPTY_TOPDOCS

theorem TopScoreDocCollector.Keeps.answers {numHits : Nat} {c : TopScoreDocCollector S}
    {segments : List (SegmentHits S)} (h : c.Keeps numHits (scoreDocsOf segments).reverse) (start howMany : Int) :
    Answers (scoreDocsOf segments) numHits start howMany (c.topDocs start howMany) := by
  unfold Answers
  split
  · rename_i hrange
    rw [← List.length_reverse] at hrange
    obtain ⟨start', rfl⟩ := Int.eq_ofNat_of_zero_le hrange.1
    obtain ⟨howMany', rfl⟩ := Int.eq_ofNat_of_zero_le (le_of_lt hrange.2.2)
    have hreal : ∀ hit ∈ (scoreDocsOf segments).reverse, RanksBefore hit HitQueue.sentinel := by
      intro hit hmem
      exact scoreDocsOf_real segments hit (List.mem_reverse.mp hmem)
    exact (h.topDocs hreal (by omega) (by omega)).congr (List.reverse_perm _)
  · rename_i hrange
    rw [← List.length_reverse] at hrange
    exact h.topDocs_outside hrange

/-- Top hits by score, in the order of the documents or in any order. -/
theorem top_docs_by_score {numHits : Nat} (hpos : 1 ≤ numHits) (hmax : numHits < 2 ^ 30)
    (segments : List (SegmentHits S)) (start howMany : Int) :
    ((scoreDocsOf segments).Pairwise (fun hit hit' => hit.doc < hit'.doc) →
      Answers (scoreDocsOf segments) numHits start howMany
        ((collectAll InOrderTopScoreDocCollector.collect (.new numHits) segments).topDocs start howMany)) ∧
    Answers (scoreDocsOf segments) numHits start howMany
      ((collectAll OutOfOrderTopScoreDocCollector.collect (.new numHits) segments).topDocs start howMany) := by
  have hmax : numHits < INT_MAX := hmax.trans (by decide)
  constructor
  · intro horder
    exact ((inOrder_collects hpos).all hpos hmax horder).answers start howMany
  · have hany : (scoreDocsOf segments).Pairwise fun _ _ => True := List.pairwise_of_forall fun _ _ => trivial
    exact ((outOfOrder_collects hpos).all hpos hmax hany).answers start howMany

theorem top_docs_by_score_two_segments :
    Answers [⟨3, (7 : Nat)⟩, ⟨10, (7 : Nat)⟩] 1 0 1
      ((collectAll InOrderTopScoreDocCollector.collect (.new 1)
        [⟨0, [(3, (7 : Nat))]⟩, ⟨10, [(0, 7)]⟩]).topDocs 0 1) :=
  (top_docs_by_score (by decide) (by decide) [⟨0, [(3, (7 : Nat))]⟩, ⟨10, [(0, 7)]⟩] 0 1).1 (by decide)

/-- One hit is collected, and a range behind it is asked for: no hit is counted. -/
theorem hits_not_counted :
    ¬ IsTopDocs [⟨0, (5 : Nat)⟩] 1 1 1
      ((collectAll InOrderTopScoreDocCollector.collect (.new 1) [⟨0, [(0, (5 : Nat))]⟩]).topDocs 1 1) := by
  intro h
  have htotal := h.totalHits
  revert htotal
  decide

end LucenePlusPlus
