import LucenePlusPlus.PriorityQueue
import LucenePlusPlus.Spans

/-!
The spans of `SpanOrQuery`, `SpanNotQuery` and `SpanFirstQuery`, made of the spans of their clauses. A loop over spans
of another enumeration makes at most `fuel` steps.
-/

namespace LucenePlusPlus

namespace FirstSpans
variable {σ : Type} (spans : Spans σ) (limit : Int)

/-- The loop of `next`. -/
def scan : Nat → σ → Bool × σ
  | 0, s => (false, s)
  | fuel + 1, s =>
      if (spans.next s).1 then
        if (spans.span (spans.next s).2).stop ≤ limit then (true, (spans.next s).2)
        else scan fuel (spans.next s).2
      else (false, (spans.next s).2)

def skipTo (fuel : Nat) (s : σ) (target : Int) : Bool × σ :=
  if (spans.skipTo s target).1 then
    if (spans.span (spans.skipTo s target).2).stop ≤ limit then (true, (spans.skipTo s target).2)
    else scan spans limit fuel (spans.skipTo s target).2
  else (false, (spans.skipTo s target).2)

/-- `FirstSpans` of a query whose `end` is the limit. -/
def firstSpans (fuel : Nat) : Spans σ where
  next := scan spans limit fuel
  skipTo := skipTo spans limit fuel
  span := spans.span

end FirstSpans

structure NotSpans (σ τ : Type) where
  includeSpans : σ
  moreInclude : Bool
  excludeSpans : τ
  moreExclude : Bool

namespace NotSpans
variable {σ τ : Type} (included : Spans σ) (excluded : Spans τ)

def new (includeSpans : σ) (excludeSpans : τ) : NotSpans σ τ where
  includeSpans := includeSpans
  moreInclude := true
  excludeSpans := (excluded.next excludeSpans).2
  moreExclude := (excluded.next excludeSpans).1

/-- The exclude is skipped to the document of the include. -/
def skipExclude (s : NotSpans σ τ) : NotSpans σ τ :=
  if s.moreExclude ∧ (excluded.span s.excludeSpans).doc < (included.span s.includeSpans).doc then
    { s with
      excludeSpans := (excluded.skipTo s.excludeSpans (included.span s.includeSpans).doc).2
      moreExclude := (excluded.skipTo s.excludeSpans (included.span s.includeSpans).doc).1 }
  else s

/-- While the exclude is before the include, it goes on. -/
def incrementExclude : Nat → NotSpans σ τ → NotSpans σ τ
  | 0, s => s
  | fuel + 1, s =>
      if s.moreExclude ∧ (included.span s.includeSpans).doc = (excluded.span s.excludeSpans).doc ∧
          (excluded.span s.excludeSpans).stop ≤ (included.span s.includeSpans).start then
        incrementExclude fuel
          { s with
            excludeSpans := (excluded.next s.excludeSpans).2
            moreExclude := (excluded.next s.excludeSpans).1 }
      else s

/-- The include and the exclude do not intersect. -/
def noIntersection (s : NotSpans σ τ) : Bool :=
  !s.moreExclude ∨ (included.span s.includeSpans).doc ≠ (excluded.span s.excludeSpans).doc ∨
    (included.span s.includeSpans).stop ≤ (excluded.span s.excludeSpans).start

def nextInclude (s : NotSpans σ τ) : NotSpans σ τ :=
  { s with
    includeSpans := (included.next s.includeSpans).2
    moreInclude := (included.next s.includeSpans).1 }

/-- The loop of `next`. -/
def scan (excludeFuel : Nat) : Nat → NotSpans σ τ → NotSpans σ τ
  | 0, s => s
  | fuel + 1, s =>
      if s.moreInclude ∧ s.moreExclude then
        let s := incrementExclude included excluded excludeFuel (skipExclude included excluded s)
        if noIntersection included excluded s then s else scan excludeFuel fuel (nextInclude included s)
      else s

def next (fuel : Nat) (s : NotSpans σ τ) : Bool × NotSpans σ τ :=
  let s := scan included excluded fuel fuel (if s.moreInclude then nextInclude included s else s)
  (s.moreInclude, s)

def skipTo (fuel : Nat) (s : NotSpans σ τ) (target : Int) : Bool × NotSpans σ τ :=
  let s := if s.moreInclude then
    { s with
      includeSpans := (included.skipTo s.includeSpans target).2
      moreInclude := (included.skipTo s.includeSpans target).1 } else s
  if s.moreInclude then
    let s := incrementExclude included excluded fuel (skipExclude included excluded s)
    if noIntersection included excluded s then (true, s) else next included excluded fuel s
  else (false, s)

def notSpans (fuel : Nat) : Spans (NotSpans σ τ) where
  next := next included excluded fuel
  skipTo := skipTo included excluded fuel
  span := fun s => included.span s.includeSpans

end NotSpans

/-- The clauses have the spans that `getSpans` gives for them. -/
structure OrSpans (σ : Type) where
  clauses : List σ
  queue : Option (PriorityQueue σ)

/-- `SpanQueue::lessThan` -/
def SpanQueue.lessThan (first second : Span) : Bool :=
  if first.doc = second.doc then
    if first.start = second.start then first.stop < second.stop else first.start < second.start
  else first.doc < second.doc

namespace OrSpans
variable {σ : Type} (spans : Spans σ)

def lessThan (first second : σ) : Bool := SpanQueue.lessThan (spans.span first) (spans.span second)

/-- The loop of `initSpanQueue`. The queue has room for all clauses. -/
def addClauses (target : Int) : List σ → PriorityQueue σ → PriorityQueue σ
  | [], queue => queue
  | clause :: clauses, queue =>
      let moved := if target = -1 then spans.next clause else spans.skipTo clause target
      if moved.1 then
        match queue.add (lessThan spans) moved.2 with
        | .ok queue => addClauses target clauses queue
        | .error queue => queue
      else addClauses target clauses queue

def initSpanQueue (s : OrSpans σ) (target : Int) : Bool × OrSpans σ :=
  let queue := addClauses spans target s.clauses (PriorityQueue.new s.clauses.length)
  (!queue.empty, { s with queue := some queue })

def next (s : OrSpans σ) : Bool × OrSpans σ :=
  match s.queue with
  | none => initSpanQueue spans s (-1)
  | some queue =>
      match queue.top with
      | none => (false, s)
      | some top =>
          if (spans.next top).1 then
            (true, { s with queue := some (queue.changeTop (lessThan spans) (spans.next top).2) })
          else (!(queue.pop (lessThan spans)).2.empty, { s with queue := some (queue.pop (lessThan spans)).2 })

/-- The loop of `skipTo`, which also tells if it has made a step. -/
def skip (target : Int) : Nat → Bool → PriorityQueue σ → Bool × PriorityQueue σ
  | 0, skipCalled, queue => (skipCalled, queue)
  | fuel + 1, skipCalled, queue =>
      match queue.top with
      | none => (skipCalled, queue)
      | some top =>
          if (spans.span top).doc < target then
            if (spans.skipTo top target).1 then
              skip target fuel true (queue.changeTop (lessThan spans) (spans.skipTo top target).2)
            else skip target fuel true (queue.pop (lessThan spans)).2
          else (skipCalled, queue)

def skipTo (s : OrSpans σ) (target : Int) : Bool × OrSpans σ :=
  match s.queue with
  | none => initSpanQueue spans s target
  | some queue =>
      let skipped := skip spans target queue.size false queue
      if skipped.1 then (!skipped.2.empty, { s with queue := some skipped.2 })
      else next spans { s with queue := some skipped.2 }

/-- Where `next` has found nothing, there is no place. -/
def orSpans : Spans (OrSpans σ) where
  next := next spans
  skipTo := skipTo spans
  span := fun s =>
    match s.queue.bind PriorityQueue.top with
    | none => ⟨-1, -1, -1⟩
    | some top => spans.span top

end OrSpans
end LucenePlusPlus
