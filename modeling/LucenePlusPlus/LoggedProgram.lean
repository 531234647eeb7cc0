import Mathlib.Data.List.Basic

/-!
Programs over operations that are given from outside. A program changes a state, may fail, and leaves a log of the operations
it has asked for; where two sets of operations agree on all of a log, the program does the same with both.
-/

def LoggedProgram (Ops State Entry α : Type) : Type := Ops → State → List Entry × Option (α × State)

namespace LoggedProgram
variable {Ops State Entry α β : Type}

instance : Monad (LoggedProgram Ops State Entry) where
  pure a := fun _ s => ([], some (a, s))
  bind program next := fun ops s =>
    match program ops s with
    | (log, none) => (log, none)
    | (log, some (a, s)) => (log ++ (next a ops s).1, (next a ops s).2)

/-- What the state determines, when it is defined there. -/
def ofState (f : State → Option α) : LoggedProgram Ops State Entry α := fun _ s => ([], (f s).map fun a => (a, s))

def modify (f : State → State) : LoggedProgram Ops State Entry Unit := fun _ s => ([], some ((), f s))

/-- Asks the operations and logs what it has asked. -/
def ask (entry : State → Entry) (f : Ops → State → α × State) : LoggedProgram Ops State Entry α :=
  fun ops s => ([entry s], some (f ops s))

/-- The log forgotten. -/
def result (program : LoggedProgram Ops State Entry α) (ops : Ops) (s : State) : Option (α × State) := (program ops s).2

variable {ops : Ops} {s s' : State} {a : α} {program : LoggedProgram Ops State Entry α}
  {next : α → LoggedProgram Ops State Entry β}

theorem bind_of_eq {log : List Entry} (h : program ops s = (log, some (a, s'))) :
    (program >>= next) ops s = (log ++ (next a ops s').1, (next a ops s').2) := by
  change (match program ops s with
    | (log, none) => (log, none)
    | (log, some (a, s)) => (log ++ (next a ops s).1, (next a ops s).2)) = _
  rw [h]

theorem ofState_of_eq {f : State → Option α} (h : f s = some a) :
    (ofState f : LoggedProgram Ops State Entry α) ops s = ([], some (a, s)) :=
  congrArg (fun value => ([], Option.map (fun a => (a, s)) value)) h

theorem result_bind : result (program >>= next) ops s = (program.result ops s).bind fun r => (next r.1).result ops r.2 := by
  change (match program ops s with
    | (log, none) => (log, none)
    | (log, some (a, s)) => (log ++ (next a ops s).1, (next a ops s).2)).2 = ((program ops s).2).bind _
  cases program ops s with
  | mk log value => cases value <;> rfl

theorem result_bind_of_eq (h : program.result ops s = some (a, s')) :
    result (program >>= next) ops s = (next a).result ops s' := by
  rw [result_bind, h, Option.bind_some]

@[simp] theorem result_ofState (f : State → Option α) :
    result (ofState f : LoggedProgram Ops State Entry α) ops s = (f s).map fun a => (a, s) := rfl

variable (agree : Ops → Ops → Entry → Prop)

/-- Where two sets of operations agree on the log that the first leaves, the second leaves the same and does the same. -/
def Congr (program : LoggedProgram Ops State Entry α) : Prop :=
  ∀ ops ops' s, (∀ entry ∈ (program ops s).1, agree ops ops' entry) → program ops' s = program ops s

variable {agree}

theorem congr_pure (a : α) : Congr agree (pure a : LoggedProgram Ops State Entry α) := fun _ _ _ _ => rfl

theorem congr_ofState (f : State → Option α) : Congr agree (ofState f : LoggedProgram Ops State Entry α) :=
  fun _ _ _ _ => rfl

theorem congr_modify (f : State → State) : Congr agree (modify f : LoggedProgram Ops State Entry Unit) :=
  fun _ _ _ _ => rfl

theorem congr_bind (h : Congr agree program) (hnext : ∀ a, Congr agree (next a)) : Congr agree (program >>= next) := by
  intro ops ops' s hlog
  change (match program ops' s with
    | (log, none) => (log, none)
    | (log, some (a, s)) => (log ++ (next a ops' s).1, (next a ops' s).2)) = match program ops s with
    | (log, none) => (log, none)
    | (log, some (a, s)) => (log ++ (next a ops s).1, (next a ops s).2)
  change ∀ entry ∈ (match program ops s with
    | (log, none) => (log, none)
    | (log, some (a, s)) => (log ++ (next a ops s).1, (next a ops s).2)).1, agree ops ops' entry at hlog
  have hfirst := h ops ops' s
  revert hlog hfirst
  cases program ops s with
  | mk log value =>
    cases value with
    | none =>
      intro hlog hfirst
      rw [hfirst hlog]
    | some r =>
      intro hlog hfirst
      rw [hfirst fun entry hentry => hlog entry (List.mem_append_left _ hentry)]
      dsimp only
      rw [hnext r.1 ops ops' r.2 fun entry hentry => hlog entry (List.mem_append_right _ hentry)]

theorem congr_ite {c : Prop} [Decidable c] {other : LoggedProgram Ops State Entry α} (h : Congr agree program)
    (hother : Congr agree other) : Congr agree (if c then program else other) := by
  split
  · exact h
  · exact hother

theorem congr_ask {entry : State → Entry} {f : Ops → State → α × State}
    (h : ∀ ops ops' s, agree ops ops' (entry s) → f ops' s = f ops s) :
    Congr agree (ask entry f : LoggedProgram Ops State Entry α) := fun ops ops' s hlog =>
  congrArg (fun r => ([entry s], some r)) (h ops ops' s (hlog _ List.mem_cons_self))

end LoggedProgram
