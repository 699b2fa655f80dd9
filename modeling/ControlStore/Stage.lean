import ControlStore.Log

/-!
# Reports and stages

A `Report` is the answer of a computation that may fail, with the notices that it gave on the way.
A `Stage` also works on a state. When a stage fails, the state is left as it was at that point:
what has been done before a failure stays done, and the notices given so far are kept.

`Report` and `Stage` are lawful monads (`instLawfulMonadReport`, `instLawfulMonadStage`), and
`Stage.run_bind_ok` and `Stage.run_bind_error` say how one stage follows another.
-/

namespace ControlStore

/-- A result is reached through a first one exactly when both steps succeed. -/
theorem bind_eq_ok_iff {ε α β : Type} {first : Except ε α} {next : α → Except ε β} {b : β} :
    (first >>= next) = .ok b ↔ ∃ a, first = .ok a ∧ next a = .ok b := by
  cases first with
  | error e => simp [bind, Except.bind]
  | ok a => simp [bind, Except.bind]

/-- The notices of a computation, and its answer or the cause of its failure. -/
structure Report (ε α : Type) where
  log : List Notice
  result : Except ε α

namespace Report

variable {ε α β : Type}

/-- Goes on with an answer, after the notices given so far. -/
def andThen (report : Report ε α) (next : α → Report ε β) : Report ε β :=
  match report.result with
  | .ok a => ⟨report.log ++ (next a).log, (next a).result⟩
  | .error e => ⟨report.log, .error e⟩

instance : Monad (Report ε) where
  pure a := ⟨[], .ok a⟩
  bind := andThen

def fail (cause : ε) : Report ε α := ⟨[], .error cause⟩

def note (notice : Notice) : Report ε Unit := ⟨[notice], .ok ()⟩

def ofExcept (result : Except ε α) : Report ε α := ⟨[], result⟩

instance : MonadLift (Except ε) (Report ε) := ⟨ofExcept⟩

/-- The same report with its failure restated. -/
def mapError {ε' : Type} (f : ε → ε') (report : Report ε α) : Report ε' α :=
  ⟨report.log, report.result.mapError f⟩

/-- An answer alone is a report without notices. -/
theorem pure_def (a : α) : (pure a : Report ε α) = ⟨[], .ok a⟩ := rfl

/-- Composition of reports is `andThen`. -/
theorem bind_def (report : Report ε α) (next : α → Report ε β) :
    report >>= next = report.andThen next := rfl

instance instLawfulMonadReport : LawfulMonad (Report ε) := by
  refine LawfulMonad.mk' _ ?_ ?_ ?_
  · intro α ⟨log, result⟩
    cases result <;> simp [Functor.map, andThen]
  · intro α β a next
    simp [bind, pure, andThen]
  · intro α β γ ⟨log, result⟩ f g
    cases result with
    | error e => rfl
    | ok a =>
      simp only [bind_def, andThen]
      cases h : (f a).result <;> simp [List.append_assoc]

end Report

/-- A report together with the state that the computation left. -/
structure Outcome (ε σ α : Type) extends Report ε α where
  state : σ

/-- A computation that works on a state of type `σ`, gives notices and may fail. -/
def Stage (ε σ α : Type) : Type := σ → Outcome ε σ α

namespace Stage

variable {ε σ α β : Type}

/-- Starts a stage in the given state. -/
def run (stage : Stage ε σ α) (state : σ) : Outcome ε σ α := stage state

/-- Goes on from the state that the first stage left, unless it failed. -/
def andThen (stage : Stage ε σ α) (next : α → Stage ε σ β) : Stage ε σ β := fun state =>
  let first := stage.run state
  match first.result with
  | .ok a =>
    let second := (next a).run first.state
    { log := first.log ++ second.log, result := second.result, state := second.state }
  | .error e => { log := first.log, result := .error e, state := first.state }

instance : Monad (Stage ε σ) where
  pure a := fun state => { log := [], result := .ok a, state }
  bind := andThen

instance : MonadStateOf σ (Stage ε σ) where
  get := fun state => { log := [], result := .ok state, state }
  set state := fun _ => { log := [], result := .ok (), state }
  modifyGet f := fun state => { log := [], result := .ok (f state).1, state := (f state).2 }

def fail (cause : ε) : Stage ε σ α := fun state => { log := [], result := .error cause, state }

def note (notice : Notice) : Stage ε σ Unit := fun state =>
  { log := [notice], result := .ok (), state }

/-- A report as a stage that leaves the state alone. -/
def ofReport (report : Report ε α) : Stage ε σ α := fun state => { report with state }

instance : MonadLift (Report ε) (Stage ε σ) := ⟨ofReport⟩

instance : MonadLift (Except ε) (Stage ε σ) := ⟨fun result => ofReport (.ofExcept result)⟩

/-- An answer alone leaves the state as it is. -/
theorem run_pure (a : α) (state : σ) :
    (pure a : Stage ε σ α).run state = { log := [], result := .ok a, state } := rfl

/-- Composition of stages is `andThen`. -/
theorem run_bind (stage : Stage ε σ α) (next : α → Stage ε σ β) (state : σ) :
    (stage >>= next).run state = stage.andThen next state := rfl

/-- After a stage that succeeds the next one starts in the state it left. -/
theorem run_bind_ok {stage : Stage ε σ α} {next : α → Stage ε σ β} {state : σ} {a : α}
    (h : (stage.run state).result = .ok a) :
    (stage >>= next).run state =
      { log := (stage.run state).log ++ ((next a).run (stage.run state).state).log
        result := ((next a).run (stage.run state).state).result
        state := ((next a).run (stage.run state).state).state } := by
  simp [run_bind, andThen, h]

/-- After a stage that fails nothing more happens. -/
theorem run_bind_error {stage : Stage ε σ α} {next : α → Stage ε σ β} {state : σ} {e : ε}
    (h : (stage.run state).result = .error e) :
    (stage >>= next).run state =
      { log := (stage.run state).log, result := .error e, state := (stage.run state).state } := by
  simp [run_bind, andThen, h]

instance instLawfulMonadStage : LawfulMonad (Stage ε σ) := by
  refine LawfulMonad.mk' _ ?_ ?_ ?_
  · intro α stage
    funext state
    simp only [Functor.map, andThen, run]
    cases h : stage state with
    | mk report final => obtain ⟨log, result⟩ := report; cases result <;> simp [Function.comp]
  · intro α β a next
    funext state
    simp [bind, pure, andThen, run]
  · intro α β γ stage f g
    funext state
    simp only [bind, andThen, run]
    cases h : stage state with
    | mk report final =>
      obtain ⟨log, result⟩ := report
      cases result with
      | error e => rfl
      | ok a =>
        dsimp only
        generalize f a final = second
        obtain ⟨⟨log', result'⟩, last⟩ := second
        cases result' <;> simp [List.append_assoc]

end Stage

end ControlStore
