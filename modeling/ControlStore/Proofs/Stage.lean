import Mathlib.Data.List.Forall2
import ControlStore.Stage

/-!
# Runs of stages

What it takes for a report or a stage to succeed, step by step. `Report.result` turns the
composition of reports into that of plain results, and `Stage.Yields` says that a stage succeeds
with an answer and leaves a state. `Stage.yields_bind` cuts the run of a composed stage at the
state between its parts, so that proofs about a stage follow the text of its definition.
`Stage.Fails` is the other way a run can end, and `Stage.fails_bind` cuts it in the same way.
`Stage.FailsIn` also says what state is left then (`Stage.failsIn_bind`).
-/

namespace ControlStore

/-- An answer alone is a result of itself only. -/
@[simp]
theorem pure_eq_ok_iff {ε α : Type} {a b : α} : (pure a : Except ε α) = .ok b ↔ a = b := by
  simp [pure, Except.pure]

/-- Restating a failure changes no answer. -/
@[simp]
theorem mapError_eq_ok_iff {ε ε' α : Type} {f : ε → ε'} {result : Except ε α} {a : α} :
    result.mapError f = .ok a ↔ result = .ok a := by
  cases result <;> simp [Except.mapError]

/-- A mapped result has the image of an answer. -/
@[simp]
theorem map_eq_ok_iff {ε α β : Type} {f : α → β} {result : Except ε α} {b : β} :
    result.map f = .ok b ↔ ∃ a, result = .ok a ∧ f a = b := by
  cases result <;> simp [Except.map]

/-- A composed result fails in its first part, or behind it in the second. -/
theorem bind_eq_error_iff {ε α β : Type} {first : Except ε α} {next : α → Except ε β} {e : ε} :
    (first >>= next) = .error e ↔ first = .error e ∨ ∃ a, first = .ok a ∧ next a = .error e := by
  cases first with
  | error e => simp [bind, Except.bind]
  | ok a => simp [bind, Except.bind]

/-- A restated failure is that of a cause. -/
theorem mapError_eq_error_iff {ε ε' α : Type} {f : ε → ε'} {result : Except ε α} {e : ε'} :
    result.mapError f = .error e ↔ ∃ cause, result = .error cause ∧ f cause = e := by
  cases result <;> simp [Except.mapError]

/-- Mapping the answer changes no failure. -/
@[simp]
theorem map_eq_error_iff {ε α β : Type} {f : α → β} {result : Except ε α} {e : ε} :
    result.map f = .error e ↔ result = .error e := by
  cases result <;> simp [Except.map]

/-! ## Lists of results -/

/-- A traversal succeeds exactly when it succeeds for each element. -/
theorem mapM_eq_ok_iff {ε α β : Type} {f : α → Except ε β} {l : List α} {l' : List β} :
    l.mapM f = .ok l' ↔ List.Forall₂ (fun a b => f a = .ok b) l l' := by
  induction l generalizing l' with
  | nil =>
    rw [List.mapM_nil, pure_eq_ok_iff, List.forall₂_nil_left_iff]
    exact eq_comm
  | cons a l ih =>
    simp only [List.mapM_cons, bind_eq_ok_iff, ih, pure_eq_ok_iff, List.forall₂_cons_left_iff]
    constructor
    · rintro ⟨b, hb, bs, hbs, rfl⟩
      exact ⟨b, bs, hb, hbs, rfl⟩
    · rintro ⟨b, bs, hb, hbs, rfl⟩
      exact ⟨b, hb, bs, hbs, rfl⟩

/-- There is a list of partners where every element has one. -/
theorem exists_forall₂_iff {α β : Type} {R : α → β → Prop} {l : List α} :
    (∃ l', List.Forall₂ R l l') ↔ ∀ a ∈ l, ∃ b, R a b := by
  induction l with
  | nil => simp
  | cons a l ih =>
    simp only [List.forall₂_cons_left_iff, List.forall_mem_cons, ← ih]
    constructor
    · rintro ⟨_, b, rest, hb, hrest, -⟩
      exact ⟨⟨b, hb⟩, rest, hrest⟩
    · rintro ⟨⟨b, hb⟩, rest, hrest⟩
      exact ⟨_, b, rest, hb, hrest, rfl⟩

/-- A traversal succeeds where all elements have an answer. -/
theorem exists_mapM_eq_ok {ε α β : Type} {f : α → Except ε β} {l : List α}
    (h : ∀ a ∈ l, ∃ b, f a = .ok b) : ∃ bs, l.mapM f = .ok bs := by
  obtain ⟨bs, hbs⟩ := exists_forall₂_iff.2 h
  exact ⟨bs, mapM_eq_ok_iff.2 hbs⟩

/-- A traversal that fails does so at the first element that has no answer. -/
theorem exists_split_of_mapM_eq_error {ε α β : Type} {f : α → Except ε β} {l : List α} {e : ε}
    (h : l.mapM f = .error e) :
    ∃ before a after, l = before ++ a :: after ∧ f a = .error e ∧
      ∀ b ∈ before, ∃ c, f b = .ok c := by
  induction l with
  | nil => cases h
  | cons a l ih =>
    rw [List.mapM_cons] at h
    rcases bind_eq_error_iff.1 h with hfirst | ⟨c, hfirst, h⟩
    · -- the first element fails, and nothing is in front of it
      exact ⟨[], a, l, rfl, hfirst, fun b hb => absurd hb List.not_mem_nil⟩
    · rcases bind_eq_error_iff.1 h with hrest | ⟨_, -, hpure⟩
      · -- it fails further on, so the first element has an answer
        obtain ⟨before, a', after, rfl, hfails, hbefore⟩ := ih hrest
        exact ⟨a :: before, a', after, rfl, hfails,
          List.forall_mem_cons.2 ⟨⟨c, hfirst⟩, hbefore⟩⟩
      · cases hpure

/-- A traversal fails only because of one of its elements. -/
theorem exists_of_mapM_eq_error {ε α β : Type} {f : α → Except ε β} {l : List α} {e : ε}
    (h : l.mapM f = .error e) : ∃ a ∈ l, f a = .error e := by
  obtain ⟨before, a, after, rfl, hfails, -⟩ := exists_split_of_mapM_eq_error h
  exact ⟨a, by simp, hfails⟩

/-- Each answer of a traversal is that of an element. -/
theorem exists_of_forall₂_of_mem {α β : Type} {R : α → β → Prop} {l : List α} {l' : List β}
    (h : List.Forall₂ R l l') {b : β} (hb : b ∈ l') : ∃ a ∈ l, R a b := by
  induction h with
  | nil => cases hb
  | cons hfirst _ ih =>
    rcases List.mem_cons.1 hb with rfl | hb
    · exact ⟨_, List.mem_cons_self .., hfirst⟩
    · -- the partner belongs to the rest of the list
      obtain ⟨a, ha, hr⟩ := ih hb
      exact ⟨a, List.mem_cons_of_mem _ ha, hr⟩

/-- The answer of a traversal at a position is that of the element there. -/
theorem exists_getElem?_of_forall₂ {α β : Type} {R : α → β → Prop} {l : List α} {l' : List β}
    (h : List.Forall₂ R l l') {i : Nat} {a : α} (ha : l[i]? = some a) :
    ∃ b, l'[i]? = some b ∧ R a b := by
  induction h generalizing i with
  | nil => cases ha
  | cons hfirst _ ih =>
    cases i with
    | zero =>
      cases ha
      exact ⟨_, rfl, hfirst⟩
    | succ i => exact ih ha

namespace Report

variable {ε α β : Type}

/-- An answer alone is the result of its report. -/
@[simp]
theorem result_pure (a : α) : (pure a : Report ε α).result = .ok a := rfl

/-- A result alone is the result of its report. -/
@[simp]
theorem result_liftM (result : Except ε α) : (liftM result : Report ε α).result = result := rfl

/-- The result of reports in a row is that of their results in a row. -/
theorem result_bind (report : Report ε α) (next : α → Report ε β) :
    (report >>= next).result = report.result >>= fun a => (next a).result := by
  rw [bind_def, andThen]
  cases report.result <;> rfl

/-- A composed report succeeds through an answer of its first part. -/
theorem result_bind_eq_ok_iff {report : Report ε α} {next : α → Report ε β} {b : β} :
    (report >>= next).result = .ok b ↔ ∃ a, report.result = .ok a ∧ (next a).result = .ok b := by
  rw [result_bind, bind_eq_ok_iff]

/-- A composed report succeeds if its second part does behind the answer of the first. -/
theorem exists_result_bind {report : Report ε α} {next : α → Report ε β} {a : α}
    (hfirst : report.result = .ok a) (hnext : ∃ b, (next a).result = .ok b) :
    ∃ b, (report >>= next).result = .ok b := by
  obtain ⟨b, hb⟩ := hnext
  exact ⟨b, result_bind_eq_ok_iff.2 ⟨a, hfirst, hb⟩⟩

/-- A composed report fails in its first part, or behind it in the second. -/
theorem result_bind_eq_error_iff {report : Report ε α} {next : α → Report ε β} {e : ε} :
    (report >>= next).result = .error e ↔
      report.result = .error e ∨ ∃ a, report.result = .ok a ∧ (next a).result = .error e := by
  rw [result_bind, bind_eq_error_iff]

/-- The result of a traversal is the traversal of the results. -/
theorem result_mapM (f : α → Report ε β) (l : List α) :
    (l.mapM f).result = l.mapM fun a => (f a).result := by
  induction l with
  | nil => rfl
  | cons a l ih => simp only [List.mapM_cons, result_bind, ih, result_pure]; rfl

/-- The result of reports that are folded is the fold of their results. -/
theorem result_foldlM (f : β → α → Report ε β) (b : β) (l : List α) :
    (l.foldlM f b).result = l.foldlM (fun b a => (f b a).result) b := by
  induction l generalizing b with
  | nil => rfl
  | cons a l ih => simp only [List.foldlM_cons, result_bind, ih]

end Report

namespace Stage

variable {ε σ α β : Type}

/-- The stage succeeds from `state` with the answer `a` and leaves `final`. -/
def Yields (stage : Stage ε σ α) (state : σ) (a : α) (final : σ) : Prop :=
  (stage.run state).result = .ok a ∧ (stage.run state).state = final

/-- An answer alone is yielded in the state that it was reached in. -/
@[simp]
theorem yields_pure {a b : α} {state final : σ} :
    (pure a : Stage ε σ α).Yields state b final ↔ a = b ∧ state = final := by
  simp [Yields, run_pure]

/-- A composed stage succeeds through a state between its parts. -/
theorem yields_bind {stage : Stage ε σ α} {next : α → Stage ε σ β} {state final : σ} {b : β} :
    (stage >>= next).Yields state b final ↔
      ∃ a middle, stage.Yields state a middle ∧ (next a).Yields middle b final := by
  cases h : (stage.run state).result with
  | error e => simp [Yields, run_bind_error h, h]
  | ok a =>
    simp only [Yields, run_bind_ok h, h, Except.ok.injEq]
    constructor
    · intro hnext
      exact ⟨a, _, ⟨rfl, rfl⟩, hnext⟩
    · rintro ⟨_, _, ⟨rfl, rfl⟩, hnext⟩
      exact hnext

/-- A failure yields nothing. -/
@[simp]
theorem yields_fail {cause : ε} {a : α} {state final : σ} :
    ¬(fail cause : Stage ε σ α).Yields state a final := by
  simp [Yields, fail, run]

/-- A notice leaves the state as it is. -/
@[simp]
theorem yields_note {notice : Notice} {u : Unit} {state final : σ} :
    (note notice : Stage ε σ Unit).Yields state u final ↔ state = final := by
  simp [Yields, note, run]

/-- What is asked for is the state itself. -/
@[simp]
theorem yields_get {a state final : σ} :
    (get : Stage ε σ σ).Yields state a final ↔ state = a ∧ state = final := by
  simp [Yields, run, get, getThe, MonadStateOf.get]

/-- Nothing is left of the state that is replaced. -/
@[simp]
theorem yields_set {s state final : σ} {u : PUnit} :
    (set s : Stage ε σ PUnit).Yields state u final ↔ s = final := by
  simp [Yields, run, set]

/-- A change leaves the changed state. -/
@[simp]
theorem yields_modify {f : σ → σ} {state final : σ} {u : PUnit} :
    (modify f : Stage ε σ PUnit).Yields state u final ↔ f state = final := by
  simp [Yields, run, modify, modifyGet, MonadStateOf.modifyGet]

/-- A report as a stage yields its own answer. -/
@[simp]
theorem yields_ofReport {report : Report ε α} {a : α} {state final : σ} :
    (ofReport report : Stage ε σ α).Yields state a final ↔ report.result = .ok a ∧ state = final :=
  Iff.rfl

/-- A result as a stage yields its own answer. -/
@[simp]
theorem yields_liftM {result : Except ε α} {a : α} {state final : σ} :
    (liftM result : Stage ε σ α).Yields state a final ↔ result = .ok a ∧ state = final :=
  Iff.rfl

/-- A run has one answer and leaves one state. -/
theorem Yields.unique {stage : Stage ε σ α} {state final final' : σ} {a a' : α}
    (h : stage.Yields state a final) (h' : stage.Yields state a' final') :
    a = a' ∧ final = final' :=
  ⟨Except.ok.inj (h.1.symm.trans h'.1), h.2.symm.trans h'.2⟩

/-! ## Failing runs -/

/-- The stage fails from `state` with the given cause. -/
def Fails (stage : Stage ε σ α) (state : σ) (cause : ε) : Prop :=
  (stage.run state).result = .error cause

/-- A run ends in one of two ways. -/
theorem yields_or_fails (stage : Stage ε σ α) (state : σ) :
    (∃ a final, stage.Yields state a final) ∨ ∃ cause, stage.Fails state cause := by
  cases h : (stage.run state).result with
  | ok a => exact .inl ⟨a, _, h, rfl⟩
  | error e => exact .inr ⟨e, h⟩

/-- A run that yields an answer does not fail. -/
theorem Yields.not_fails {stage : Stage ε σ α} {state final : σ} {a : α}
    (h : stage.Yields state a final) (cause : ε) : ¬stage.Fails state cause := by
  intro hfails
  rw [Fails, h.1] at hfails
  cases hfails

/-- A composed stage fails in its first part, or behind it in the second. -/
theorem fails_bind {stage : Stage ε σ α} {next : α → Stage ε σ β} {state : σ} {cause : ε} :
    (stage >>= next).Fails state cause ↔ stage.Fails state cause ∨
      ∃ a middle, stage.Yields state a middle ∧ (next a).Fails middle cause := by
  cases h : (stage.run state).result with
  | error e => simp [Fails, Yields, run_bind_error h, h]
  | ok a =>
    simp only [Fails, Yields, run_bind_ok h, h, Except.ok.injEq, reduceCtorEq, false_or]
    constructor
    · intro hnext
      exact ⟨a, _, ⟨rfl, rfl⟩, hnext⟩
    · rintro ⟨_, _, ⟨rfl, rfl⟩, hnext⟩
      exact hnext

/-- An answer alone does not fail. -/
@[simp]
theorem fails_pure {a : α} {state : σ} {cause : ε} :
    ¬(pure a : Stage ε σ α).Fails state cause :=
  (yields_pure.2 ⟨rfl, rfl⟩).not_fails cause

/-- A failure fails with its own cause. -/
@[simp]
theorem fails_fail {cause other : ε} {state : σ} :
    (fail cause : Stage ε σ α).Fails state other ↔ cause = other := by
  simp [Fails, fail, run]

/-- Giving a notice does not fail. -/
@[simp]
theorem fails_note {notice : Notice} {state : σ} {cause : ε} :
    ¬(note notice : Stage ε σ Unit).Fails state cause :=
  (yields_note (u := ()) |>.2 rfl).not_fails cause

/-- Asking for the state does not fail. -/
@[simp]
theorem fails_get {state : σ} {cause : ε} : ¬(get : Stage ε σ σ).Fails state cause :=
  (yields_get.2 ⟨rfl, rfl⟩).not_fails cause

/-- Replacing the state does not fail. -/
@[simp]
theorem fails_set {s state : σ} {cause : ε} : ¬(set s : Stage ε σ PUnit).Fails state cause :=
  (yields_set (u := ⟨⟩) |>.2 rfl).not_fails cause

/-- Changing the state does not fail. -/
@[simp]
theorem fails_modify {f : σ → σ} {state : σ} {cause : ε} :
    ¬(modify f : Stage ε σ PUnit).Fails state cause :=
  (yields_modify (u := ⟨⟩) |>.2 rfl).not_fails cause

/-- A result as a stage fails as the result does. -/
@[simp]
theorem fails_liftM {result : Except ε α} {state : σ} {cause : ε} :
    (liftM result : Stage ε σ α).Fails state cause ↔ result = .error cause :=
  Iff.rfl

/-! ## What a failing run leaves -/

/-- The stage fails from `state` with the given cause, and leaves `final`. -/
def FailsIn (stage : Stage ε σ α) (state : σ) (cause : ε) (final : σ) : Prop :=
  stage.Fails state cause ∧ (stage.run state).state = final

/-- A run that fails leaves some state. -/
theorem Fails.exists_failsIn {stage : Stage ε σ α} {state : σ} {cause : ε}
    (h : stage.Fails state cause) : ∃ final, stage.FailsIn state cause final :=
  ⟨_, h, rfl⟩

/-- A stage that fails in its first part leaves what that part left, and otherwise what the second
part left. -/
theorem failsIn_bind {stage : Stage ε σ α} {next : α → Stage ε σ β} {state final : σ} {cause : ε} :
    (stage >>= next).FailsIn state cause final ↔ stage.FailsIn state cause final ∨
      ∃ a middle, stage.Yields state a middle ∧ (next a).FailsIn middle cause final := by
  cases h : (stage.run state).result with
  | error e => simp [FailsIn, Fails, Yields, run_bind_error h, h]
  | ok a =>
    simp only [FailsIn, Fails, Yields, run_bind_ok h, h, Except.ok.injEq, reduceCtorEq, false_and,
      false_or]
    constructor
    · intro hnext
      exact ⟨a, _, ⟨rfl, rfl⟩, hnext⟩
    · rintro ⟨_, _, ⟨rfl, rfl⟩, hnext⟩
      exact hnext

/-- A result that fails leaves the state as it is. -/
@[simp]
theorem failsIn_liftM {result : Except ε α} {state final : σ} {cause : ε} :
    (liftM result : Stage ε σ α).FailsIn state cause final ↔
      result = .error cause ∧ state = final :=
  Iff.rfl

/-! ## Failing without a trace -/

/-- The stage never fails. -/
def Total (stage : Stage ε σ α) : Prop := ∀ state cause, ¬stage.Fails state cause

/-- The stage leaves the state as it is, whether it fails or not. -/
def ReadOnly (stage : Stage ε σ α) : Prop := ∀ state, (stage.run state).state = state

/-- Where the stage fails, it leaves the state as it is. -/
def Atomic (stage : Stage ε σ α) : Prop :=
  ∀ state cause, stage.Fails state cause → (stage.run state).state = state

/-- What never fails has nothing to take back. -/
theorem Total.atomic {stage : Stage ε σ α} (h : stage.Total) : stage.Atomic :=
  fun state cause hfails => absurd hfails (h state cause)

/-- What changes nothing has nothing to take back. -/
theorem ReadOnly.atomic {stage : Stage ε σ α} (h : stage.ReadOnly) : stage.Atomic :=
  fun state _ _ => h state

theorem total_pure (a : α) : (pure a : Stage ε σ α).Total := fun _ _ => fails_pure

theorem total_note (notice : Notice) : (note notice : Stage ε σ Unit).Total :=
  fun _ _ => fails_note

theorem total_get : (get : Stage ε σ σ).Total := fun _ _ => fails_get

theorem total_modify (f : σ → σ) : (modify f : Stage ε σ PUnit).Total := fun _ _ => fails_modify

/-- Stages that never fail may be composed. -/
theorem Total.bind {stage : Stage ε σ α} {next : α → Stage ε σ β} (h : stage.Total)
    (hnext : ∀ a, (next a).Total) : (stage >>= next).Total := by
  intro state cause hfails
  rcases fails_bind.1 hfails with hfails | ⟨a, middle, -, hfails⟩
  · exact h state cause hfails
  · exact hnext a middle cause hfails

theorem readOnly_pure (a : α) : (pure a : Stage ε σ α).ReadOnly := fun _ => rfl

theorem readOnly_fail (cause : ε) : (fail cause : Stage ε σ α).ReadOnly := fun _ => rfl

theorem readOnly_get : (get : Stage ε σ σ).ReadOnly := fun _ => rfl

theorem readOnly_ofReport (report : Report ε α) : (ofReport report : Stage ε σ α).ReadOnly :=
  fun _ => rfl

/-- A stage that is followed by one that only reads leaves its own state. -/
theorem state_bind_of_readOnly {next : α → Stage ε σ β} (hnext : ∀ a, (next a).ReadOnly)
    (stage : Stage ε σ α) (state : σ) :
    ((stage >>= next).run state).state = (stage.run state).state := by
  cases h : (stage.run state).result with
  | error e => rw [run_bind_error h]
  | ok a => rw [run_bind_ok h, hnext]

/-- Stages that change nothing may be composed. -/
theorem ReadOnly.bind {stage : Stage ε σ α} {next : α → Stage ε σ β} (h : stage.ReadOnly)
    (hnext : ∀ a, (next a).ReadOnly) : (stage >>= next).ReadOnly := by
  intro state
  rw [state_bind_of_readOnly hnext, h]

/-- Before anything is changed, a stage may fail. -/
theorem ReadOnly.bind_atomic {stage : Stage ε σ α} {next : α → Stage ε σ β} (h : stage.ReadOnly)
    (hnext : ∀ a, (next a).Atomic) : (stage >>= next).Atomic := by
  intro state cause hfails
  rcases fails_bind.1 hfails with hfails | ⟨a, middle, ⟨hok, hmiddle⟩, hfails⟩
  · rw [run_bind_error hfails, h]
  · -- the first part has changed nothing, so the second one fails from the old state
    rw [h] at hmiddle
    subst hmiddle
    rw [run_bind_ok hok, h]
    exact hnext a state cause hfails

/-- What cannot fail may follow a change. -/
theorem Atomic.bind_total {stage : Stage ε σ α} {next : α → Stage ε σ β} (h : stage.Atomic)
    (hnext : ∀ a, (next a).Total) : (stage >>= next).Atomic := by
  intro state cause hfails
  rcases fails_bind.1 hfails with hfails | ⟨a, middle, -, hfails⟩
  · rw [run_bind_error hfails]
    exact h state cause hfails
  · exact absurd hfails (hnext a middle cause)

end Stage

end ControlStore
