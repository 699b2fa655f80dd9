import ControlStore.Proofs.Program
import ControlStore.Proofs.Source.WellFormed

/-!
# Control lines of a program that is read

An assertion holds copies of the control lines that it sets. They are copied while the text is read,
and the check that all control lines fit into a word comes at the end. `Assertion.BuiltFrom` says
that an assertion is made by adding signals on control lines of a program, one after the other.

Control lines are never taken back or changed, so every assertion of a program is built from the
control lines that the program ends up with (`Program.ReadFrom.grounded`), and these have passed the
check (`Program.ReadFrom.hasRoom`).
-/

namespace ControlStore

/-- The control lines of a program by their names. -/
abbrev ControlTable := Std.TreeMap String Control

/-! ## Assertions -/

namespace Assertion

/-- The assertion is made by adding signals on control lines of the table, one after the other. -/
inductive BuiltFrom (controls : ControlTable) : Assertion → Prop
  | new (line : Nat) : BuiltFrom controls { line }
  | add {a next : Assertion} {name : String} {control : Control} {value : Value}
      (h : BuiltFrom controls a) (hcontrol : controls[name]? = some control)
      (hnext : (a.add control value).result = .ok next) : BuiltFrom controls next

/-- All signals of the assertion are on control lines of the table, and on one bank. -/
structure Grounded (controls : ControlTable) (a : Assertion) : Prop where
  control : ∀ signal ∈ a.signals, ∃ name : String, controls[name]? = some signal.control
  bank : ∀ signal ∈ a.signals, signal.control.bank = a.bank
  idle : a.signals = [] → a.bank = 0

variable {controls : ControlTable} {a next : Assertion}

/-- An assertion stays built when control lines are added to the table. -/
theorem BuiltFrom.mono {controls' : ControlTable}
    (hle : ∀ (name : String) (control : Control), controls[name]? = some control →
      controls'[name]? = some control) (h : a.BuiltFrom controls) : a.BuiltFrom controls' := by
  induction h with
  | new line => exact .new line
  | add _ hcontrol hnext ih => exact ih.add (hle _ _ hcontrol) hnext

/-- What it takes for a signal to join an assertion, and what comes of it. -/
theorem of_add {control : Control} {value : Value} (h : (a.add control value).result = .ok next) :
    (a.signals ≠ [] → a.bank = control.bank) ∧
      (∀ signal ∈ a.signals, signal.control.name ≠ control.name) ∧
      next = { a with bank := control.bank, signals := a.signals ++ [⟨control, value⟩] } := by
  unfold add at h
  split at h
  · cases h
  · next hbank =>
    split at h
    · cases h
    · next hrepeated =>
      cases h
      refine ⟨fun hne => ?_, by simpa using hrepeated, rfl⟩
      by_contra hother
      exact hbank ⟨hne, hother⟩

/-- No control is set twice. -/
theorem BuiltFrom.nodup (h : a.BuiltFrom controls) :
    (a.signals.map (·.control.name)).Nodup := by
  induction h with
  | new line => exact List.nodup_nil
  | add _ _ hnext ih =>
    obtain ⟨-, hdiffers, rfl⟩ := of_add hnext
    rw [List.map_append, List.map_singleton]
    refine List.nodup_append.2 ⟨ih, by simp, fun name hname other hother => ?_⟩
    obtain ⟨signal, hsignal, rfl⟩ := List.mem_map.1 hname
    rw [List.mem_singleton.1 hother]
    exact hdiffers signal hsignal

/-- An assertion built by adding has declared controls only, all of its bank. -/
theorem BuiltFrom.grounded (h : a.BuiltFrom controls) : a.Grounded controls := by
  induction h with
  | new line => exact ⟨by simp, by simp, fun _ => rfl⟩
  | @add a next name control value _ hcontrol hnext ih =>
    obtain ⟨hbank, -, rfl⟩ := of_add hnext
    refine ⟨?_, ?_, by simp⟩
    · intro signal hsignal
      rcases List.mem_append.1 hsignal with hold | hnew
      · exact ih.control signal hold
      · rw [List.mem_singleton.1 hnew]
        exact ⟨name, hcontrol⟩
    · intro signal hsignal
      -- the signals before have the bank of the assertion, which is that of the new control
      rcases List.mem_append.1 hsignal with hold | hnew
      · exact (ih.bank signal hold).trans (hbank (List.ne_nil_of_mem hold))
      · rw [List.mem_singleton.1 hnew]

/-- Whether an assertion is grounded does not depend on its values. -/
theorem Grounded.congr {b : Assertion} (h : a.Grounded controls) (hbank : b.bank = a.bank)
    (hsignals : b.signals.map Signal.control = a.signals.map Signal.control) :
    b.Grounded controls := by
  have hold : ∀ signal ∈ b.signals, ∃ old ∈ a.signals, old.control = signal.control := by
    intro signal hsignal
    have hmem : signal.control ∈ a.signals.map Signal.control := by
      rw [← hsignals]
      exact List.mem_map_of_mem hsignal
    exact List.mem_map.1 hmem
  refine ⟨?_, ?_, ?_⟩
  · intro signal hsignal
    obtain ⟨old, hmem, hsame⟩ := hold signal hsignal
    rw [← hsame]
    exact h.control old hmem
  · intro signal hsignal
    obtain ⟨old, hmem, hsame⟩ := hold signal hsignal
    rw [← hsame, hbank]
    exact h.bank old hmem
  · intro hnil
    rw [hnil, List.map_nil, eq_comm, List.map_eq_nil_iff] at hsignals
    rw [hbank]
    exact h.idle hsignals

end Assertion

/-! ## Programs while they are read -/

/-- All assertions among the steps are built from the control lines. -/
def StepsBuiltFrom (controls : ControlTable) (steps : List Step) : Prop :=
  ∀ a, Step.assertion a ∈ steps → a.BuiltFrom controls

/-- All assertions of a program are built from its control lines. -/
structure Program.Grounded (program : Program) : Prop where
  /-- The bank selector starts at the lowest bit. -/
  selector : program.bankMask.lsb = 0
  steps : ∀ name code locals, (name, .sequence code locals) ∈ program.symbols.entries →
    StepsBuiltFrom program.controls code.steps
  empty : ∀ a, program.emptyAssertion = some a → a.BuiltFrom program.controls

/-- The assertions of the unfinished definition at a place are built from the control lines. -/
def Context.Grounded (controls : ControlTable) : Context → Prop
  | .sequenceHead draft | .sequenceOpen draft | .statement draft =>
    StepsBuiltFrom controls draft.code.steps
  | .statementWord draft _ _ => StepsBuiltFrom controls draft.code.steps
  | .signals (.step draft) a => StepsBuiltFrom controls draft.code.steps ∧ a.BuiltFrom controls
  | .signals .filling a => a.BuiltFrom controls
  | _ => True

/-- One more step whose assertion is built keeps the steps so. -/
theorem StepsBuiltFrom.concat {controls : ControlTable} {steps : List Step} {step : Step}
    (h : StepsBuiltFrom controls steps)
    (hstep : ∀ a, step = .assertion a → a.BuiltFrom controls) :
    StepsBuiltFrom controls (steps ++ [step]) := by
  intro a ha
  rcases List.mem_append.1 ha with hold | hnew
  · exact h a hold
  · exact hstep a (List.mem_singleton.1 hnew).symm

/-- Passing a token keeps what is being read grounded. -/
theorem Context.Passes.grounded {token : Token} {context next : Context} {controls : ControlTable}
    (hmove : Passes token context next) (h : context.Grounded controls) :
    next.Grounded controls := by
  cases hmove with
  | keyword _ hnext =>
    unfold Context.ofKeyword? at hnext
    split at hnext <;> cases hnext <;> trivial
  | sequenceName _ => exact fun a ha => absurd ha List.not_mem_nil
  | parameters _ _ => exact h
  | label _ _ _ _ => exact h
  | reference _ => exact StepsBuiltFrom.concat h (by simp)
  | step _ => exact h.1.concat fun a ha => Step.assertion.inj ha ▸ h.2
  | sequenceHead _ => exact h
  | sequenceOpen _ => exact h
  | statement _ _ => exact h
  | assertion _ _ => exact ⟨h, .new _⟩
  | filling _ => exact .new _
  | comma _ => exact h
  | _ => trivial

/-- A sequence among the names is the new one, whose tree is named for its place, or an old one. -/
theorem mem_entries_bind {symbols locals : SymbolTree} {name other : String} {symbol : Symbol}
    {code : Code} (h : (other, .sequence code locals) ∈ (symbols.bind name symbol).entries) :
    (∃ written, symbol = .sequence code written ∧ other = name ∧
        locals = written.attach symbols.name name) ∨
      (other, .sequence code locals) ∈ symbols.entries := by
  rcases mem_bindEntry h with heq | hold
  · refine .inl ?_
    cases symbol with
    | sequence code' written =>
      cases heq
      exact ⟨written, rfl, rfl, rfl⟩
    | constant value => cases heq
    | label l => cases heq
    | scope locals' => cases heq
  · exact .inr hold

namespace Program.Grounded

variable {program : Program}

/-- A constant or a sequence whose steps are built from the control lines joins the program. -/
theorem bind (h : program.Grounded) {name : String} {symbol : Symbol}
    (hsymbol : ∀ code locals, symbol = .sequence code locals →
      StepsBuiltFrom program.controls code.steps) :
    ({ program with symbols := program.symbols.bind name symbol } : Program).Grounded := by
  refine ⟨h.selector, ?_, h.empty⟩
  intro other code locals hmem
  rcases mem_entries_bind hmem with ⟨written, heq, -, -⟩ | hold
  · exact hsymbol code written heq
  · exact h.steps other code locals hold

/-- A control line with a new name joins the program. -/
theorem insert (h : program.Grounded) {name : String} (hnew : name ∉ program.controls)
    (control : Control) :
    ({ program with controls := program.controls.insert name control } : Program).Grounded := by
  -- a new name hides no control that was declared before
  have hkept : ∀ (other : String) (found : Control), program.controls[other]? = some found →
      (program.controls.insert name control)[other]? = some found := by
    intro other found hfound
    have hne : name ≠ other := by
      rintro rfl
      rw [Std.TreeMap.getElem?_eq_none hnew] at hfound
      cases hfound
    rw [Std.TreeMap.getElem?_insert, if_neg (by simpa using hne), hfound]
  refine ⟨h.selector, ?_, ?_⟩
  · intro other code locals hmem a ha
    exact (h.steps other code locals hmem a ha).mono hkept
  · intro a ha
    exact (h.empty a ha).mono hkept

end Program.Grounded

/-- Completing something keeps the program grounded, and what is read next. -/
theorem Reader.Completes.grounded {token : Token} {program final : Program}
    {context next : Context} (hmove : Completes token program context next final)
    (hcontext : context.Grounded program.controls) (h : program.Grounded) :
    next.Grounded final.controls ∧ final.Grounded := by
  cases hmove with
  | constant _ _ => exact ⟨trivial, h.bind (by simp)⟩
  | control _ hnew => exact ⟨trivial, h.insert hnew _⟩
  | sequence _ _ =>
    refine ⟨trivial, h.bind ?_⟩
    rintro code locals heq
    cases heq
    exact hcontext
  | filling _ =>
    refine ⟨trivial, h.selector, h.steps, ?_⟩
    rintro a ha
    cases ha
    exact hcontext
  | @signal purpose _ _ _ _ _ _ hcontrol hnext =>
    refine ⟨?_, h⟩
    cases purpose with
    | step draft => exact ⟨hcontext.1, hcontext.2.add hcontrol hnext⟩
    | filling => exact Assertion.BuiltFrom.add hcontext hcontrol hnext
  | _ => exact ⟨trivial, h.selector, h.steps, h.empty⟩

/-- With every token, the assertions that have been read stay built from the control lines. -/
theorem Reader.Move.grounded {token : Token} {reader final : Reader} {context next : Context}
    (hmove : Move token reader context next final)
    (h : context.Grounded reader.program.controls ∧ reader.program.Grounded) :
    next.Grounded final.program.controls ∧ final.program.Grounded := by
  obtain ⟨hcontext, hprogram⟩ := h
  cases hmove with
  | pass hpasses => exact ⟨hpasses.grounded hcontext, hprogram⟩
  | complete hcompletes => exact hcompletes.grounded hcontext hprogram
  | @configure setting value hkind =>
    refine ⟨trivial, ?_⟩
    cases setting with
    | bankMask => exact ⟨rfl, hprogram.steps, hprogram.empty⟩
    | _ => exact ⟨hprogram.selector, hprogram.steps, hprogram.empty⟩

namespace Program.ReadFrom

variable {text : String} {program : Program}

/-- All assertions of a program that is read are built from its control lines. -/
theorem grounded (h : program.ReadFrom text) : program.Grounded := by
  obtain ⟨reader, hinv, rfl, -⟩ := h.invariant
    (fun context reader => context.Grounded reader.program.controls ∧ reader.program.Grounded)
    ⟨trivial, rfl, by simp [SymbolTree.empty], by simp⟩
    fun _ _ _ _ _ _ hinv hmove => hmove.grounded hinv
  exact hinv.2

/-- All control lines of a program that is read fit into its words. -/
theorem hasRoom (h : program.ReadFrom text) : program.HasRoom :=
  hasRoom_of_validate h.validate

end Program.ReadFrom

end ControlStore
