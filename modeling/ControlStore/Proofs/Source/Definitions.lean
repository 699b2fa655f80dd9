import Mathlib.Data.List.Nodup
import ControlStore.Proofs.Source.Controls
import ControlStore.Proofs.Source.Grammar

/-!
# What definitions do

The grammar leaves out what depends on more than one place of a text: which names are new, and which
controls are known. `Definition.Allowed` is that condition for a definition behind the controls that
have been declared before it, and `DefinitionsAllowed` for definitions in a row.

`Program.define` says what a definition adds to a program, as a function of what is written. The
body of a sequence is built statement by statement, and an assertion signal by signal. The last two
sections say when one more signal may join an assertion, and one more label a body
(`joins_ofSignals_iff`, `bodyAllowed_concat_label_iff`).
-/

namespace ControlStore

/-! ## Signals -/

/-- The signals that are written, on the control lines that their names stand for. -/
def asserted (controls : ControlTable) (written : List (String × Value)) : List Signal :=
  written.filterMap fun signal => controls[signal.1]?.map fun control => ⟨control, signal.2⟩

/-- The signals of an assertion are on controls that are known and on one bank, and no control is
set twice. -/
structure SignalsAllowed (controls : ControlTable) (written : List (String × Value)) : Prop where
  declared : ∀ signal ∈ written, signal.1 ∈ controls
  oneBank : ∀ signal ∈ asserted controls written, ∀ other ∈ asserted controls written,
    signal.control.bank = other.control.bank
  once : ((asserted controls written).map (·.control.name)).Nodup

/-- The assertion with the signals that are written, on the bank of the last one. -/
def Assertion.ofSignals (controls : ControlTable) (line : Nat) (written : List (String × Value)) :
    Assertion :=
  { line
    bank := ((asserted controls written).getLast?.map (·.control.bank)).getD 0
    signals := asserted controls written }

/-! ## Bodies -/

/-- The label that a statement marks, if it marks one. -/
def Statement.label? : Statement → Option String
  | .label name => some name
  | .reference _ _ _ => none
  | .assertion _ _ => none

/-- The labels in a body, in order. -/
def bodyLabels (body : List Statement) : List String := body.filterMap Statement.label?

/-- The labels of a body have no dot and are different, and its assertions are allowed. -/
structure BodyAllowed (controls : ControlTable) (body : List Statement) : Prop where
  dotless : ∀ label ∈ bodyLabels body, Dotless label
  unique : (bodyLabels body).Nodup
  signals : ∀ line written, .assertion line written ∈ body → SignalsAllowed controls written

/-- Appends a statement to a draft. -/
def Draft.append (controls : ControlTable) (draft : Draft) : Statement → Draft
  | .label name => draft.addLabel name
  | .reference line symbol arguments => draft.addStep (.reference { line, symbol, arguments })
  | .assertion line written => draft.addStep (.assertion (.ofSignals controls line written))

/-- The sequence or macro with the given body. -/
def Draft.ofBody (controls : ControlTable) (isMacro : Bool) (name : String)
    (parameters : List String) (body : List Statement) : Draft :=
  body.foldl (append controls) { name, code := { isMacro, parameters } }

/-! ## Definitions -/

/-- What a definition needs besides its form, behind the given controls. -/
def Definition.Allowed (controls : ControlTable) : Definition → Prop
  | .configuration _ => True
  | .constant name _ => Dotless name
  | .control declared => declared.name ∉ controls
  | .sequence _ name _ body => Dotless name ∧ BodyAllowed controls body
  | .filling _ written => SignalsAllowed controls written
  | .entrypoints _ => True

/-- The controls that are known behind a definition. -/
def Definition.declare (controls : ControlTable) : Definition → ControlTable
  | .control declared => controls.insert declared.name declared
  | _ => controls

/-- All definitions are allowed, each behind the controls that were declared before it. -/
def DefinitionsAllowed : ControlTable → List Definition → Prop
  | _, [] => True
  | controls, d :: ds => d.Allowed controls ∧ DefinitionsAllowed (d.declare controls) ds

/-- Does a definition set the bank mask? -/
def Definition.setsBankMask : Definition → Bool
  | .configuration settings => settings.any (·.1 = .bankMask)
  | _ => false

namespace Program

/-- The program with a sequence bound to a target. -/
def bindTarget (program : Program) : Target × String → Program
  | (.fetch, symbol) => { program with fetch := some symbol }
  | (.interrupt, symbol) => { program with interrupt := some symbol }
  | (.opcode opcode, symbol) =>
    { program with entrypoints := program.entrypoints.insert opcode symbol }

/-- The program with a sequence or macro bound to its name. -/
def bindDraft (program : Program) (draft : Draft) : Program :=
  { program with symbols := program.symbols.bind draft.name (.sequence draft.code draft.locals) }

/-- The program with a definition added. Later settings, bindings and fillings replace earlier
ones. -/
def define (program : Program) : Definition → Program
  | .configuration settings =>
    settings.foldl (fun program setting => program.configure setting.2 setting.1) program
  | .constant name value =>
    { program with symbols := program.symbols.bind name (.constant value) }
  | .control control =>
    { program with controls := program.controls.insert control.name control }
  | .sequence isMacro name parameters body =>
    program.bindDraft (.ofBody program.controls isMacro name parameters body)
  | .filling line written =>
    { program with emptyAssertion := some (.ofSignals program.controls line written) }
  | .entrypoints bindings => bindings.foldl bindTarget program

/-- The program with definitions added one after the other. -/
def extend (program : Program) (definitions : List Definition) : Program :=
  definitions.foldl define program

end Program

/-! ## One more signal -/

section Signals

variable {controls : ControlTable} {written more : List (String × Value)}

theorem asserted_append :
    asserted controls (written ++ more) = asserted controls written ++ asserted controls more :=
  List.filterMap_append

theorem asserted_singleton {name : String} {value : Value} {control : Control}
    (h : controls[name]? = some control) :
    asserted controls [(name, value)] = [⟨control, value⟩] := by
  simp [asserted, h]

/-- Signals that come first are allowed if all are. -/
theorem SignalsAllowed.of_append (h : SignalsAllowed controls (written ++ more)) :
    SignalsAllowed controls written := by
  have hsub : asserted controls written ⊆ asserted controls (written ++ more) := by
    rw [asserted_append]
    exact List.subset_append_left _ _
  refine ⟨fun signal hsignal => h.declared signal (List.mem_append_left _ hsignal), ?_, ?_⟩
  · intro signal hsignal other hother
    exact h.oneBank signal (hsub hsignal) other (hsub hother)
  · have honce := h.once
    rw [asserted_append, List.map_append] at honce
    exact (List.nodup_append.1 honce).1

theorem signalsAllowed_nil : SignalsAllowed controls [] :=
  ⟨fun _ h => absurd h List.not_mem_nil, fun _ h => absurd h List.not_mem_nil, List.nodup_nil⟩

/-- The bank of an assertion is that of each of its signals. -/
theorem SignalsAllowed.bank_ofSignals (h : SignalsAllowed controls written) (line : Nat)
    {signal : Signal} (hsignal : signal ∈ asserted controls written) :
    (Assertion.ofSignals controls line written).bank = signal.control.bank := by
  have hne := List.ne_nil_of_mem hsignal
  have hlast : (Assertion.ofSignals controls line written).bank =
      ((asserted controls written).getLast hne).control.bank := by
    simp [Assertion.ofSignals, List.getLast?_eq_some_getLast hne]
  rw [hlast]
  exact h.oneBank _ (List.getLast_mem hne) signal hsignal

/-- What it takes for a signal to join an assertion is enough. -/
theorem Assertion.add_eq {a : Assertion} {control : Control} {value : Value}
    (hbank : a.signals ≠ [] → a.bank = control.bank)
    (hnew : ∀ signal ∈ a.signals, signal.control.name ≠ control.name) :
    (a.add control value).result =
      .ok { a with bank := control.bank, signals := a.signals ++ [⟨control, value⟩] } := by
  unfold add
  rw [if_neg (fun h => h.2 (hbank h.1)), if_neg (by simpa using hnew)]

/-- A signal joins an assertion exactly if all signals together are allowed. -/
theorem joins_ofSignals_iff (h : SignalsAllowed controls written) {line : Nat} {name : String}
    {value : Value} {next : Assertion} :
    (∃ control, controls[name]? = some control ∧
        ((Assertion.ofSignals controls line written).add control value).result = .ok next) ↔
      SignalsAllowed controls (written ++ [(name, value)]) ∧
        next = .ofSignals controls line (written ++ [(name, value)]) := by
  have hnext : ∀ {control : Control}, controls[name]? = some control →
      ({ Assertion.ofSignals controls line written with
        bank := control.bank
        signals := asserted controls written ++ [⟨control, value⟩] } : Assertion) =
        .ofSignals controls line (written ++ [(name, value)]) := by
    intro control hcontrol
    simp [Assertion.ofSignals, asserted_append, asserted_singleton hcontrol]
  constructor
  · rintro ⟨control, hcontrol, hadd⟩
    obtain ⟨hbank, hdiffers, rfl⟩ := Assertion.of_add hadd
    refine ⟨⟨?_, ?_, ?_⟩, hnext hcontrol⟩
    · intro signal hsignal
      rcases List.mem_append.1 hsignal with hold | hnew
      · exact h.declared signal hold
      · rw [List.mem_singleton.1 hnew]
        exact Std.TreeMap.mem_iff_isSome_getElem?.2 (by rw [hcontrol]; rfl)
    · -- all of them have the bank of the control that was added
      have hsame : ∀ signal ∈ asserted controls (written ++ [(name, value)]),
          signal.control.bank = control.bank := by
        rw [asserted_append, asserted_singleton hcontrol]
        intro signal hsignal
        rcases List.mem_append.1 hsignal with hold | hnew
        · rw [← h.bank_ofSignals line hold]
          exact hbank (List.ne_nil_of_mem hold)
        · rw [List.mem_singleton.1 hnew]
      intro signal hsignal other hother
      rw [hsame signal hsignal, hsame other hother]
    · rw [asserted_append, asserted_singleton hcontrol, List.map_append, List.map_singleton]
      refine List.nodup_append.2 ⟨h.once, List.nodup_singleton _, ?_⟩
      intro found hfound other hother
      obtain ⟨signal, hsignal, rfl⟩ := List.mem_map.1 hfound
      rw [List.mem_singleton.1 hother]
      exact hdiffers signal hsignal
  · rintro ⟨hall, rfl⟩
    obtain ⟨control, hcontrol⟩ := Option.isSome_iff_exists.1
      (Std.TreeMap.mem_iff_isSome_getElem?.1 (hall.declared (name, value) (by simp)))
    have hlist : asserted controls (written ++ [(name, value)]) =
        asserted controls written ++ [⟨control, value⟩] := by
      rw [asserted_append, asserted_singleton hcontrol]
    refine ⟨control, hcontrol, ?_⟩
    rw [← hnext hcontrol]
    refine Assertion.add_eq ?_ ?_
    · intro hne
      obtain ⟨signal, hsignal⟩ := List.exists_mem_of_ne_nil _ hne
      rw [h.bank_ofSignals line hsignal]
      refine hall.oneBank signal ?_ ⟨control, value⟩ ?_
      · rw [hlist]
        exact List.mem_append_left _ hsignal
      · rw [hlist]
        exact List.mem_append_right _ (List.mem_singleton_self _)
    · intro signal hsignal
      have honce := hall.once
      rw [hlist, List.map_append, List.map_singleton] at honce
      exact (List.nodup_append.1 honce).2.2 _ (List.mem_map_of_mem hsignal) _
        (List.mem_singleton_self _)

end Signals

/-! ## One more statement -/

section Bodies

variable {controls : ControlTable} {body : List Statement} {isMacro : Bool} {name : String}
  {parameters : List String}

theorem bodyLabels_append (others : List Statement) :
    bodyLabels (body ++ others) = bodyLabels body ++ bodyLabels others :=
  List.filterMap_append

/-- A body with one more statement is drafted by appending it. -/
theorem Draft.ofBody_concat (s : Statement) :
    ofBody controls isMacro name parameters (body ++ [s]) =
      (ofBody controls isMacro name parameters body).append controls s := by
  rw [ofBody, List.foldl_concat]
  rfl

theorem Draft.name_foldl_append {draft : Draft} :
    (body.foldl (append controls) draft).name = draft.name := by
  induction body generalizing draft with
  | nil => rfl
  | cons s body ih =>
    rw [List.foldl_cons, ih]
    cases s <;> rfl

theorem Draft.name_ofBody : (ofBody controls isMacro name parameters body).name = name :=
  name_foldl_append

/-- The names of a draft are those it had and the labels appended. -/
theorem Draft.mem_names_foldl_append {draft : Draft} {label : String} :
    label ∈ (body.foldl (append controls) draft).locals.names ↔
      label ∈ draft.locals.names ∨ label ∈ bodyLabels body := by
  induction body generalizing draft with
  | nil => simp [bodyLabels]
  | cons s body ih =>
    rw [List.foldl_cons, ih]
    cases s with
    | label other =>
      -- binding a label adds its name, unless it is there
      have hbind : label ∈ (draft.addLabel other).locals.names ↔
          label ∈ draft.locals.names ∨ label = other := by
        rw [addLabel, SymbolTree.names_bind]
        split
        · next hmem =>
          exact ⟨.inl, fun h => h.elim id fun heq => heq ▸ hmem⟩
        · rw [List.mem_append, List.mem_singleton]
      simp [append, hbind, bodyLabels, Statement.label?, or_assoc]
    | reference line symbol arguments => rfl
    | assertion line written => rfl

/-- The names of a body are its labels. -/
theorem Draft.contains_ofBody {label : String} :
    (ofBody controls isMacro name parameters body).locals.contains label = false ↔
      label ∉ bodyLabels body := by
  rw [Bool.eq_false_iff, ne_eq, SymbolTree.contains_iff, ofBody, mem_names_foldl_append]
  simp [SymbolTree.names, SymbolTree.empty]

theorem bodyAllowed_nil : BodyAllowed controls [] :=
  ⟨fun _ h => absurd h List.not_mem_nil, List.nodup_nil, fun _ _ h => absurd h List.not_mem_nil⟩

/-- Statements that come first are allowed if all are. -/
theorem BodyAllowed.of_append {others : List Statement}
    (h : BodyAllowed controls (body ++ others)) :
    BodyAllowed controls body := by
  have hlabels := h.unique
  rw [bodyLabels_append] at hlabels
  refine ⟨?_, (List.nodup_append.1 hlabels).1, ?_⟩
  · intro label hlabel
    refine h.dotless label ?_
    rw [bodyLabels_append]
    exact List.mem_append_left _ hlabel
  · intro line written hmem
    exact h.signals line written (List.mem_append_left _ hmem)

/-- A label may come next exactly if it has no dot and is new. -/
theorem bodyAllowed_concat_label_iff (h : BodyAllowed controls body) {label : String} :
    BodyAllowed controls (body ++ [.label label]) ↔
      Dotless label ∧ label ∉ bodyLabels body := by
  -- the new label is the last one, so it has to differ from those before
  have hlabels : bodyLabels (body ++ [.label label]) = bodyLabels body ++ [label] :=
    bodyLabels_append _
  constructor
  · intro hall
    have hunique := hall.unique
    have hdotless := hall.dotless label
    rw [hlabels] at hunique hdotless
    refine ⟨hdotless (List.mem_append_right _ (List.mem_singleton_self _)), ?_⟩
    exact fun hmem => (List.nodup_append.1 hunique).2.2 label hmem label
      (List.mem_singleton_self _) rfl
  · rintro ⟨hdotless, hnew⟩
    refine ⟨?_, ?_, ?_⟩
    · rw [hlabels]
      exact List.forall_mem_append.2 ⟨h.dotless, by simpa using hdotless⟩
    · rw [hlabels]
      refine List.nodup_append.2 ⟨h.unique, List.nodup_singleton _, ?_⟩
      rintro other hother _ hlabel rfl
      rw [List.mem_singleton.1 hlabel] at hother
      exact hnew hother
    · intro line written hmem
      rcases List.mem_append.1 hmem with hold | hlast
      · exact h.signals line written hold
      · cases List.mem_singleton.1 hlast

/-- A reference may always follow. -/
theorem bodyAllowed_concat_reference (h : BodyAllowed controls body) (line : Nat) (symbol : String)
    (arguments : List Value) :
    BodyAllowed controls (body ++ [.reference line symbol arguments]) := by
  have hlabels : bodyLabels (body ++ [.reference line symbol arguments]) = bodyLabels body := by
    rw [bodyLabels_append]
    exact List.append_nil _
  refine ⟨hlabels ▸ h.dotless, hlabels ▸ h.unique, ?_⟩
  intro other written hmem
  rcases List.mem_append.1 hmem with hold | hlast
  · exact h.signals other written hold
  · cases List.mem_singleton.1 hlast

/-- An assertion may come next exactly if its signals are allowed. -/
theorem bodyAllowed_concat_assertion_iff (h : BodyAllowed controls body) {line : Nat}
    {written : List (String × Value)} :
    BodyAllowed controls (body ++ [.assertion line written]) ↔ SignalsAllowed controls written := by
  have hlabels : bodyLabels (body ++ [.assertion line written]) = bodyLabels body := by
    rw [bodyLabels_append]
    exact List.append_nil _
  constructor
  · intro hall
    exact hall.signals line written (by simp)
  · intro hwritten
    refine ⟨hlabels ▸ h.dotless, hlabels ▸ h.unique, ?_⟩
    intro other others hmem
    rcases List.mem_append.1 hmem with hold | hlast
    · exact h.signals other others hold
    · cases List.mem_singleton.1 hlast
      exact hwritten

end Bodies

end ControlStore
