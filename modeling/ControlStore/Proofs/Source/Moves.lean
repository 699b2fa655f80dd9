import ControlStore.Proofs.Source.Spelling
import ControlStore.Proofs.Symbol.Path
import ControlStore.Source.Reader

/-!
# What a token can do

Reading goes on one token at a time. `Reader.Move` lists all that a token can do where it does not
fail: most tokens only lead from one place in the text to another (`Context.Passes`), and the others
complete a part of the program. `Reader.move_of_step` is the inversion of `Reader.step`, so an
invariant of reading is proved by looking at the moves and not at the text of the reader.

A whole text is read by one move after the other, from the first definition to the end of the last
one. `Program.ReadFrom.invariant` packs the induction: what holds before the first token and is kept
by every move holds of the program that was read.
-/

namespace ControlStore

/-! ## Moves -/

/-- The token leads from one place to another and does nothing to the program. -/
inductive Context.Passes (token : Token) : Context → Context → Prop
  | keyword {word : String} {next : Context} (hkind : token.kind = .word word)
      (hnext : ofKeyword? word = some next) : Passes token .definition next
  | settingsOpen (hkind : token.kind = .openBlock) : Passes token .settingsOpen .settings
  | setting {word : String} {setting : Setting} (hkind : token.kind = .word word)
      (hsetting : Setting.ofWord? word = some setting) :
      Passes token .settings (.settingValue setting)
  | settingsClose (hkind : token.kind = .closeBlock) : Passes token .settings .definition
  | constantName {name : String} (hkind : token.kind = .word name) :
      Passes token .constantName (.constantValue name)
  | controlName {name : String} (hkind : token.kind = .word name) :
      Passes token .controlName (.controlBank name)
  | controlBank {name : String} {bank : Nat} (hkind : token.kind = .integer bank) :
      Passes token (.controlBank name) (.controlMask name bank)
  | sequenceName {isMacro : Bool} {name : String} (hkind : token.kind = .word name) :
      Passes token (.sequenceName isMacro) (.sequenceHead { name, code := { isMacro } })
  | parameters {draft : Draft} {names : List String}
      (hkind : token.kind = .list (names.map .symbol)) (hisMacro : draft.code.isMacro = true) :
      Passes token (.sequenceHead draft) (.sequenceOpen (draft.setParameters names))
  | sequenceHead {draft : Draft} (hkind : token.kind = .openBlock) :
      Passes token (.sequenceHead draft) (.statement draft)
  | sequenceOpen {draft : Draft} (hkind : token.kind = .openBlock) :
      Passes token (.sequenceOpen draft) (.statement draft)
  | label {draft : Draft} {word label : String} (hkind : token.kind = .word word)
      (hlabel : labelName? word = some label) (hname : Dotless label)
      (hnew : draft.locals.contains label = false) :
      Passes token (.statement draft) (.statement (draft.addLabel label))
  | statement {draft : Draft} {word : String} (hkind : token.kind = .word word)
      (hlabel : labelName? word = none) :
      Passes token (.statement draft) (.statementWord draft token.line word)
  | reference {draft : Draft} {line : Nat} {word : String} {arguments : List Value}
      (hkind : token.kind = .list arguments) :
      Passes token (.statementWord draft line word)
        (.statement (draft.addStep (.reference { line, symbol := word, arguments })))
  | assertion {draft : Draft} {line : Nat} {word : String} (hword : isAssert word = true)
      (hkind : token.kind = .openBlock) :
      Passes token (.statementWord draft line word) (.signals (.step draft) { line := token.line })
  | filling (hkind : token.kind = .openBlock) :
      Passes token .fillingOpen (.signals .filling { line := token.line })
  | comma {purpose : Purpose} {assertion : Assertion} (hkind : token.kind = .comma) :
      Passes token (.signals purpose assertion) (.signals purpose assertion)
  | step {draft : Draft} {assertion : Assertion} (hkind : token.kind = .closeBlock) :
      Passes token (.signals (.step draft) assertion)
        (.statement (draft.addStep (.assertion assertion)))
  | entrypointsOpen (hkind : token.kind = .openBlock) : Passes token .entrypointsOpen .entrypoints
  | entrypointsComma (hkind : token.kind = .comma) : Passes token .entrypoints .entrypoints
  | entrypointsClose (hkind : token.kind = .closeBlock) : Passes token .entrypoints .definition

/-- The program with a setting changed. -/
def Program.configure (program : Program) (value : Nat) : Setting → Program
  | .wordWidth => { program with wordWidth := value }
  | .length => { program with length := value }
  | .opcodeWidth => { program with opcodeWidth := value }
  | .bankMask => { program with bankMask := ⟨value, 0⟩ }

/-- What a token completes: the place that it leads to, and the program with what it adds. -/
inductive Reader.Completes (token : Token) (program : Program) :
    Context → Context → Program → Prop
  | constant {name : String} {value : Int} (hkind : token.kind = .integer value)
      (hname : Dotless name) :
      Completes token program (.constantValue name) .definition
        { program with symbols := program.symbols.bind name (.constant value) }
  | control {name : String} {bank : Nat} {mask : Mask} (hmask : maskOf? token.kind = some mask)
      (hnew : name ∉ program.controls) :
      Completes token program (.controlMask name bank) .definition
        { program with controls := program.controls.insert name { name, mask, bank } }
  | sequence {draft : Draft} (hkind : token.kind = .closeBlock) (hname : Dotless draft.name) :
      Completes token program (.statement draft) .definition
        { program with
          symbols := program.symbols.bind draft.name (.sequence draft.code draft.locals) }
  | filling {assertion : Assertion} (hkind : token.kind = .closeBlock) :
      Completes token program (.signals .filling assertion) .definition
        { program with emptyAssertion := some assertion }
  | signal {purpose : Purpose} {assertion next : Assertion} {name : String} {value : Value}
      {control : Control} (hkind : token.kind = .pair (.symbol name) value)
      (hcontrol : program.controls[name]? = some control)
      (hnext : (assertion.add control value).result = .ok next) :
      Completes token program (.signals purpose assertion) (.signals purpose next) program
  | fetch {name symbol : String} (hkind : token.kind = .pair (.symbol name) (.symbol symbol))
      (hname : equalIgnoringCase name "fetch" = true) :
      Completes token program .entrypoints .entrypoints { program with fetch := some symbol }
  | interrupt {name symbol : String} (hkind : token.kind = .pair (.symbol name) (.symbol symbol))
      (hname : equalIgnoringCase name "interrupt" = true) :
      Completes token program .entrypoints .entrypoints { program with interrupt := some symbol }
  | opcode {opcode : Nat} {symbol : String}
      (hkind : token.kind = .pair (.integer opcode) (.symbol symbol)) :
      Completes token program .entrypoints .entrypoints
        { program with entrypoints := program.entrypoints.insert opcode symbol }

/-- What a token can do at a place, for a reader that has reached its line. -/
inductive Reader.Move (token : Token) (reader : Reader) : Context → Context → Reader → Prop
  | pass {context next : Context} (h : Context.Passes token context next) :
      Move token reader context next { reader with line := token.line }
  | configure {setting : Setting} {value : Nat} (hkind : token.kind = .integer value) :
      Move token reader (.settingValue setting) .settings
        { program := reader.program.configure value setting
          line := token.line
          hasBankMask := reader.hasBankMask || setting = .bankMask }
  | complete {context next : Context} {program : Program}
      (h : Completes token reader.program context next program) :
      Move token reader context next { reader with program, line := token.line }

/-! ## Inversion of single steps -/

namespace Reader

open Stage

variable {token : Token} {reader final : Reader} {context next : Context}

@[simp]
theorem yields_failAt {α : Type} {cause : ParseCause} {a : α} :
    ¬(failAt token cause : Reading α).Yields reader a final :=
  yields_fail

@[simp]
theorem yields_unexpected {α : Type} {a : α} :
    ¬(unexpected context token : Reading α).Yields reader a final :=
  yields_fail

@[simp]
theorem yields_edit {f : Program → Program} {u : Unit} :
    (edit f).Yields reader u final ↔ { reader with program := f reader.program } = final :=
  yields_modify

/-- A name that passes the check has no dot, and nothing has changed. -/
theorem of_checkName {name : String} {u : Unit} (h : (checkName token name).Yields reader u final) :
    Dotless name ∧ reader = final := by
  unfold checkName at h
  split at h
  · exact absurd h yields_failAt
  · next hdot => exact ⟨hdot, (yields_pure.1 h).2⟩

/-- A symbol is defined under a name without dots, whether it is new or redefined. -/
theorem of_define {name : String} {symbol : Symbol} {u : Unit}
    (h : (define token name symbol).Yields reader u final) :
    Dotless name ∧ { reader with program :=
      { reader.program with symbols := reader.program.symbols.bind name symbol } } = final := by
  obtain ⟨_, _, hcheck, h⟩ := yields_bind.1 h
  obtain ⟨hname, rfl⟩ := of_checkName hcheck
  obtain ⟨_, _, hget, h⟩ := yields_bind.1 h
  obtain ⟨rfl, rfl⟩ := yields_get.1 hget
  refine ⟨hname, ?_⟩
  split at h
  · obtain ⟨_, _, hnote, h⟩ := yields_bind.1 h
    rw [← yields_note.1 hnote] at h
    exact yields_edit.1 h
  · exact yields_edit.1 h

/-- A natural number is read off the token, and nothing has changed. -/
theorem of_natural {n : Nat} (h : (natural context token).Yields reader n final) :
    token.kind = .integer n ∧ reader = final := by
  unfold natural at h
  split at h
  · next value hkind =>
    split at h
    · exact absurd h yields_failAt
    · next hsign =>
      obtain ⟨hvalue, hstate⟩ := yields_pure.1 h
      have hcast : value = n := by omega
      exact ⟨hcast ▸ hkind, hstate⟩
  · exact absurd h yields_unexpected

/-- A setting changes the program, and the selector is noted as set. -/
theorem of_configure {setting : Setting} {value : Nat} {u : Unit}
    (h : (configure setting value).Yields reader u final) :
    { reader with
      program := reader.program.configure value setting
      hasBankMask := reader.hasBankMask || setting = .bankMask } = final := by
  cases setting with
  | bankMask =>
    obtain ⟨_, _, hedit, h⟩ := yields_bind.1 h
    obtain ⟨_, _, hmodify, hnote⟩ := yields_bind.1 h
    rw [← yields_note.1 hnote, ← yields_modify.1 hmodify, ← yields_edit.1 hedit]
    simp [Program.configure]
  | wordWidth =>
    obtain ⟨_, _, hedit, hnote⟩ := yields_bind.1 h
    rw [← yields_note.1 hnote, ← yields_edit.1 hedit]
    simp [Program.configure]
  | length =>
    obtain ⟨_, _, hedit, hnote⟩ := yields_bind.1 h
    rw [← yields_note.1 hnote, ← yields_edit.1 hedit]
    simp [Program.configure]
  | opcodeWidth =>
    obtain ⟨_, _, hedit, hnote⟩ := yields_bind.1 h
    rw [← yields_note.1 hnote, ← yields_edit.1 hedit]
    simp [Program.configure]

/-- A control is added under a new name. -/
theorem of_addControl {control : Control} {u : Unit}
    (h : (addControl token control).Yields reader u final) :
    control.name ∉ reader.program.controls ∧
      { reader with program := { reader.program with
        controls := reader.program.controls.insert control.name control } } = final := by
  obtain ⟨_, _, hget, h⟩ := yields_bind.1 h
  obtain ⟨rfl, rfl⟩ := yields_get.1 hget
  split at h
  · obtain ⟨_, _, hfail, -⟩ := yields_bind.1 h
    exact absurd hfail yields_failAt
  · next hnew =>
    obtain ⟨_, _, hnote, h⟩ := yields_bind.1 h
    rw [← yields_note.1 hnote] at h
    exact ⟨by simpa using hnew, yields_edit.1 h⟩

/-- Parameters are names, and nothing has changed. -/
theorem of_parameters {values : List Value} {names : List String}
    (h : (parameters token values).Yields reader names final) :
    values = names.map .symbol ∧ reader = final := by
  induction values generalizing names final with
  | nil =>
    obtain ⟨rfl, rfl⟩ := yields_pure.1 h
    exact ⟨rfl, rfl⟩
  | cons value values ih =>
    cases value with
    | integer n => exact absurd h yields_failAt
    | symbol name =>
      obtain ⟨rest, _, hrest, h⟩ := yields_bind.1 h
      obtain ⟨rfl, rfl⟩ := ih hrest
      obtain ⟨rfl, rfl⟩ := yields_pure.1 h
      exact ⟨rfl, rfl⟩

/-! ## Inversion at each place -/

/-- A token that only leads on, for a reader that is at its line already. -/
theorem Move.of_passes (hline : reader.line = token.line)
    (h : Context.Passes token context next) : Move token reader context next reader := by
  have hmove : Move token reader context next { reader with line := token.line } := .pass h
  rwa [← hline] at hmove

/-- What a token completes on its own line is a move. -/
theorem Move.of_completes {program : Program} (hline : reader.line = token.line)
    (h : Completes token reader.program context next program) :
    Move token reader context next { reader with program } := by
  have hmove : Move token reader context next { reader with program, line := token.line } :=
    .complete h
  rwa [← hline] at hmove

/-- Opening a block is a move, if the brace may be passed. -/
theorem move_of_openBlock {opened : Context} (hline : reader.line = token.line)
    (hpass : token.kind = .openBlock → Context.Passes token context opened)
    (h : (openBlock context opened token).Yields reader next final) :
    Move token reader context next final := by
  unfold openBlock at h
  split at h
  · next hkind =>
    obtain ⟨rfl, rfl⟩ := yields_pure.1 h
    exact .of_passes hline (hpass hkind)
  · exact absurd h yields_unexpected

/-- Taking a word is a move, if the word may be passed. -/
theorem move_of_word {place : String → Context} (hline : reader.line = token.line)
    (hpass : ∀ name, token.kind = .word name → Context.Passes token context (place name))
    (h : (word context place token).Yields reader next final) :
    Move token reader context next final := by
  unfold word at h
  split at h
  · next name hkind =>
    obtain ⟨rfl, rfl⟩ := yields_pure.1 h
    exact .of_passes hline (hpass name hkind)
  · exact absurd h yields_unexpected

/-- Among settings a name or the closing brace is passed. -/
theorem move_of_setting (hline : reader.line = token.line)
    (h : (setting token).Yields reader next final) : Move token reader .settings next final := by
  unfold setting at h
  split at h
  · next hkind =>
    obtain ⟨rfl, rfl⟩ := yields_pure.1 h
    exact .of_passes hline (.settingsClose hkind)
  · next word hkind =>
    split at h
    · next setting hsetting =>
      obtain ⟨rfl, rfl⟩ := yields_pure.1 h
      exact .of_passes hline (.setting hkind hsetting)
    · exact absurd h yields_unexpected
  · exact absurd h yields_unexpected

/-- Behind the name of a sequence comes its block, behind that of a macro its parameters, too. -/
theorem move_of_sequenceHead {draft : Draft} (hline : reader.line = token.line)
    (h : (sequenceHead draft token).Yields reader next final) :
    Move token reader (.sequenceHead draft) next final := by
  unfold sequenceHead at h
  split at h
  · next items hkind =>
    split at h
    · next hisMacro =>
      obtain ⟨names, _, hnames, h⟩ := yields_bind.1 h
      obtain ⟨rfl, rfl⟩ := of_parameters hnames
      obtain ⟨rfl, rfl⟩ := yields_pure.1 h
      exact .of_passes hline (.parameters hkind hisMacro)
    · exact absurd h yields_failAt
  · next hkind =>
    obtain ⟨rfl, rfl⟩ := yields_pure.1 h
    exact .of_passes hline (.sequenceHead hkind)
  · exact absurd h yields_unexpected

/-- The closing brace completes the sequence under its name. -/
theorem move_of_finishSequence {draft : Draft} (hline : reader.line = token.line)
    (hkind : token.kind = .closeBlock)
    (h : (finishSequence draft token).Yields reader next final) :
    Move token reader (.statement draft) next final := by
  obtain ⟨_, _, hdefine, h⟩ := yields_bind.1 h
  obtain ⟨hname, rfl⟩ := of_define hdefine
  obtain ⟨_, _, hnote, h⟩ := yields_bind.1 h
  obtain ⟨rfl, rfl⟩ := yields_pure.1 h
  rw [← yields_note.1 hnote]
  exact .of_completes hline (.sequence hkind hname)

/-- A label is placed, if it is new among those of the sequence. -/
theorem move_of_placeLabel {draft : Draft} {word label : String} (hline : reader.line = token.line)
    (hkind : token.kind = .word word) (hlabel : labelName? word = some label)
    (h : (placeLabel draft token label).Yields reader next final) :
    Move token reader (.statement draft) next final := by
  obtain ⟨_, _, hcheck, h⟩ := yields_bind.1 h
  obtain ⟨hname, rfl⟩ := of_checkName hcheck
  split at h
  · obtain ⟨_, _, hfail, -⟩ := yields_bind.1 h
    exact absurd hfail yields_failAt
  · next hnew =>
    obtain ⟨rfl, rfl⟩ := yields_pure.1 h
    exact .of_passes hline (.label hkind hlabel hname (by simpa using hnew))

/-- Inside a sequence a token ends it, places a label or starts another statement. -/
theorem move_of_statement {draft : Draft} (hline : reader.line = token.line)
    (h : (statement draft token).Yields reader next final) :
    Move token reader (.statement draft) next final := by
  unfold statement at h
  split at h
  · next hkind => exact move_of_finishSequence hline hkind h
  · next word hkind =>
    split at h
    · next label hlabel => exact move_of_placeLabel hline hkind hlabel h
    · next hlabel =>
      obtain ⟨rfl, rfl⟩ := yields_pure.1 h
      exact .of_passes hline (.statement hkind hlabel)
  · exact absurd h yields_unexpected

/-- The closing brace ends a step of a sequence, or completes the empty assertion. -/
theorem move_of_finishAssertion {purpose : Purpose} {assertion : Assertion}
    (hline : reader.line = token.line) (hkind : token.kind = .closeBlock)
    (h : (finishAssertion assertion purpose).Yields reader next final) :
    Move token reader (.signals purpose assertion) next final := by
  cases purpose with
  | step draft =>
    obtain ⟨rfl, rfl⟩ := yields_pure.1 h
    exact .of_passes hline (.step hkind)
  | filling =>
    obtain ⟨_, _, hget, h⟩ := yields_bind.1 h
    obtain ⟨rfl, rfl⟩ := yields_get.1 hget
    -- the assertion is stored either way; a warning may come before if there was one
    have hstore : ∀ {middle}, (do
        edit fun program => { program with emptyAssertion := some assertion }
        return Context.definition : Reading Context).Yields middle next final →
          next = .definition ∧ { middle with program :=
            { middle.program with emptyAssertion := some assertion } } = final := by
      intro middle h
      obtain ⟨_, _, hedit, h⟩ := yields_bind.1 h
      obtain ⟨rfl, rfl⟩ := yields_pure.1 h
      exact ⟨rfl, yields_edit.1 hedit⟩
    dsimp only at h
    split at h
    · obtain ⟨_, _, hnote, h⟩ := yields_bind.1 h
      rw [← yields_note.1 hnote] at h
      obtain ⟨rfl, rfl⟩ := hstore h
      exact .of_completes hline (.filling hkind)
    · obtain ⟨rfl, rfl⟩ := hstore h
      exact .of_completes hline (.filling hkind)

/-- A signal is added to the assertion if its control is declared and may follow. -/
theorem of_addSignal {assertion added : Assertion} {name : String} {value : Value}
    (h : (addSignal assertion token name value).Yields reader added final) :
    (∃ control, reader.program.controls[name]? = some control ∧
      (assertion.add control value).result = .ok added) ∧ reader = final := by
  obtain ⟨_, _, hget, h⟩ := yields_bind.1 h
  obtain ⟨rfl, rfl⟩ := yields_get.1 hget
  split at h
  · next control hcontrol =>
    obtain ⟨hadd, rfl⟩ := yields_ofReport.1 h
    exact ⟨⟨control, hcontrol, mapError_eq_ok_iff.1 hadd⟩, rfl⟩
  · exact absurd h yields_failAt

/-- Inside an assertion a token ends it, is a comma or adds a signal. -/
theorem move_of_signals {purpose : Purpose} {assertion : Assertion}
    (hline : reader.line = token.line)
    (h : (signals purpose assertion token).Yields reader next final) :
    Move token reader (.signals purpose assertion) next final := by
  unfold signals at h
  split at h
  · next hkind => exact move_of_finishAssertion hline hkind h
  · next hkind =>
    obtain ⟨rfl, rfl⟩ := yields_pure.1 h
    exact .of_passes hline (.comma hkind)
  · next name value hkind =>
    obtain ⟨added, _, hadd, h⟩ := yields_bind.1 h
    obtain ⟨⟨control, hcontrol, hadded⟩, rfl⟩ := of_addSignal hadd
    obtain ⟨rfl, rfl⟩ := yields_pure.1 h
    exact .of_completes hline (.signal hkind hcontrol hadded)
  · exact absurd h yields_unexpected

/-- A pair completes the binding of a named entrypoint or of an opcode. -/
theorem completes_of_bindEntrypoint {key : Value} {symbol : String} {u : Unit}
    (hkind : token.kind = .pair key (.symbol symbol))
    (h : (bindEntrypoint token key symbol).Yields reader u final) :
    ∃ program, Completes token reader.program .entrypoints .entrypoints program ∧
      { reader with program } = final := by
  unfold bindEntrypoint at h
  split at h
  · split at h
    · next hname => exact ⟨_, .fetch hkind hname, yields_edit.1 h⟩
    · split at h
      · next hname => exact ⟨_, .interrupt hkind hname, yields_edit.1 h⟩
      · exact absurd h yields_failAt
  · next opcode =>
    split at h
    · next hsign =>
      obtain ⟨_, _, hget, h⟩ := yields_bind.1 h
      obtain ⟨rfl, rfl⟩ := yields_get.1 hget
      obtain ⟨_, _, hedit, h⟩ := yields_bind.1 h
      have hfinal : { reader with program := { reader.program with
          entrypoints := reader.program.entrypoints.insert opcode.toNat symbol } } = final := by
        rw [← yields_edit.1 hedit] at h
        split at h
        · exact yields_note.1 h
        · exact (yields_pure.1 h).2
      refine ⟨_, .opcode ?_, hfinal⟩
      rw [hkind, Int.toNat_of_nonneg hsign]
    · exact absurd h yields_failAt

/-- Among bindings a token ends them, is a comma or binds one more. -/
theorem move_of_entrypoint (hline : reader.line = token.line)
    (h : (entrypoint token).Yields reader next final) :
    Move token reader .entrypoints next final := by
  unfold entrypoint at h
  split at h
  · next hkind =>
    obtain ⟨rfl, rfl⟩ := yields_pure.1 h
    exact .of_passes hline (.entrypointsClose hkind)
  · next hkind =>
    obtain ⟨rfl, rfl⟩ := yields_pure.1 h
    exact .of_passes hline (.entrypointsComma hkind)
  · next key symbol hkind =>
    obtain ⟨_, _, hbind, h⟩ := yields_bind.1 h
    obtain ⟨program, hcompletes, rfl⟩ := completes_of_bindEntrypoint hkind hbind
    obtain ⟨rfl, rfl⟩ := yields_pure.1 h
    exact .of_completes hline hcompletes
  · exact absurd h yields_failAt
  · exact absurd h yields_unexpected

/-! ## One token -/

/-- Behind the first word of a statement, only `assert` is taken. -/
theorem move_of_take (hline : reader.line = token.line)
    (hassert : ∀ draft line word, context = .statementWord draft line word → isAssert word = true)
    (h : (take context token).Yields reader next final) : Move token reader context next final := by
  -- one case for each place a token can be taken at
  cases context with
  | definition =>
    unfold take at h
    dsimp only at h
    split at h
    · next word hkind =>
      split at h
      · next place hplace =>
        obtain ⟨rfl, rfl⟩ := yields_pure.1 h
        exact .of_passes hline (.keyword hkind hplace)
      · exact absurd h yields_unexpected
    · exact absurd h yields_unexpected
  | settingsOpen => exact move_of_openBlock hline .settingsOpen h
  | settings => exact move_of_setting hline h
  | settingValue setting =>
    obtain ⟨value, _, hvalue, h⟩ := yields_bind.1 h
    obtain ⟨hkind, rfl⟩ := of_natural hvalue
    obtain ⟨_, _, hconfigure, h⟩ := yields_bind.1 h
    obtain ⟨rfl, rfl⟩ := yields_pure.1 h
    rw [← of_configure hconfigure, hline]
    exact .configure hkind
  | constantName => exact move_of_word hline (fun name => .constantName) h
  | constantValue name =>
    unfold take at h
    dsimp only at h
    split at h
    · next value hkind =>
      obtain ⟨_, _, hdefine, h⟩ := yields_bind.1 h
      obtain ⟨hname, rfl⟩ := of_define hdefine
      obtain ⟨rfl, rfl⟩ := yields_pure.1 h
      exact .of_completes hline (.constant hkind hname)
    · exact absurd h yields_unexpected
  | controlName => exact move_of_word hline (fun name => .controlName) h
  | controlBank name =>
    obtain ⟨bank, _, hbank, h⟩ := yields_bind.1 h
    obtain ⟨hkind, rfl⟩ := of_natural hbank
    obtain ⟨rfl, rfl⟩ := yields_pure.1 h
    exact .of_passes hline (.controlBank hkind)
  | controlMask name bank =>
    unfold take at h
    dsimp only at h
    split at h
    · next mask hmask =>
      obtain ⟨_, _, hadd, h⟩ := yields_bind.1 h
      obtain ⟨hnew, rfl⟩ := of_addControl hadd
      obtain ⟨rfl, rfl⟩ := yields_pure.1 h
      exact .of_completes hline (.control hmask hnew)
    · exact absurd h yields_unexpected
  | sequenceName isMacro => exact move_of_word hline (fun name => .sequenceName) h
  | sequenceHead draft => exact move_of_sequenceHead hline h
  | sequenceOpen draft => exact move_of_openBlock hline .sequenceOpen h
  | statement draft => exact move_of_statement hline h
  | statementWord draft line word =>
    exact move_of_openBlock hline (.assertion (hassert draft line word rfl)) h
  | fillingOpen => exact move_of_openBlock hline .filling h
  | signals purpose assertion => exact move_of_signals hline h
  | entrypointsOpen => exact move_of_openBlock hline .entrypointsOpen h
  | entrypoints => exact move_of_entrypoint hline h

/-- A token that does not fail makes a move. -/
theorem move_of_step (h : (step context token).Yields reader next final) :
    Move token reader context next final := by
  -- a move does not look at the line that the reader was at before
  have hmove : ∀ {context}, Move token { reader with line := token.line } context next final →
      Move token reader context next final := by
    intro context hmove
    cases hmove with
    | pass hpasses => exact .pass hpasses
    | configure hkind => exact .configure hkind
    | complete hcompletes => exact .complete hcompletes
  unfold step at h
  split at h
  · next draft line word arguments hkind =>
    obtain ⟨_, _, hmodify, h⟩ := yields_bind.1 h
    obtain ⟨rfl, rfl⟩ := yields_pure.1 h
    rw [← yields_modify.1 hmodify]
    exact .pass (.reference hkind)
  · split at h
    · next hassert =>
      obtain ⟨_, _, hmodify, h⟩ := yields_bind.1 h
      rw [← yields_modify.1 hmodify] at h
      refine hmove (move_of_take rfl ?_ h)
      rintro _ _ _ heq
      cases heq
      exact hassert
    · exact absurd h yields_fail
  · next hother _ =>
    obtain ⟨_, _, hmodify, h⟩ := yields_bind.1 h
    rw [← yields_modify.1 hmodify] at h
    refine hmove (move_of_take rfl ?_ h)
    intro draft line word heq
    exact (hother draft line word heq).elim

/-! ## A whole text -/

/-- What every move keeps, a list of tokens keeps. -/
theorem invariant_of_steps {inv : Context → Reader → Prop} {tokens : List Token}
    (hmove : ∀ token ∈ tokens, ∀ context reader next final, inv context reader →
      Move token reader context next final → inv next final)
    (hstart : inv context reader) (h : (tokens.foldlM step context).Yields reader next final) :
    inv next final := by
  induction tokens generalizing context reader with
  | nil =>
    obtain ⟨rfl, rfl⟩ := yields_pure.1 h
    exact hstart
  | cons token tokens ih =>
    rw [List.foldlM_cons] at h
    obtain ⟨middle, _, hstep, h⟩ := yields_bind.1 h
    refine ih (fun other hother => hmove other (List.mem_cons_of_mem _ hother)) ?_ h
    exact hmove token (List.mem_cons_self ..) _ _ _ _ hstart (move_of_step hstep)

/-- A text ends between two definitions. -/
theorem of_finish {u : Unit} (h : (finish context).Yields reader u final) :
    context = .definition ∧ reader = final := by
  unfold finish at h
  split at h
  · exact ⟨rfl, (yields_pure.1 h).2⟩
  · split at h
    · obtain ⟨_, _, _, hfail⟩ := yields_bind.1 h
      exact absurd hfail yields_fail
    · exact absurd h yields_fail
  · obtain ⟨_, _, _, hfail⟩ := yields_bind.1 h
    exact absurd hfail yields_fail

/-- The check passes exactly if the selector was set and the program is valid, and changes nothing.
-/
theorem yields_check_iff {u : Unit} : check.Yields reader u final ↔
    reader.hasBankMask = true ∧ reader.program.validate = .ok () ∧ reader = final := by
  constructor
  · intro h
    obtain ⟨_, _, hget, h⟩ := yields_bind.1 h
    obtain ⟨rfl, rfl⟩ := yields_get.1 hget
    split at h
    · obtain ⟨_, _, hfail, -⟩ := yields_bind.1 h
      exact absurd hfail yields_fail
    · next hmask =>
      obtain ⟨hvalid, rfl⟩ := yields_ofReport.1 h
      exact ⟨by simpa using hmask, mapError_eq_ok_iff.1 hvalid, rfl⟩
  · rintro ⟨hmask, hvalid, rfl⟩
    refine yields_bind.2 ⟨_, _, yields_get.2 ⟨rfl, rfl⟩, ?_⟩
    rw [if_neg (by simp [hmask])]
    exact yields_ofReport.2 ⟨mapError_eq_ok_iff.2 hvalid, rfl⟩

/-- A text is read if its tokens are and what they lead to passes the check. -/
theorem yields_readText_iff {text : String} {u : Unit} :
    (readText text).Yields reader u final ↔ ∃ tokens, tokenize text = .ok tokens ∧
      (tokens.foldlM step .definition).Yields reader .definition final ∧
        final.hasBankMask = true ∧ final.program.validate = .ok () := by
  constructor
  · intro h
    obtain ⟨tokens, _, htokens, h⟩ := yields_bind.1 h
    obtain ⟨htokenize, rfl⟩ := yields_ofReport.1 htokens
    obtain ⟨_, _, hdefinitions, hcheck⟩ := yields_bind.1 h
    obtain ⟨context, _, hsteps, hfinish⟩ := yields_bind.1 hdefinitions
    obtain ⟨rfl, rfl⟩ := of_finish hfinish
    obtain ⟨hmask, hvalid, rfl⟩ := yields_check_iff.1 hcheck
    exact ⟨tokens, htokenize, hsteps, hmask, hvalid⟩
  · rintro ⟨tokens, htokenize, hsteps, hmask, hvalid⟩
    refine yields_bind.2 ⟨tokens, reader, yields_ofReport.2 ⟨htokenize, rfl⟩, ?_⟩
    refine yields_bind.2 ⟨(), final, ?_, yields_check_iff.2 ⟨hmask, hvalid, rfl⟩⟩
    exact yields_bind.2 ⟨_, _, hsteps, yields_pure.2 ⟨rfl, rfl⟩⟩

end Reader

namespace Program

/-- The program is read from the text, starting afresh. -/
def ReadFrom (text : String) (program : Program) : Prop :=
  ∃ reader, (Reader.readText text).Yields {} () reader ∧ reader.program = program

variable {text : String} {program : Program}

/-- What holds at the start of a text and is kept by every move holds of the program that is read,
which also passes its check. -/
theorem ReadFrom.invariant (inv : Context → Reader → Prop) (hstart : inv .definition {})
    (hmove : ∀ token context reader next final, token.kind.Spelled → inv context reader →
      Reader.Move token reader context next final → inv next final)
    (h : program.ReadFrom text) :
    ∃ reader, inv .definition reader ∧ reader.program = program ∧ reader.hasBankMask = true ∧
      program.validate = .ok () := by
  obtain ⟨reader, hread, rfl⟩ := h
  obtain ⟨tokens, htokenize, hsteps, hmask, hvalid⟩ := Reader.yields_readText_iff.1 hread
  refine ⟨_, ?_, rfl, hmask, hvalid⟩
  refine Reader.invariant_of_steps (fun token htoken context reader next final => ?_) hstart hsteps
  exact hmove token context reader next final (tokenize_spelled htokenize token htoken)

/-- A program that was read is valid. -/
theorem ReadFrom.validate (h : program.ReadFrom text) : program.validate = .ok () := by
  obtain ⟨_, -, -, -, hvalid⟩ :=
    h.invariant (fun _ _ => True) trivial fun _ _ _ _ _ _ _ _ => trivial
  exact hvalid

/-- The program that reading a text leaves, also if the text is refused. -/
def ofText (text : String) : Program := ((Reader.readText text).run {}).state.program

/-- A text is read into one program only. -/
theorem ReadFrom.eq_ofText (h : program.ReadFrom text) : program = ofText text := by
  obtain ⟨reader, ⟨-, rfl⟩, rfl⟩ := h
  rfl

/-- A text that is read is read into the program of this text. -/
theorem readFrom_ofText (h : ((Reader.readText text).run {}).result = .ok ()) :
    (ofText text).ReadFrom text :=
  ⟨_, ⟨h, rfl⟩, rfl⟩

end Program

end ControlStore
