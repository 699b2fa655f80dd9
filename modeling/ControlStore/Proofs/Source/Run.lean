import ControlStore.Proofs.Source.Moves

/-!
# Runs of a reader

`Reader.Move` says what a token can do, and `Reader.move_of_step` that a reader does nothing else.
Here is the other direction: whatever a move allows, the reader does (`Reader.yields_step_iff`). So
reading a list of tokens is making one move after the other, which is a `Reader.Run`
(`Reader.yields_foldlM_step_iff`).

The line that a reader has reached only matters for its errors. A run leaves it open, so that a move
that only passes leaves the reader as it is (`Reader.Run.pass`).
-/

namespace ControlStore

open Stage

namespace Reader

variable {token : Token} {tokens more : List Token} {reader final : Reader}
  {context next last : Context}

/-! ## Parts of a step -/

/-- A name without dots passes the check. -/
theorem yields_checkName {name : String} (h : Dotless name) :
    (checkName token name).Yields reader () reader := by
  unfold checkName
  rw [if_neg h]
  exact yields_pure.2 ⟨rfl, rfl⟩

/-- A symbol is defined under a name without dots. -/
theorem yields_define {name : String} {symbol : Symbol} (h : Dotless name) :
    (define token name symbol).Yields reader () { reader with program :=
      { reader.program with symbols := reader.program.symbols.bind name symbol } } := by
  refine yields_bind.2 ⟨_, _, yields_checkName h, ?_⟩
  refine yields_bind.2 ⟨_, _, yields_get.2 ⟨rfl, rfl⟩, ?_⟩
  split
  · exact yields_bind.2 ⟨(), reader, yields_note.2 rfl, yields_edit.2 rfl⟩
  · exact yields_edit.2 rfl

/-- A number is read off its token. -/
theorem yields_natural {n : Nat} (h : token.kind = .integer n) :
    (natural context token).Yields reader n reader := by
  unfold natural
  split
  · next value hkind =>
    obtain rfl : value = n := TokenKind.integer.inj (hkind.symm.trans h)
    rw [if_neg (by omega)]
    exact yields_pure.2 ⟨by omega, rfl⟩
  · next hother => exact absurd h (hother n)

/-- A setting is made, and the selector is noted as set. -/
theorem yields_configure {setting : Setting} {value : Nat} :
    (configure setting value).Yields reader () { reader with
      program := reader.program.configure value setting
      hasBankMask := reader.hasBankMask || setting = .bankMask } := by
  cases setting with
  | bankMask =>
    refine yields_bind.2 ⟨(), _, yields_edit.2 rfl, ?_⟩
    refine yields_bind.2 ⟨(), _, yields_modify.2 rfl, yields_note.2 ?_⟩
    simp [Program.configure]
  | wordWidth =>
    refine yields_bind.2 ⟨(), _, yields_edit.2 rfl, yields_note.2 ?_⟩
    simp [Program.configure]
  | length =>
    refine yields_bind.2 ⟨(), _, yields_edit.2 rfl, yields_note.2 ?_⟩
    simp [Program.configure]
  | opcodeWidth =>
    refine yields_bind.2 ⟨(), _, yields_edit.2 rfl, yields_note.2 ?_⟩
    simp [Program.configure]

/-- A control is added under a new name. -/
theorem yields_addControl {control : Control} (h : control.name ∉ reader.program.controls) :
    (addControl token control).Yields reader () { reader with program := { reader.program with
      controls := reader.program.controls.insert control.name control } } := by
  refine yields_bind.2 ⟨_, _, yields_get.2 ⟨rfl, rfl⟩, ?_⟩
  rw [if_neg (by simpa using h)]
  exact yields_bind.2 ⟨(), reader, yields_note.2 rfl, yields_edit.2 rfl⟩

/-- Names are read as parameters. -/
theorem yields_parameters (names : List String) :
    (parameters token (names.map .symbol)).Yields reader names reader := by
  induction names with
  | nil => exact yields_pure.2 ⟨rfl, rfl⟩
  | cons name names ih => exact yields_bind.2 ⟨_, _, ih, yields_pure.2 ⟨rfl, rfl⟩⟩

/-- An opening brace opens the block. -/
theorem yields_openBlock (h : token.kind = .openBlock) :
    (openBlock context next token).Yields reader next reader := by
  unfold openBlock
  rw [h]
  exact yields_pure.2 ⟨rfl, rfl⟩

/-- A word is taken. -/
theorem yields_word {place : String → Context} {name : String} (h : token.kind = .word name) :
    (word context place token).Yields reader (place name) reader := by
  unfold word
  rw [h]
  exact yields_pure.2 ⟨rfl, rfl⟩

/-! ## Passing on -/

/-- Where a token only leads on, it is taken without an effect on the program. A word behind which
a list or a block is expected is not looked at by `take`. -/
theorem yields_take_of_passes (h : Context.Passes token context next)
    (hword : ∀ draft line word, context ≠ .statementWord draft line word) :
    (take context token).Yields reader next reader := by
  unfold take
  cases h with
  | keyword hkind hnext =>
    simp only [hkind, hnext]
    exact yields_pure.2 ⟨rfl, rfl⟩
  | settingsOpen hkind => exact yields_openBlock hkind
  | setting hkind hsetting =>
    simp only [setting, hkind, hsetting]
    exact yields_pure.2 ⟨rfl, rfl⟩
  | settingsClose hkind =>
    simp only [setting, hkind]
    exact yields_pure.2 ⟨rfl, rfl⟩
  | constantName hkind => exact yields_word hkind
  | controlName hkind => exact yields_word hkind
  | controlBank hkind => exact yields_bind.2 ⟨_, _, yields_natural hkind, yields_pure.2 ⟨rfl, rfl⟩⟩
  | sequenceName hkind => exact yields_word hkind
  | @parameters draft names hkind hisMacro =>
    simp only [sequenceHead, hkind, hisMacro, if_true]
    exact yields_bind.2 ⟨_, _, yields_parameters names, yields_pure.2 ⟨rfl, rfl⟩⟩
  | sequenceHead hkind =>
    simp only [sequenceHead, hkind]
    exact yields_pure.2 ⟨rfl, rfl⟩
  | sequenceOpen hkind => exact yields_openBlock hkind
  | label hkind hlabel hname hnew =>
    simp only [statement, hkind, hlabel]
    refine yields_bind.2 ⟨_, _, yields_checkName hname, ?_⟩
    rw [if_neg (by simp [hnew])]
    exact yields_pure.2 ⟨rfl, rfl⟩
  | statement hkind hlabel =>
    simp only [statement, hkind, hlabel]
    exact yields_pure.2 ⟨rfl, rfl⟩
  | reference hkind => exact absurd rfl (hword _ _ _)
  | assertion _ hkind => exact absurd rfl (hword _ _ _)
  | filling hkind => exact yields_openBlock hkind
  | comma hkind =>
    simp only [signals, hkind]
    exact yields_pure.2 ⟨rfl, rfl⟩
  | step hkind =>
    simp only [signals, hkind]
    exact yields_pure.2 ⟨rfl, rfl⟩
  | entrypointsOpen hkind => exact yields_openBlock hkind
  | entrypointsComma hkind =>
    simp only [entrypoint, hkind]
    exact yields_pure.2 ⟨rfl, rfl⟩
  | entrypointsClose hkind =>
    simp only [entrypoint, hkind]
    exact yields_pure.2 ⟨rfl, rfl⟩

/-! ## Completing a part -/

/-- A signal whose control is declared and may follow is added. -/
theorem yields_addSignal {assertion added : Assertion} {name : String} {value : Value}
    {control : Control} (hcontrol : reader.program.controls[name]? = some control)
    (hadd : (assertion.add control value).result = .ok added) :
    (addSignal assertion token name value).Yields reader added reader := by
  refine yields_bind.2 ⟨_, _, yields_get.2 ⟨rfl, rfl⟩, ?_⟩
  simp only [hcontrol]
  exact yields_ofReport.2 ⟨mapError_eq_ok_iff.2 hadd, rfl⟩

/-- The empty assertion is stored at its end. -/
theorem yields_finishAssertion {assertion : Assertion} :
    (finishAssertion assertion .filling).Yields reader .definition { reader with program :=
      { reader.program with emptyAssertion := some assertion } } := by
  refine yields_bind.2 ⟨_, _, yields_get.2 ⟨rfl, rfl⟩, ?_⟩
  have hstore : (do
      edit fun program => { program with emptyAssertion := some assertion }
      return Context.definition : Reading Context).Yields reader .definition
        { reader with program := { reader.program with emptyAssertion := some assertion } } :=
    yields_bind.2 ⟨(), _, yields_edit.2 rfl, yields_pure.2 ⟨rfl, rfl⟩⟩
  split
  · exact yields_bind.2 ⟨(), _, yields_note.2 rfl, hstore⟩
  · exact hstore

/-- An opcode is bound. -/
theorem yields_bindOpcode {opcode : Nat} {symbol : String} :
    (bindOpcode token opcode symbol).Yields reader () { reader with program := { reader.program with
      entrypoints := reader.program.entrypoints.insert opcode symbol } } := by
  refine yields_bind.2 ⟨_, _, yields_get.2 ⟨rfl, rfl⟩, ?_⟩
  refine yields_bind.2 ⟨(), _, yields_edit.2 rfl, ?_⟩
  split
  · exact yields_note.2 rfl
  · exact yields_pure.2 ⟨rfl, rfl⟩

/-- A text is equal to at most one of two that differ in more than case. -/
theorem not_isFetch_of_isInterrupt {name : String}
    (h : equalIgnoringCase name "interrupt" = true) : ¬equalIgnoringCase name "fetch" = true := by
  simp only [equalIgnoringCase, decide_eq_true_eq] at h ⊢
  rw [h]
  decide

/-- A token that completes a part of the program is taken. -/
theorem yields_take_of_completes {program : Program}
    (h : Completes token reader.program context next program) :
    (take context token).Yields reader next { reader with program } := by
  unfold take
  cases h with
  | constant hkind hname =>
    simp only [hkind]
    exact yields_bind.2 ⟨_, _, yields_define hname, yields_pure.2 ⟨rfl, rfl⟩⟩
  | control hmask hnew =>
    simp only [hmask]
    exact yields_bind.2 ⟨_, _, yields_addControl hnew, yields_pure.2 ⟨rfl, rfl⟩⟩
  | sequence hkind hname =>
    simp only [statement, hkind]
    refine yields_bind.2 ⟨_, _, yields_define hname, ?_⟩
    exact yields_bind.2 ⟨(), _, yields_note.2 rfl, yields_pure.2 ⟨rfl, rfl⟩⟩
  | filling hkind =>
    simp only [signals, hkind]
    exact yields_finishAssertion
  | signal hkind hcontrol hnext =>
    simp only [signals, hkind]
    exact yields_bind.2 ⟨_, _, yields_addSignal hcontrol hnext, yields_pure.2 ⟨rfl, rfl⟩⟩
  | fetch hkind hname =>
    simp only [entrypoint, hkind, bindEntrypoint, hname, if_true]
    exact yields_bind.2 ⟨(), _, yields_edit.2 rfl, yields_pure.2 ⟨rfl, rfl⟩⟩
  | interrupt hkind hname =>
    simp only [entrypoint, hkind, bindEntrypoint, hname, if_neg (not_isFetch_of_isInterrupt hname),
      if_true]
    exact yields_bind.2 ⟨(), _, yields_edit.2 rfl, yields_pure.2 ⟨rfl, rfl⟩⟩
  | opcode hkind =>
    simp only [entrypoint, hkind, bindEntrypoint, Int.natCast_nonneg, if_true, Int.toNat_natCast]
    exact yields_bind.2 ⟨_, _, yields_bindOpcode, yields_pure.2 ⟨rfl, rfl⟩⟩

/-! ## One token -/

/-- Anywhere but behind the first word of a statement, a token is taken as it comes. -/
theorem yields_step_of_take (hword : ∀ draft line word, context ≠ .statementWord draft line word)
    (h : (take context token).Yields { reader with line := token.line } next final) :
    (step context token).Yields reader next final := by
  unfold step
  split
  · exact absurd rfl (hword _ _ _)
  · exact absurd rfl (hword _ _ _)
  · exact yields_bind.2 ⟨⟨⟩, _, yields_modify.2 rfl, h⟩

/-- A list behind a word is a reference with these arguments. -/
theorem yields_step_of_reference {draft : Draft} {line : Nat} {word : String}
    {arguments : List Value} (hkind : token.kind = .list arguments) :
    (step (.statementWord draft line word) token).Yields reader
      (.statement (draft.addStep (.reference { line, symbol := word, arguments })))
      { reader with line := token.line } := by
  simp only [step, hkind]
  exact yields_bind.2 ⟨⟨⟩, _, yields_modify.2 rfl, yields_pure.2 ⟨rfl, rfl⟩⟩

/-- A brace behind the word for it opens an assertion. -/
theorem yields_step_of_assertion {draft : Draft} {line : Nat} {word : String}
    (hword : isAssert word = true) (hkind : token.kind = .openBlock) :
    (step (.statementWord draft line word) token).Yields reader
      (.signals (.step draft) { line := token.line }) { reader with line := token.line } := by
  simp only [step, hkind, hword, if_true]
  exact yields_bind.2 ⟨⟨⟩, _, yields_modify.2 rfl, yields_openBlock hkind⟩

/-- A token that may be passed is passed. -/
theorem yields_step_of_passes (h : Context.Passes token context next) :
    (step context token).Yields reader next { reader with line := token.line } := by
  by_cases hword : ∀ draft line word, context ≠ .statementWord draft line word
  · exact yields_step_of_take hword (yields_take_of_passes h hword)
  · simp only [not_forall, not_not] at hword
    obtain ⟨draft, line, word, rfl⟩ := hword
    cases h with
    | reference hkind => exact yields_step_of_reference hkind
    | assertion hassert hkind => exact yields_step_of_assertion hassert hkind

/-- Every move is a step of the reader. -/
theorem yields_step_of_move (h : Move token reader context next final) :
    (step context token).Yields reader next final := by
  cases h with
  | pass hpasses => exact yields_step_of_passes hpasses
  | configure hkind =>
    refine yields_step_of_take (by simp) ?_
    refine yields_bind.2 ⟨_, _, yields_natural hkind, ?_⟩
    exact yields_bind.2 ⟨_, _, yields_configure, yields_pure.2 ⟨rfl, rfl⟩⟩
  | complete hcompletes =>
    refine yields_step_of_take ?_ (yields_take_of_completes hcompletes)
    cases hcompletes <;> simp

/-- What a token does is a move, and every move is made. -/
theorem yields_step_iff :
    (step context token).Yields reader next final ↔ Move token reader context next final :=
  ⟨move_of_step, yields_step_of_move⟩

/-! ## Many tokens -/

/-- The tokens lead from one place to another, and the reader from one program to another. Its line
is left open. -/
inductive Run : List Token → Context → Reader → Context → Reader → Prop
  | done {context : Context} {reader : Reader} (line : Nat) :
      Run [] context reader context { reader with line }
  | move {token : Token} {tokens : List Token} {context next last : Context}
      {reader middle final : Reader} (hmove : Move token reader context next middle)
      (hrun : Run tokens next middle last final) : Run (token :: tokens) context reader last final

/-- Reading a list of tokens is making one move after the other. -/
theorem yields_foldlM_step_iff :
    (∃ line, (tokens.foldlM step context).Yields reader last { final with line }) ↔
      Run tokens context reader last final := by
  constructor
  · rintro ⟨line, h⟩
    induction tokens generalizing context reader with
    | nil =>
      obtain ⟨rfl, rfl⟩ := yields_pure.1 h
      exact .done final.line
    | cons token tokens ih =>
      rw [List.foldlM_cons] at h
      -- the first step is a move, and the rest of the fold the rest of the run
      obtain ⟨next, middle, hstep, h⟩ := yields_bind.1 h
      exact .move (yields_step_iff.1 hstep) (ih h)
  · intro h
    induction h with
    | @done context reader line => exact ⟨reader.line, yields_pure.2 ⟨rfl, rfl⟩⟩
    | move hmove _ ih =>
      obtain ⟨line, h⟩ := ih
      rw [List.foldlM_cons]
      exact ⟨line, yields_bind.2 ⟨_, _, yields_step_iff.2 hmove, h⟩⟩

namespace Run

/-- Where a run starts, the line does not matter. -/
theorem of_line (line : Nat) (h : Run tokens context { reader with line } last final) :
    Run tokens context reader last final := by
  cases h with
  | done line' => exact .done line'
  | move hmove hrun =>
    refine .move ?_ hrun
    cases hmove with
    | pass hpasses => exact .pass hpasses
    | configure hkind => exact .configure hkind
    | complete hcompletes => exact .complete hcompletes

/-- Where a run ends, the line is open. -/
theorem with_line (h : Run tokens context reader last final) (line : Nat) :
    Run tokens context reader last { final with line } := by
  induction h with
  | done _ => exact .done line
  | move hmove _ ih => exact .move hmove ih

/-- Two runs one after the other are one run. -/
theorem append {middle : Reader} (h : Run tokens context reader next middle)
    (hmore : Run more next middle last final) :
    Run (tokens ++ more) context reader last final := by
  induction h with
  | done line => exact hmore.of_line line
  | move hmove _ ih => exact .move hmove (ih hmore)

/-- A token that passes on leaves the reader as it is. -/
theorem pass (hpasses : Context.Passes token context next)
    (h : Run tokens next reader last final) : Run (token :: tokens) context reader last final :=
  .move (.pass hpasses) (of_line reader.line h)

/-- A token that completes something comes before the rest of the run. -/
theorem complete {program : Program}
    (hcompletes : Completes token reader.program context next program)
    (h : Run tokens next { reader with program } last final) :
    Run (token :: tokens) context reader last final :=
  .move (.complete hcompletes) (of_line reader.line h)

/-- The value of a setting comes before the rest of the run. -/
theorem configure {setting : Setting} {value : Nat} (hkind : token.kind = .integer value)
    (h : Run tokens .settings { reader with
      program := reader.program.configure value setting
      hasBankMask := reader.hasBankMask || setting = .bankMask } last final) :
    Run (token :: tokens) (.settingValue setting) reader last final :=
  .move (.configure hkind) (of_line reader.line h)

/-- What the first token of a run does. -/
theorem of_cons (h : Run (token :: tokens) context reader last final) :
    (∃ next, Context.Passes token context next ∧ Run tokens next reader last final) ∨
      (∃ (setting : Setting) (value : Nat),
        context = .settingValue setting ∧ token.kind = .integer value ∧
        Run tokens .settings { reader with
          program := reader.program.configure value setting
          hasBankMask := reader.hasBankMask || setting = .bankMask } last final) ∨
      ∃ next program, Completes token reader.program context next program ∧
        Run tokens next { reader with program } last final := by
  cases h with
  | move hmove hrun =>
    cases hmove with
    | pass hpasses => exact .inl ⟨_, hpasses, hrun.of_line token.line⟩
    | configure hkind =>
      refine .inr (.inl ⟨_, _, rfl, hkind, ?_⟩)
      exact of_line token.line hrun
    | complete hcompletes =>
      refine .inr (.inr ⟨_, _, hcompletes, ?_⟩)
      exact of_line token.line hrun

end Run

end Reader

end ControlStore
