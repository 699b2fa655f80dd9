import ControlStore.Proofs.Source.Moves

/-!
# Readers that texts lead to

A reader can go on with another text, also behind one that was refused: the program then holds what
was defined before the error. But the token that is refused adds nothing. Whatever a token does, it
can only fail before it changes anything (`Reader.atomic_take`), so that a refused token leaves the
program as it was (`Reader.program_of_fails_step`).

`Reader.Reached` lists the readers that texts lead to, and `Reader.Reached.invariant` packs the
induction for all that their programs have in common: it holds at the start, and every move keeps it.
-/

namespace ControlStore

namespace Reader

open Stage

variable {token : Token} {context : Context}

/-! ## Tokens that are refused -/

theorem readOnly_failAt {α : Type} (token : Token) (cause : ParseCause) :
    (failAt token cause : Reading α).ReadOnly :=
  readOnly_fail _

theorem readOnly_unexpected {α : Type} (context : Context) (token : Token) :
    (unexpected context token : Reading α).ReadOnly :=
  readOnly_fail _

theorem total_edit (f : Program → Program) : (edit f).Total := total_modify _

/-- Checking a name changes nothing. -/
theorem readOnly_checkName (name : String) : (checkName token name).ReadOnly := by
  unfold checkName
  split
  · exact readOnly_failAt _ _
  · exact readOnly_pure _

/-- A definition is refused for its name, before anything is bound. -/
theorem atomic_define (name : String) (symbol : Symbol) : (define token name symbol).Atomic := by
  refine (readOnly_checkName name).bind_atomic fun _ => readOnly_get.bind_atomic fun reader => ?_
  split
  · exact ((total_note _).bind fun _ => total_edit _).atomic
  · exact (total_edit _).atomic

/-- Reading a number off a token changes nothing. -/
theorem readOnly_natural : (natural context token).ReadOnly := by
  unfold natural
  split
  · split
    · exact readOnly_failAt _ _
    · exact readOnly_pure _
  · exact readOnly_unexpected _ _

/-- Making a setting never fails. -/
theorem total_configure (setting : Setting) (value : Nat) : (configure setting value).Total := by
  cases setting with
  | bankMask => exact (total_edit _).bind fun _ => (total_modify _).bind fun _ => total_note _
  | wordWidth => exact (total_edit _).bind fun _ => total_note _
  | length => exact (total_edit _).bind fun _ => total_note _
  | opcodeWidth => exact (total_edit _).bind fun _ => total_note _

/-- A control is refused for its name, before it is added. -/
theorem atomic_addControl (control : Control) : (addControl token control).Atomic := by
  refine readOnly_get.bind_atomic fun reader => ?_
  split
  · exact (readOnly_failAt _ _).bind_atomic fun _ => ((total_note _).bind fun _ => total_edit _).atomic
  · exact ((total_note _).bind fun _ => total_edit _).atomic

/-- Reading parameters changes nothing. -/
theorem readOnly_parameters (values : List Value) : (parameters token values).ReadOnly := by
  induction values with
  | nil => exact readOnly_pure _
  | cons value values ih =>
    cases value with
    | integer n => exact readOnly_failAt _ _
    | symbol name => exact ih.bind fun _ => readOnly_pure _

/-- Reading the head of a sequence changes nothing, as the draft is not in the program yet. -/
theorem readOnly_sequenceHead (draft : Draft) : (sequenceHead draft token).ReadOnly := by
  unfold sequenceHead
  split
  · split
    · exact (readOnly_parameters _).bind fun _ => readOnly_pure _
    · exact readOnly_failAt _ _
  · exact readOnly_pure _
  · exact readOnly_unexpected _ _

/-- Placing a label changes nothing, as the draft is not in the program yet. -/
theorem readOnly_placeLabel (draft : Draft) (label : String) :
    (placeLabel draft token label).ReadOnly := by
  refine (readOnly_checkName label).bind fun _ => ?_
  split
  · exact (readOnly_failAt _ _).bind fun _ => readOnly_pure _
  · exact readOnly_pure _

/-- A statement that is refused leaves the program as it was. -/
theorem atomic_statement (draft : Draft) : (statement draft token).Atomic := by
  unfold statement
  split
  · exact (atomic_define _ _).bind_total fun _ => (total_note _).bind fun _ => total_pure _
  · split
    · exact (readOnly_placeLabel _ _).atomic
    · exact (total_pure _).atomic
  · exact (readOnly_unexpected _ _).atomic

/-- The end of an assertion is never refused. -/
theorem total_finishAssertion (assertion : Assertion) (purpose : Purpose) :
    (finishAssertion assertion purpose).Total := by
  cases purpose with
  | step draft => exact total_pure _
  | filling =>
    refine total_get.bind fun reader => ?_
    dsimp only
    split
    · exact (total_note _).bind fun _ => (total_edit _).bind fun _ => total_pure _
    · exact (total_edit _).bind fun _ => total_pure _

/-- Adding a signal changes nothing, as the assertion is not in the program yet. -/
theorem readOnly_addSignal (assertion : Assertion) (name : String) (value : Value) :
    (addSignal assertion token name value).ReadOnly := by
  refine readOnly_get.bind fun reader => ?_
  split
  · exact readOnly_ofReport _
  · exact readOnly_failAt _ _

/-- A signal that is refused leaves the program as it was. -/
theorem atomic_signals (purpose : Purpose) (assertion : Assertion) :
    (signals purpose assertion token).Atomic := by
  unfold signals
  split
  · exact (total_finishAssertion _ _).atomic
  · exact (total_pure _).atomic
  · exact (readOnly_addSignal _ _ _).bind_atomic fun _ => (total_pure _).atomic
  · exact (readOnly_unexpected _ _).atomic

/-- A binding is refused for its key, before anything is bound. -/
theorem atomic_bindEntrypoint (key : Value) (symbol : String) :
    (bindEntrypoint token key symbol).Atomic := by
  unfold bindEntrypoint
  split
  · split
    · exact (total_edit _).atomic
    · split
      · exact (total_edit _).atomic
      · exact (readOnly_failAt _ _).atomic
  · split
    · refine Total.atomic (total_get.bind fun reader => (total_edit _).bind fun _ => ?_)
      split
      · exact total_note _
      · exact total_pure _
    · exact (readOnly_failAt _ _).atomic

/-- A binding that is refused leaves the program as it was. -/
theorem atomic_entrypoint : (entrypoint token).Atomic := by
  unfold entrypoint
  split
  · exact (total_pure _).atomic
  · exact (total_pure _).atomic
  · exact (atomic_bindEntrypoint _ _).bind_total fun _ => total_pure _
  · exact (readOnly_failAt _ _).atomic
  · exact (readOnly_unexpected _ _).atomic

/-- Opening a block changes nothing. -/
theorem readOnly_openBlock (next : Context) : (openBlock context next token).ReadOnly := by
  unfold openBlock
  split
  · exact readOnly_pure _
  · exact readOnly_unexpected _ _

/-- Taking a word changes nothing. -/
theorem readOnly_word (next : String → Context) : (word context next token).ReadOnly := by
  unfold word
  split
  · exact readOnly_pure _
  · exact readOnly_unexpected _ _

/-- Taking the name of a setting changes nothing. -/
theorem readOnly_setting : (setting token).ReadOnly := by
  unfold setting
  split
  · exact readOnly_pure _
  · split
    · exact readOnly_pure _
    · exact readOnly_unexpected _ _
  · exact readOnly_unexpected _ _

/-- A token fails before it changes anything. -/
theorem atomic_take (context : Context) (token : Token) : (take context token).Atomic := by
  cases context with
  | definition =>
    unfold take
    dsimp only
    split
    · split
      · exact (total_pure _).atomic
      · exact (readOnly_unexpected _ _).atomic
    · exact (readOnly_unexpected _ _).atomic
  | settingsOpen => exact (readOnly_openBlock _).atomic
  | settings => exact readOnly_setting.atomic
  | settingValue setting =>
    refine readOnly_natural.bind_atomic fun value => Total.atomic ?_
    exact (total_configure setting value).bind fun _ => total_pure _
  | constantName => exact (readOnly_word _).atomic
  | constantValue name =>
    unfold take
    dsimp only
    split
    · exact (atomic_define _ _).bind_total fun _ => total_pure _
    · exact (readOnly_unexpected _ _).atomic
  | controlName => exact (readOnly_word _).atomic
  | controlBank name => exact (readOnly_natural.bind fun _ => readOnly_pure _).atomic
  | controlMask name bank =>
    unfold take
    dsimp only
    split
    · exact (atomic_addControl _).bind_total fun _ => total_pure _
    · exact (readOnly_unexpected _ _).atomic
  | sequenceName isMacro => exact (readOnly_word _).atomic
  | sequenceHead draft => exact (readOnly_sequenceHead draft).atomic
  | sequenceOpen draft => exact (readOnly_openBlock _).atomic
  | statement draft => exact atomic_statement draft
  | statementWord draft line word => exact (readOnly_openBlock _).atomic
  | fillingOpen => exact (readOnly_openBlock _).atomic
  | signals purpose assertion => exact atomic_signals purpose assertion
  | entrypointsOpen => exact (readOnly_openBlock _).atomic
  | entrypoints => exact atomic_entrypoint

/-- A token that is refused leaves the program as it was. -/
theorem program_of_fails_step {reader : Reader} {cause : ParseError}
    (h : (step context token).Fails reader cause) :
    ((step context token).run reader).state.program = reader.program := by
  -- the line is moved before the token is taken, and is no part of the program
  have htake : ∀ {context : Context} {line : Nat},
      (modify (fun reader : Reader => { reader with line }) >>= fun _ =>
        take context token).Fails reader cause →
      ((modify (fun reader : Reader => { reader with line }) >>= fun _ =>
        take context token).run reader).state.program = reader.program := by
    intro context line hfails
    rcases fails_bind.1 hfails with hmodify | ⟨_, middle, hmodify, hfails⟩
    · exact absurd hmodify fails_modify
    · rw [run_bind_ok hmodify.1, hmodify.2]
      rw [atomic_take context token middle cause hfails, ← yields_modify.1 hmodify]
  unfold step at h ⊢
  split at h
  · exact absurd h (((total_modify _).bind fun _ => total_pure _) reader cause)
  · split at h
    · next hassert =>
      rw [if_pos hassert]
      exact htake h
    · next hassert =>
      rw [if_neg hassert]
      rfl
  · exact htake h

/-! ## Reached readers -/

/-- The readers that reading texts leads to, one text after the other, and each of them read or
refused. -/
inductive Reached : Reader → Prop
  | new : Reached {}
  | read {reader : Reader} (h : Reached reader) (input : Except ReadFailure String) :
      Reached ((read input).run reader).state

/-- Ending the text changes nothing. -/
theorem readOnly_finish (context : Context) : (finish context).ReadOnly := by
  unfold finish
  split
  · exact readOnly_pure _
  · split
    · exact readOnly_get.bind fun reader => readOnly_fail _
    · exact readOnly_fail _
  · exact readOnly_get.bind fun reader => readOnly_fail _

/-- The check changes nothing. -/
theorem readOnly_check : check.ReadOnly := by
  refine readOnly_get.bind fun reader => ?_
  split
  · exact (readOnly_fail _).bind fun _ => readOnly_ofReport _
  · exact readOnly_ofReport _

/-- Reading a text leaves what its tokens lead to, up to the first one that is refused. -/
theorem state_readText (text : String) (reader : Reader) :
    ((readText text).run reader).state =
      match tokenize text with
      | .ok tokens => ((tokens.foldlM step .definition).run reader).state
      | .error _ => reader := by
  unfold readText
  cases htokens : tokenize text with
  | error e => rfl
  | ok tokens =>
    show ((definitions tokens >>= fun _ => check).run reader).state = _
    rw [state_bind_of_readOnly fun _ => readOnly_check, definitions,
      state_bind_of_readOnly readOnly_finish]

/-- What every move keeps holds behind a list of tokens, also if one of them is refused. -/
theorem kept_of_steps {inv : Context → Prop} {kept : Program → Prop} {tokens : List Token}
    (hmove : ∀ token ∈ tokens, ∀ context reader next final, inv context → kept reader.program →
      Move token reader context next final → inv next ∧ kept final.program)
    {reader : Reader} (hcontext : inv context) (hreader : kept reader.program) :
    kept ((tokens.foldlM step context).run reader).state.program := by
  induction tokens generalizing context reader with
  | nil => exact hreader
  | cons token tokens ih =>
    rw [List.foldlM_cons]
    -- a step that succeeds is a move, and one that fails leaves the program
    rcases yields_or_fails (step context token) reader with ⟨next, middle, hstep⟩ | ⟨cause, hfails⟩
    · obtain ⟨hnext, hmiddle⟩ :=
        hmove token (List.mem_cons_self ..) _ _ _ _ hcontext hreader (move_of_step hstep)
      rw [run_bind_ok hstep.1, hstep.2]
      exact ih (fun other hother => hmove other (List.mem_cons_of_mem _ hother)) hnext hmiddle
    · rw [run_bind_error hfails, program_of_fails_step hfails]
      exact hreader

/-- What holds of a new program and is kept by every move holds of all programs that texts lead
to. -/
theorem Reached.invariant {inv : Context → Prop} {kept : Program → Prop}
    (hmove : ∀ token context reader next final, token.kind.Spelled → inv context →
      kept reader.program → Move token reader context next final → inv next ∧ kept final.program)
    (hcontext : inv .definition) (hnew : kept {}) {reader : Reader} (h : reader.Reached) :
    kept reader.program := by
  induction h with
  | new => exact hnew
  | @read reader _ input ih =>
    cases input with
    | error failure => exact ih
    | ok text =>
      show kept ((readText text).run reader).state.program
      -- the program after a reading, failed or not, is that behind its last step
      rw [state_readText]
      split
      · next tokens htokens =>
        refine kept_of_steps (fun token htoken context reader next final => ?_) hcontext ih
        exact hmove token context reader next final (tokenize_spelled htokens token htoken)
      · exact ih

end Reader

end ControlStore
