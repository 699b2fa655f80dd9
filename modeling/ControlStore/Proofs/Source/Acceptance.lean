import ControlStore.Proofs.Source.Definitions
import ControlStore.Proofs.Source.Run

/-!
# The texts that are accepted

A reader accepts exactly the grammar. What `Definition.Written` spells it reads, if the conditions
of `Definition.Allowed` hold at that point (`Reader.run_definition`), and whatever it reads is
spelled like that (`Reader.of_run_definition`). Both directions go block by block: the contexts
inside a block are left at its closing brace, and a definition never looks at the token behind its
last one. `Reader.run_definitions_iff` is the result for a row of definitions and any reader, and
`Reader.readText_eq_ok_iff` the one for a text.
-/

namespace ControlStore

namespace Reader

variable {tokens : List Token} {reader final : Reader}

/-! ## Readers behind a definition -/

/-- The reader behind a definition. -/
def after (reader : Reader) (d : Definition) : Reader :=
  { reader with
    program := reader.program.define d
    hasBankMask := reader.hasBankMask || d.setsBankMask }

/-- The reader behind a setting and its value. -/
def set (reader : Reader) (setting : Setting × Nat) : Reader :=
  { reader with
    program := reader.program.configure setting.2 setting.1
    hasBankMask := reader.hasBankMask || setting.1 = .bankMask }

/-- Making the settings one by one is reading the configuration. -/
theorem foldl_set (settings : List (Setting × Nat)) :
    settings.foldl set reader = reader.after (.configuration settings) := by
  induction settings generalizing reader with
  | nil => simp [after, Program.define, Definition.setsBankMask]
  | cons setting settings ih =>
    rw [List.foldl_cons, ih]
    simp [after, set, Program.define, Definition.setsBankMask, Bool.or_assoc]

/-- Only a configuration sets the bank mask. -/
theorem after_eq {d : Definition} {program : Program} (hmask : d.setsBankMask = false)
    (hprogram : reader.program.define d = program) :
    reader.after d = { reader with program } := by
  rw [after, hmask, hprogram, Bool.or_false]

theorem controls_configure (program : Program) (value : Nat) (setting : Setting) :
    (program.configure value setting).controls = program.controls := by
  cases setting <;> rfl

theorem controls_bindTarget (program : Program) (binding : Target × String) :
    (program.bindTarget binding).controls = program.controls := by
  obtain ⟨target, symbol⟩ := binding
  cases target <;> rfl

/-- A definition declares what it says. -/
theorem controls_define (program : Program) (d : Definition) :
    (program.define d).controls = d.declare program.controls := by
  cases d with
  | configuration settings =>
    change (settings.foldl _ program).controls = program.controls
    induction settings generalizing program with
    | nil => rfl
    | cons setting settings ih => rw [List.foldl_cons, ih, controls_configure]
  | entrypoints bindings =>
    change (bindings.foldl _ program).controls = program.controls
    induction bindings generalizing program with
    | nil => rfl
    | cons binding bindings ih => rw [List.foldl_cons, ih, controls_bindTarget]
  | _ => rfl

/-- In a block of entrypoints, a token that completes anything is an entrypoint. -/
theorem completes_entrypoints_iff {token : Token} {program result : Program} {next : Context} :
    Completes token program .entrypoints next result ↔ next = .entrypoints ∧
      ∃ binding, EntrypointWritten token.kind binding ∧ result = program.bindTarget binding := by
  constructor
  · intro h
    cases h with
    | @fetch name symbol hkind hname =>
      exact ⟨rfl, (.fetch, symbol), hkind ▸ .fetch symbol hname, rfl⟩
    | @interrupt name symbol hkind hname =>
      exact ⟨rfl, (.interrupt, symbol), hkind ▸ .interrupt symbol hname, rfl⟩
    | @opcode opcode symbol hkind =>
      exact ⟨rfl, (.opcode opcode, symbol), hkind ▸ .opcode opcode symbol, rfl⟩
  · rintro ⟨rfl, binding, hwritten, rfl⟩
    -- what is written says what kind the token has
    generalize hkind : token.kind = kind at hwritten
    cases hwritten with
    | fetch symbol hname => exact .fetch hkind hname
    | interrupt symbol hname => exact .interrupt hkind hname
    | opcode opcode symbol => exact .opcode hkind

/-! ## What is written is read -/

namespace Run

theorem refl (context : Context) (reader : Reader) : Run [] context reader context reader :=
  .done reader.line

/-- Two runs with one token between them are one run. -/
theorem append_closing {token : Token} {more : List Token} {context next last : Context}
    {middle : Reader} (h : Run tokens context reader next middle)
    (hmore : Run (token :: more) next middle last final) :
    Run (tokens ++ [token] ++ more) context reader last final := by
  rw [← List.append_cons]
  exact h.append hmore

/-- A keyword starts its definition. -/
theorem keyword {token : Token} {text : String} {last : Context} (next : Context)
    (h : token.IsKeyword text)
    (hnext : next.keyword? = some text) (hrun : Run tokens next reader last final) :
    Run (token :: tokens) .definition reader last final := by
  obtain ⟨word, hkind, rfl⟩ := h
  exact .pass (.keyword hkind (Context.ofKeyword?_eq_some_iff.2 hnext)) hrun

end Run

/-- Settings in a row are made one after the other. -/
theorem run_settings {settings : List (Setting × Nat)}
    (h : InRow Setting.Written tokens settings) :
    Run tokens .settings reader .settings (settings.foldl set reader) := by
  induction h generalizing reader with
  | nil => exact .refl _ _
  | cons hfirst _ ih =>
    obtain ⟨⟨word, hkind, hword⟩, hvalue⟩ := hfirst
    exact .pass (.setting hkind (Setting.ofWord?_eq_some_iff.2 hword)) (.configure hvalue ih)

/-- Behind the signals `written`, more signals are read if all together are allowed. -/
theorem run_signals {purpose : Purpose} {line : Nat} {written more : List (String × Value)}
    (h : Listed SignalWritten tokens more)
    (hall : SignalsAllowed reader.program.controls (written ++ more)) :
    Run tokens (.signals purpose (.ofSignals reader.program.controls line written)) reader
      (.signals purpose (.ofSignals reader.program.controls line (written ++ more))) reader := by
  induction h generalizing written with
  | nil =>
    rw [List.append_nil]
    exact .refl _ _
  | comma hkind _ ih => exact .pass (.comma hkind) (ih hall)
  | @cons token tokens signal more hfirst _ ih =>
    rw [List.append_cons] at hall ⊢
    -- the signal can be added since it may stand behind those before it
    obtain ⟨control, hcontrol, hadd⟩ :=
      (joins_ofSignals_iff hall.of_append.of_append).2 ⟨hall.of_append, rfl⟩
    exact .complete (.signal hfirst hcontrol hadd) (ih hall)

/-- The signals of an assertion are added one after the other. -/
theorem run_signals_new (purpose : Purpose) (line : Nat) {written : List (String × Value)}
    (h : Listed SignalWritten tokens written)
    (hall : SignalsAllowed reader.program.controls written) :
    Run tokens (.signals purpose { line }) reader
      (.signals purpose (.ofSignals reader.program.controls line written)) reader :=
  @run_signals tokens reader purpose line [] written h hall

/-- Bindings in a list are made one after the other. -/
theorem run_bindings {bindings : List (Target × String)}
    (h : Listed EntrypointWritten tokens bindings) :
    Run tokens .entrypoints reader .entrypoints
      { reader with program := bindings.foldl Program.bindTarget reader.program } := by
  induction h generalizing reader with
  | nil => exact .refl _ _
  | comma hkind _ ih => exact .pass (.entrypointsComma hkind) ih
  | cons hfirst _ ih => exact .complete (completes_entrypoints_iff.2 ⟨rfl, _, hfirst, rfl⟩) ih

section Bodies

variable {isMacro : Bool} {name : String} {parameters : List String} {body : List Statement}

/-- Behind the statements `body`, more statements are read if all together are allowed. -/
theorem run_statements {more : List Statement} (h : InRow Statement.Written tokens more)
    (hall : BodyAllowed reader.program.controls (body ++ more)) :
    Run tokens (.statement (.ofBody reader.program.controls isMacro name parameters body)) reader
      (.statement (.ofBody reader.program.controls isMacro name parameters (body ++ more)))
      reader := by
  induction h generalizing body with
  | nil =>
    rw [List.append_nil]
    exact .refl _ _
  | @cons tokens rest s more hfirst _ ih =>
    rw [List.append_cons] at hall ⊢
    have hbody := hall.of_append.of_append
    have hrest := ih hall
    rw [Draft.ofBody_concat] at hrest
    -- a statement is read token by token, and leaves the draft with one statement more
    cases hfirst with
    | label hkind hword =>
      obtain ⟨hdotless, hnew⟩ := (bodyAllowed_concat_label_iff hbody).1 hall.of_append
      exact .pass (.label hkind (labelName?_eq_some_iff.2 hword) hdotless
        (Draft.contains_ofBody.2 hnew)) hrest
    | reference hkind hword hlist =>
      refine .pass (.statement hkind (labelName?_eq_none_iff.2 hword)) ?_
      exact .pass (.reference hlist) hrest
    | assertion hkind hword hblock =>
      have hwritten := (bodyAllowed_concat_assertion_iff hbody).1 hall.of_append
      obtain ⟨hopen, hsignals, hclose⟩ := hblock
      refine .pass (.statement hkind (labelName?_of_isAssert hword)) ?_
      refine .pass (.assertion hword hopen) ?_
      refine (run_signals_new _ _ hsignals hwritten).append_closing ?_
      exact .pass (.step hclose) hrest

/-- A body in its block is read up to its end, where the sequence is bound. -/
theorem run_body {block : List Token} {line : Nat}
    (hblock : Braced (InRow Statement.Written) block line body) (hname : Dotless name)
    (hbody : BodyAllowed reader.program.controls body) {context : Context}
    (hopens : ∀ token : Token, token.kind = .openBlock → Context.Passes token context
      (.statement (.ofBody reader.program.controls isMacro name parameters []))) :
    Run block context reader .definition
      { reader with
        program := reader.program.bindDraft
          (.ofBody reader.program.controls isMacro name parameters body) } := by
  obtain ⟨hopen, hstatements, hclose⟩ := hblock
  refine .pass (hopens _ hopen) ((run_statements hstatements hbody).append ?_)
  refine .complete (.sequence hclose ?_) (.refl _ _)
  rwa [Draft.name_ofBody]

end Bodies

/-- A definition that is spelled and allowed is read from its first to its last token. -/
theorem run_definition {d : Definition} (h : d.Written tokens)
    (hallowed : d.Allowed reader.program.controls) :
    Run tokens .definition reader .definition (reader.after d) := by
  cases h with
  | configuration hhead hblock =>
    obtain ⟨hopen, hsettings, hclose⟩ := hblock
    refine .keyword .settingsOpen hhead rfl ?_
    refine .pass (.settingsOpen hopen) ((run_settings hsettings).append ?_)
    rw [foldl_set]
    exact .pass (.settingsClose hclose) (.refl _ _)
  | constant hhead hname hvalue =>
    refine .keyword .constantName hhead rfl ?_
    refine .pass (.constantName hname) (.complete (.constant hvalue hallowed) ?_)
    rw [after_eq rfl rfl]
    exact .refl _ _
  | control hhead hname hbank hmask =>
    refine .keyword .controlName hhead rfl ?_
    refine .pass (.controlName hname) (.pass (.controlBank hbank) ?_)
    refine .complete (.control (maskOf?_eq_some_iff.2 hmask) hallowed) ?_
    rw [after_eq rfl rfl]
    exact .refl _ _
  | sequence hhead hname hblock =>
    refine .keyword (.sequenceName false) hhead rfl ?_
    refine .pass (.sequenceName hname) ?_
    rw [after_eq rfl rfl]
    exact run_body hblock hallowed.1 hallowed.2 fun _ hopen => .sequenceHead hopen
  | parametrised hhead hname hparameters hblock =>
    refine .keyword (.sequenceName true) hhead rfl ?_
    refine .pass (.sequenceName hname) ?_
    rw [after_eq rfl rfl]
    cases hparameters with
    | none => exact run_body hblock hallowed.1 hallowed.2 fun _ hopen => .sequenceHead hopen
    | list hkind =>
      refine .pass (.parameters hkind rfl) ?_
      exact run_body hblock hallowed.1 hallowed.2 fun _ hopen => .sequenceOpen hopen
  | filling hhead hblock =>
    obtain ⟨hopen, hsignals, hclose⟩ := hblock
    refine .keyword .fillingOpen hhead rfl ?_
    refine .pass (.filling hopen) ((run_signals_new _ _ hsignals hallowed).append ?_)
    rw [after_eq rfl rfl]
    exact .complete (.filling hclose) (.refl _ _)
  | entrypoints hhead hblock =>
    obtain ⟨hopen, hbindings, hclose⟩ := hblock
    refine .keyword .entrypointsOpen hhead rfl ?_
    refine .pass (.entrypointsOpen hopen) ((run_bindings hbindings).append ?_)
    rw [after_eq rfl rfl]
    exact .pass (.entrypointsClose hclose) (.refl _ _)

/-- Definitions that are spelled and allowed are read one after the other. -/
theorem run_definitions {definitions : List Definition}
    (h : InRow Definition.Written tokens definitions)
    (hallowed : DefinitionsAllowed reader.program.controls definitions) :
    Run tokens .definition reader .definition (definitions.foldl after reader) := by
  induction h generalizing reader with
  | nil => exact .refl _ _
  | cons hfirst _ ih =>
    refine (run_definition hfirst hallowed.1).append (ih ?_)
    rw [after, controls_define]
    exact hallowed.2

/-! ## What is read is written -/

/-- At most places a token can only lead on. -/
def onlyPasses : Context → Bool
  | .settingsOpen | .constantName | .controlName | .controlBank _ | .sequenceName _
  | .sequenceHead _ | .sequenceOpen _ | .statementWord _ _ _ | .fillingOpen
  | .entrypointsOpen => true
  | _ => false

/-- Where a token can only be passed, the next one is, and the run goes on. -/
theorem Run.of_onlyPasses {context : Context} (hcontext : onlyPasses context = true)
    (h : Run tokens context reader .definition final) :
    ∃ token more next, tokens = token :: more ∧ Context.Passes token context next ∧
      Run more next reader .definition final := by
  cases tokens with
  | nil =>
    cases h
    cases hcontext
  | cons token tokens =>
    rcases h.of_cons with ⟨next, hpass, hrun⟩ | ⟨_, _, rfl, -⟩ | ⟨_, _, hcompletes, -⟩
    · exact ⟨token, tokens, next, rfl, hpass, hrun⟩
    · cases hcontext
    · cases hcompletes <;> cases hcontext

/-- The last token of a constant or of a control completes it. -/
def onlyCompletes : Context → Bool
  | .constantValue _ | .controlMask _ _ => true
  | _ => false

/-- Where a token can only complete something, the next one does, and the run goes on. -/
theorem Run.of_onlyCompletes {context : Context} (hcontext : onlyCompletes context = true)
    (h : Run tokens context reader .definition final) :
    ∃ token more next program, tokens = token :: more ∧
      Completes token reader.program context next program ∧
      Run more next { reader with program } .definition final := by
  cases tokens with
  | nil =>
    cases h
    cases hcontext
  | cons token tokens =>
    rcases h.of_cons with ⟨_, hpass, -⟩ | ⟨_, _, rfl, -⟩ | ⟨next, program, hcompletes, hrun⟩
    · cases hpass <;> cases hcontext
    · cases hcontext
    · exact ⟨token, tokens, next, program, rfl, hcompletes, hrun⟩

/-- A block of settings ends at its closing brace. -/
theorem of_run_settings {tokens : List Token} {reader : Reader}
    (h : Run tokens .settings reader .definition final) :
    ∃ inner closing more settings, tokens = inner ++ closing :: more ∧
      InRow Setting.Written inner settings ∧ closing.kind = .closeBlock ∧
      Run more .definition (settings.foldl set reader) .definition final := by
  cases tokens with
  | nil => cases h
  | cons token tokens =>
    rcases h.of_cons with ⟨next, hpass, hrun⟩ | ⟨_, _, hcontext, -⟩ | ⟨_, _, hcompletes, -⟩
    · cases hpass with
      | settingsClose hkind => exact ⟨[], token, tokens, [], rfl, .nil, hkind, hrun⟩
      | @setting word setting hkind hsetting =>
        cases tokens with
        | nil => cases hrun
        | cons number tokens =>
          rcases hrun.of_cons with ⟨_, hpass, -⟩ | ⟨_, value, heq, hvalue, hrun⟩ | ⟨_, _, hdone, -⟩
          · cases hpass
          · cases heq
            obtain ⟨inner, closing, more, settings, rfl, hinner, hclose, hmore⟩ :=
              of_run_settings hrun
            refine ⟨token :: number :: inner, closing, more, (setting, value) :: settings, rfl, ?_,
              hclose, hmore⟩
            have hname : token.IsKeyword setting.spelling :=
              ⟨word, hkind, Setting.ofWord?_eq_some_iff.1 hsetting⟩
            exact .cons (.mk hname hvalue) hinner
          · cases hdone
    · cases hcontext
    · cases hcompletes
termination_by tokens.length

/-- Behind the signals `written`, a block of signals goes on to its closing brace. -/
theorem of_run_signals {purpose : Purpose} {line : Nat} {written : List (String × Value)}
    (hwritten : SignalsAllowed reader.program.controls written)
    (h : Run tokens (.signals purpose (.ofSignals reader.program.controls line written)) reader
      .definition final) :
    ∃ inner closing more added, tokens = inner ++ closing :: more ∧
      Listed SignalWritten inner added ∧ closing.kind = .closeBlock ∧
      SignalsAllowed reader.program.controls (written ++ added) ∧
      Run (closing :: more)
        (.signals purpose (.ofSignals reader.program.controls line (written ++ added))) reader
        .definition final := by
  induction tokens generalizing written with
  | nil => cases h
  | cons token tokens ih =>
    -- the block ends here, or the token is a comma or a signal
    by_cases hclose : token.kind = .closeBlock
    · refine ⟨[], token, tokens, [], rfl, .nil, hclose, ?_, ?_⟩
      · rwa [List.append_nil]
      · rwa [List.append_nil]
    rcases h.of_cons with ⟨next, hpass, hrun⟩ | ⟨_, _, hcontext, -⟩ | ⟨_, _, hcompletes, hrun⟩
    · cases hpass with
      | step hkind => exact absurd hkind hclose
      | comma hkind =>
        obtain ⟨inner, closing, more, added, rfl, hinner, hrest⟩ := ih hwritten hrun
        exact ⟨token :: inner, closing, more, added, rfl, .comma hkind hinner, hrest⟩
    · cases hcontext
    · cases hcompletes with
      | filling hkind => exact absurd hkind hclose
      | @signal _ _ _ name value control hkind hcontrol hadd =>
        obtain ⟨hall, rfl⟩ := (joins_ofSignals_iff hwritten).1 ⟨control, hcontrol, hadd⟩
        obtain ⟨inner, closing, more, added, rfl, hinner, hkind', hadded, hrest⟩ := ih hall hrun
        rw [← List.append_cons] at hadded hrest
        exact ⟨token :: inner, closing, more, (name, value) :: added, rfl, .cons hkind hinner,
          hkind', hadded, hrest⟩

/-- A block of entrypoints ends at its closing brace. -/
theorem of_run_bindings (h : Run tokens .entrypoints reader .definition final) :
    ∃ inner closing more bindings, tokens = inner ++ closing :: more ∧
      Listed EntrypointWritten inner bindings ∧ closing.kind = .closeBlock ∧
      Run more .definition
        { reader with program := bindings.foldl Program.bindTarget reader.program }
        .definition final := by
  induction tokens generalizing reader with
  | nil => cases h
  | cons token tokens ih =>
    rcases h.of_cons with ⟨next, hpass, hrun⟩ | ⟨_, _, hcontext, -⟩ | ⟨_, _, hcompletes, hrun⟩
    · cases hpass with
      | entrypointsClose hkind => exact ⟨[], token, tokens, [], rfl, .nil, hkind, hrun⟩
      | entrypointsComma hkind =>
        obtain ⟨inner, closing, more, bindings, rfl, hinner, hrest⟩ := ih hrun
        exact ⟨token :: inner, closing, more, bindings, rfl, .comma hkind hinner, hrest⟩
    · cases hcontext
    · obtain ⟨rfl, binding, hwritten, rfl⟩ := completes_entrypoints_iff.1 hcompletes
      obtain ⟨inner, closing, more, bindings, rfl, hinner, hclose, hmore⟩ := ih hrun
      exact ⟨token :: inner, closing, more, binding :: bindings, rfl, .cons hwritten hinner, hclose,
        hmore⟩

section Bodies

variable {isMacro : Bool} {name : String} {parameters : List String} {body : List Statement}

/-- Behind the signals of an assertion, the assertion becomes a step. -/
theorem Run.of_step {token : Token} {draft : Draft} {assertion : Assertion}
    (hclose : token.kind = .closeBlock)
    (h : Run (token :: tokens) (.signals (.step draft) assertion) reader .definition final) :
    Run tokens (.statement (draft.addStep (.assertion assertion))) reader .definition final := by
  rcases h.of_cons with ⟨_, hpass, hrun⟩ | ⟨_, _, hcontext, -⟩ | ⟨_, _, hcompletes, -⟩
  · cases hpass with
    | comma hkind => cases hkind.symm.trans hclose
    | step hkind => exact hrun
  · cases hcontext
  · cases hcompletes with
    | signal hkind => cases hkind.symm.trans hclose

/-- Behind the signals for unused addresses, the filling is complete. -/
theorem Run.of_filling {token : Token} {assertion : Assertion} (hclose : token.kind = .closeBlock)
    (h : Run (token :: tokens) (.signals .filling assertion) reader .definition final) :
    Run tokens .definition
      { reader with program := { reader.program with emptyAssertion := some assertion } }
      .definition final := by
  rcases h.of_cons with ⟨_, hpass, -⟩ | ⟨_, _, hcontext, -⟩ | ⟨_, _, hcompletes, hrun⟩
  · cases hpass with
    | comma hkind => cases hkind.symm.trans hclose
  · cases hcontext
  · cases hcompletes with
    | filling hkind => exact hrun
    | signal hkind => cases hkind.symm.trans hclose

/-- A word that marks no label is followed by what completes a statement. -/
theorem of_run_statementWord {token : Token} {word : String}
    (hbody : BodyAllowed reader.program.controls body) (hkind : token.kind = .word word)
    (hlabel : labelName? word = none)
    (h : Run tokens (.statementWord (.ofBody reader.program.controls isMacro name parameters body)
      token.line word) reader .definition final) :
    ∃ front back s, tokens = front ++ back ∧ Statement.Written (token :: front) s ∧
      BodyAllowed reader.program.controls (body ++ [s]) ∧
      Run back (.statement (.ofBody reader.program.controls isMacro name parameters (body ++ [s])))
        reader .definition final := by
  -- the token behind the word tells a reference from an assertion
  obtain ⟨second, tokens, _, rfl, hpass, hrun⟩ := h.of_onlyPasses rfl
  cases hpass with
  | @reference _ _ _ arguments hlist =>
    refine ⟨[second], tokens, .reference token.line word arguments, rfl,
      .reference hkind (labelName?_eq_none_iff.1 hlabel) hlist,
      bodyAllowed_concat_reference hbody _ _ _, ?_⟩
    rw [Draft.ofBody_concat]
    exact hrun
  | assertion hword hopen =>
    obtain ⟨inner, closing, more, written, rfl, hinner, hclose, hwritten, hrest⟩ :=
      of_run_signals signalsAllowed_nil hrun
    refine ⟨second :: (inner ++ [closing]), more, .assertion second.line written, by simp,
      .assertion hkind hword (.mk hopen hinner hclose),
      (bodyAllowed_concat_assertion_iff hbody).2 hwritten, ?_⟩
    rw [Draft.ofBody_concat]
    exact hrest.of_step hclose

/-- Inside a body stands a statement, or the body ends. -/
theorem of_run_statement {token : Token} (hbody : BodyAllowed reader.program.controls body)
    (hopen : token.kind ≠ .closeBlock)
    (h : Run (token :: tokens)
      (.statement (.ofBody reader.program.controls isMacro name parameters body)) reader
      .definition final) :
    ∃ front back s, tokens = front ++ back ∧ Statement.Written (token :: front) s ∧
      BodyAllowed reader.program.controls (body ++ [s]) ∧
      Run back (.statement (.ofBody reader.program.controls isMacro name parameters (body ++ [s])))
        reader .definition final := by
  rcases h.of_cons with ⟨_, hpass, hrun⟩ | ⟨_, _, hcontext, -⟩ | ⟨_, _, hcompletes, -⟩
  · cases hpass with
    | @label _ word label hkind hlabel hdotless hnew =>
      refine ⟨[], tokens, .label label, rfl, .label hkind (labelName?_eq_some_iff.1 hlabel),
        (bodyAllowed_concat_label_iff hbody).2 ⟨hdotless, Draft.contains_ofBody.1 hnew⟩, ?_⟩
      rw [Draft.ofBody_concat]
      exact hrun
    | statement hkind hlabel => exact of_run_statementWord hbody hkind hlabel hrun
  · cases hcontext
  · cases hcompletes with
    | sequence hkind => exact absurd hkind hopen

/-- Behind the statements `body`, a body goes on to its closing brace. -/
theorem of_run_statements (hbody : BodyAllowed reader.program.controls body)
    (h : Run tokens (.statement (.ofBody reader.program.controls isMacro name parameters body))
      reader .definition final) :
    ∃ inner closing more added, tokens = inner ++ closing :: more ∧
      InRow Statement.Written inner added ∧ closing.kind = .closeBlock ∧ Dotless name ∧
      BodyAllowed reader.program.controls (body ++ added) ∧
      Run more .definition
        { reader with
          program := reader.program.bindDraft
            (.ofBody reader.program.controls isMacro name parameters (body ++ added)) }
        .definition final := by
  -- a statement takes several tokens, so the induction is on how many are left
  induction hlength : tokens.length using Nat.strongRecOn generalizing tokens body with
  | ind length ih =>
    cases tokens with
    | nil => cases h
    | cons token tokens =>
      by_cases hclose : token.kind = .closeBlock
      · rcases h.of_cons with ⟨_, hpass, -⟩ | ⟨_, _, hcontext, -⟩ | ⟨_, _, hcompletes, hrun⟩
        · cases hpass with
          | label hkind => cases hkind.symm.trans hclose
          | statement hkind => cases hkind.symm.trans hclose
        · cases hcontext
        · cases hcompletes with
          | sequence hkind hname =>
            rw [Draft.name_ofBody] at hname
            refine ⟨[], token, tokens, [], rfl, .nil, hclose, hname, ?_, ?_⟩
            · rwa [List.append_nil]
            · rwa [List.append_nil]
      · obtain ⟨front, back, s, rfl, hwritten, hnext, hrun⟩ := of_run_statement hbody hclose h
        have hless : back.length < length := by
          rw [← hlength, List.length_cons, List.length_append]
          omega
        obtain ⟨inner, closing, more, added, rfl, hinner, hkind, hname, hall, hmore⟩ :=
          ih _ hless hnext hrun rfl
        rw [← List.append_cons] at hall hmore
        exact ⟨token :: front ++ inner, closing, more, s :: added, by simp, .cons hwritten hinner,
          hkind, hname, hall, hmore⟩

/-- Behind its opening brace, a body is read up to its end. -/
theorem of_run_body {opening : Token} (hopen : opening.kind = .openBlock)
    (h : Run tokens (.statement (.ofBody reader.program.controls isMacro name parameters [])) reader
      .definition final) :
    ∃ front back body, tokens = front ++ back ∧
      Braced (InRow Statement.Written) (opening :: front) opening.line body ∧
      (Dotless name ∧ BodyAllowed reader.program.controls body) ∧
      Run back .definition (reader.after (.sequence isMacro name parameters body)) .definition
        final := by
  obtain ⟨inner, closing, more, body, rfl, hinner, hclose, hname, hbody, hmore⟩ :=
    of_run_statements bodyAllowed_nil h
  refine ⟨inner ++ [closing], more, body, by simp, .mk hopen hinner hclose, ⟨hname, hbody⟩, ?_⟩
  rw [after_eq rfl rfl]
  exact hmore

end Bodies

/-! ### One definition -/

/-- The first of the tokens complete the definition that `head` opens, which is allowed, and the
others are read behind it. -/
def ReadsDefinition (head : Token) (tokens : List Token) (reader final : Reader) : Prop :=
  ∃ front back d, tokens = front ++ back ∧ Definition.Written (head :: front) d ∧
    d.Allowed reader.program.controls ∧ Run back .definition (reader.after d) .definition final

section Definitions

variable {head : Token}

/-- What is read behind the keyword is a configuration. -/
theorem of_run_configuration (hhead : head.IsKeyword "config")
    (h : Run tokens .settingsOpen reader .definition final) :
    ReadsDefinition head tokens reader final := by
  obtain ⟨opening, tokens, _, rfl, hpass, hrun⟩ := h.of_onlyPasses rfl
  cases hpass with
  | settingsOpen hopen =>
    obtain ⟨inner, closing, more, settings, rfl, hinner, hclose, hmore⟩ := of_run_settings hrun
    rw [foldl_set] at hmore
    exact ⟨opening :: (inner ++ [closing]), more, .configuration settings, by simp,
      .configuration hhead (.mk hopen hinner hclose), trivial, hmore⟩

/-- What is read behind the keyword is a constant. -/
theorem of_run_constant (hhead : head.IsKeyword "const")
    (h : Run tokens .constantName reader .definition final) :
    ReadsDefinition head tokens reader final := by
  obtain ⟨word, tokens, _, rfl, hpass, hrun⟩ := h.of_onlyPasses rfl
  cases hpass with
  | @constantName name hname =>
    obtain ⟨number, tokens, _, _, rfl, hcompletes, hmore⟩ := hrun.of_onlyCompletes rfl
    cases hcompletes with
    | @constant _ value hvalue hdotless =>
      refine ⟨[word, number], tokens, .constant name value, rfl,
        .constant hhead hname hvalue, hdotless, ?_⟩
      rw [after_eq rfl rfl]
      exact hmore

/-- What is read behind the keyword is a control. -/
theorem of_run_control (hhead : head.IsKeyword "control")
    (h : Run tokens .controlName reader .definition final) :
    ReadsDefinition head tokens reader final := by
  obtain ⟨word, tokens, _, rfl, hpass, hrun⟩ := h.of_onlyPasses rfl
  cases hpass with
  | @controlName name hname =>
    obtain ⟨number, tokens, _, rfl, hpass, hrun⟩ := hrun.of_onlyPasses rfl
    cases hpass with
    | @controlBank _ bank hbank =>
      obtain ⟨bits, tokens, _, _, rfl, hcompletes, hmore⟩ := hrun.of_onlyCompletes rfl
      cases hcompletes with
      | @control _ _ mask hmask hnew =>
        refine ⟨[word, number, bits], tokens, .control { name, mask, bank }, rfl,
          .control hhead hname hbank (maskOf?_eq_some_iff.1 hmask), hnew, ?_⟩
        rw [after_eq rfl rfl]
        exact hmore

/-- What is read behind the keyword is a sequence. -/
theorem of_run_sequence (hhead : head.IsKeyword "sequence")
    (h : Run tokens (.sequenceName false) reader .definition final) :
    ReadsDefinition head tokens reader final := by
  obtain ⟨word, tokens, _, rfl, hpass, hrun⟩ := h.of_onlyPasses rfl
  cases hpass with
  | @sequenceName _ name hname =>
    obtain ⟨opening, tokens, _, rfl, hpass, hrun⟩ := hrun.of_onlyPasses rfl
    cases hpass with
    | parameters _ hisMacro => cases hisMacro
    | sequenceHead hopen =>
      obtain ⟨front, back, body, rfl, hblock, hallowed, hmore⟩ := of_run_body hopen hrun
      exact ⟨word :: opening :: front, back, .sequence false name [] body, rfl,
        .sequence hhead hname hblock, hallowed, hmore⟩

/-- What is read behind the keyword is a macro, with parameters or without. -/
theorem of_run_macro (hhead : head.IsKeyword "macro")
    (h : Run tokens (.sequenceName true) reader .definition final) :
    ReadsDefinition head tokens reader final := by
  obtain ⟨word, tokens, _, rfl, hpass, hrun⟩ := h.of_onlyPasses rfl
  cases hpass with
  | @sequenceName _ name hname =>
    obtain ⟨second, tokens, _, rfl, hpass, hrun⟩ := hrun.of_onlyPasses rfl
    cases hpass with
    | sequenceHead hopen =>
      obtain ⟨front, back, body, rfl, hblock, hallowed, hmore⟩ := of_run_body hopen hrun
      exact ⟨word :: second :: front, back, .sequence true name [] body, rfl,
        .parametrised hhead hname .none hblock, hallowed, hmore⟩
    | @parameters _ names hlist _ =>
      obtain ⟨opening, tokens, _, rfl, hpass, hrun⟩ := hrun.of_onlyPasses rfl
      cases hpass with
      | sequenceOpen hopen =>
        obtain ⟨front, back, body, rfl, hblock, hallowed, hmore⟩ := of_run_body hopen hrun
        exact ⟨word :: second :: opening :: front, back, .sequence true name names body, rfl,
          .parametrised hhead hname (.list hlist) hblock, hallowed, hmore⟩

/-- What is read behind the keyword is the empty assertion. -/
theorem of_run_filling (hhead : head.IsKeyword "empty")
    (h : Run tokens .fillingOpen reader .definition final) :
    ReadsDefinition head tokens reader final := by
  obtain ⟨opening, tokens, _, rfl, hpass, hrun⟩ := h.of_onlyPasses rfl
  cases hpass with
  | filling hopen =>
    obtain ⟨inner, closing, more, written, rfl, hinner, hclose, hwritten, hrest⟩ :=
      of_run_signals signalsAllowed_nil hrun
    refine ⟨opening :: (inner ++ [closing]), more, .filling opening.line written, by simp,
      .filling hhead (.mk hopen hinner hclose), hwritten, ?_⟩
    rw [after_eq rfl rfl]
    exact hrest.of_filling hclose

/-- What is read behind the keyword is a list of bindings. -/
theorem of_run_entrypoints (hhead : head.IsKeyword "entrypoints")
    (h : Run tokens .entrypointsOpen reader .definition final) :
    ReadsDefinition head tokens reader final := by
  obtain ⟨opening, tokens, _, rfl, hpass, hrun⟩ := h.of_onlyPasses rfl
  cases hpass with
  | entrypointsOpen hopen =>
    obtain ⟨inner, closing, more, bindings, rfl, hinner, hclose, hmore⟩ := of_run_bindings hrun
    refine ⟨opening :: (inner ++ [closing]), more, .entrypoints bindings, by simp,
      .entrypoints hhead (.mk hopen hinner hclose), trivial, ?_⟩
    rw [after_eq rfl rfl]
    exact hmore

/-- A run from the start of a definition reads one first, whichever its keyword. -/
theorem of_run_definition (h : Run (head :: tokens) .definition reader .definition final) :
    ReadsDefinition head tokens reader final := by
  rcases h.of_cons with ⟨next, hpass, hrun⟩ | ⟨_, _, hcontext, -⟩ | ⟨_, _, hcompletes, -⟩
  · cases hpass with
    | @keyword word _ hkind hnext =>
      have hword := Context.ofKeyword?_eq_some_iff.1 hnext
      have hhead : ∀ text, next.keyword? = some text → head.IsKeyword text :=
        fun text htext => ⟨word, hkind, Option.some.inj (hword.symm.trans htext)⟩
      cases next with
      | settingsOpen => exact of_run_configuration (hhead _ rfl) hrun
      | constantName => exact of_run_constant (hhead _ rfl) hrun
      | controlName => exact of_run_control (hhead _ rfl) hrun
      | sequenceName isMacro =>
        cases isMacro with
        | false => exact of_run_sequence (hhead _ rfl) hrun
        | true => exact of_run_macro (hhead _ rfl) hrun
      | fillingOpen => exact of_run_filling (hhead _ rfl) hrun
      | entrypointsOpen => exact of_run_entrypoints (hhead _ rfl) hrun
      | _ => cases hword
  · cases hcontext
  · cases hcompletes

/-- A run to the end of the text reads definitions in a row. -/
theorem of_run_definitions (h : Run tokens .definition reader .definition final) :
    ∃ definitions line, InRow Definition.Written tokens definitions ∧
      DefinitionsAllowed reader.program.controls definitions ∧
      final = { definitions.foldl after reader with line } := by
  -- a definition takes several tokens, so the induction is on how many are left
  induction hlength : tokens.length using Nat.strongRecOn generalizing tokens reader with
  | ind length ih =>
    cases tokens with
    | nil =>
      cases h with
      | done line => exact ⟨[], line, .nil, trivial, rfl⟩
    | cons head tokens =>
      obtain ⟨front, back, d, rfl, hwritten, hallowed, hrun⟩ := of_run_definition h
      have hless : back.length < length := by
        rw [← hlength, List.length_cons, List.length_append]
        omega
      obtain ⟨definitions, line, hrest, hmore, hfinal⟩ := ih _ hless hrun rfl
      rw [after, controls_define] at hmore
      exact ⟨d :: definitions, line, .cons hwritten hrest, ⟨hallowed, hmore⟩, hfinal⟩

end Definitions

/-! ## Texts -/

/-- Reading definitions extends the program by them. -/
theorem program_foldl_after (reader : Reader) (definitions : List Definition) :
    (definitions.foldl after reader).program = reader.program.extend definitions := by
  induction definitions generalizing reader with
  | nil => rfl
  | cons d definitions ih =>
    rw [List.foldl_cons, ih]
    rfl

/-- The selector is set once one of the definitions sets it. -/
theorem hasBankMask_foldl_after (definitions : List Definition) :
    (definitions.foldl after reader).hasBankMask =
      (reader.hasBankMask || definitions.any Definition.setsBankMask) := by
  induction definitions generalizing reader with
  | nil => simp
  | cons d definitions ih => rw [List.foldl_cons, ih, after, List.any_cons, Bool.or_assoc]

/-- A run from one place between definitions to another is a row of definitions that are allowed,
and these are what it adds to the program. -/
theorem run_definitions_iff :
    Run tokens .definition reader .definition final ↔ ∃ definitions line,
      InRow Definition.Written tokens definitions ∧
        DefinitionsAllowed reader.program.controls definitions ∧
        final = { definitions.foldl after reader with line } := by
  refine ⟨of_run_definitions, ?_⟩
  rintro ⟨definitions, line, hwritten, hallowed, rfl⟩
  exact (run_definitions hwritten hallowed).with_line line

/-- A text is read by a fresh reader exactly if it can be cut into tokens, the tokens spell
definitions that are allowed, one of these sets the bank mask, and together they make up a valid
program. -/
theorem readText_eq_ok_iff (text : String) :
    ((readText text).run {}).result = .ok () ↔ ∃ tokens definitions, tokenize text = .ok tokens ∧
      InRow Definition.Written tokens definitions ∧ DefinitionsAllowed ∅ definitions ∧
      definitions.any Definition.setsBankMask = true ∧
      (({} : Program).extend definitions).Valid := by
  constructor
  · intro h
    -- what has been read is spelled out by the run over the tokens
    have hread : (readText text).Yields {} () ((readText text).run {}).state := ⟨h, rfl⟩
    obtain ⟨tokens, htokenize, hsteps, hmask, hvalid⟩ := yields_readText_iff.1 hread
    generalize ((readText text).run {}).state = final at hsteps hmask hvalid
    obtain ⟨definitions, line, hwritten, hallowed, rfl⟩ :=
      run_definitions_iff.1 (yields_foldlM_step_iff.1 ⟨final.line, hsteps⟩)
    refine ⟨tokens, definitions, htokenize, hwritten, hallowed, ?_, ?_⟩
    · rw [← hmask, hasBankMask_foldl_after, Bool.false_or]
    · have hprogram := program_foldl_after {} definitions
      exact Program.validate_eq_ok_iff.1 (hprogram ▸ hvalid)
  · rintro ⟨tokens, definitions, htokenize, hwritten, hallowed, hmask, hvalid⟩
    have hrun : Run tokens .definition {} .definition (definitions.foldl after {}) :=
      run_definitions hwritten hallowed
    obtain ⟨line, hsteps⟩ := yields_foldlM_step_iff.2 hrun
    refine (yields_readText_iff.2 ⟨tokens, htokenize, hsteps, ?_, ?_⟩).1
    · rw [hasBankMask_foldl_after, hmask, Bool.or_true]
    · rw [program_foldl_after]
      exact Program.validate_eq_ok_iff.2 hvalid

end Reader

end ControlStore
