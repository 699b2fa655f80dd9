import ControlStore.Proofs.Source.Acceptance
import ControlStore.Proofs.Source.Joined

/-!
# Reading in parts

A text can be read in parts. Behind a text that was read, another text is read exactly if both can
be read together, with a line break between them (`Reader.readText_append`). A reader keeps nothing
but its program and its flag from one text to the next: between definitions no token is pending,
and the check at the end of a text changes nothing.

What differs are lines. Only references and assertions remember one, and the lines of a text that
stands further down are all further down. `Program.mapLinesOf` changes the lines that definitions
have brought into a program, and no others: those of the sequences that bear a name the definitions
bind, and those of the filling if they have one. Definitions with other lines are allowed as well,
and add the same with these lines (`Program.extend_mapLines`).
-/

namespace ControlStore

/-! ## Lines -/

def Token.mapLine (f : Nat → Nat) (token : Token) : Token := { token with line := f token.line }

def Statement.mapLine (f : Nat → Nat) : Statement → Statement
  | .label name => .label name
  | .reference line symbol arguments => .reference (f line) symbol arguments
  | .assertion line written => .assertion (f line) written

def Definition.mapLines (f : Nat → Nat) : Definition → Definition
  | .sequence isMacro name parameters body =>
    .sequence isMacro name parameters (body.map (Statement.mapLine f))
  | .filling line written => .filling (f line) written
  | other => other

def Assertion.mapLine (f : Nat → Nat) (a : Assertion) : Assertion := { a with line := f a.line }

def Step.mapLine (f : Nat → Nat) : Step → Step
  | .assertion a => .assertion (a.mapLine f)
  | .reference r => .reference { r with line := f r.line }

def Symbol.mapLines (f : Nat → Nat) (symbol : Symbol) : Symbol :=
  symbol.mapSteps (List.map (Step.mapLine f))

/-- The entries with the lines of the named symbols changed. A name stands for its first entry. -/
def mapLineEntries (f : Nat → Nat) : List String → List (String × Symbol) → List (String × Symbol)
  | _, [] => []
  | names, (key, symbol) :: rest =>
    if key ∈ names then
      (key, symbol.mapLines f) :: mapLineEntries f (names.filter (· ≠ key)) rest
    else (key, symbol) :: mapLineEntries f names rest

/-- The global name that a definition binds, if it binds one. -/
def Definition.name? : Definition → Option String
  | .constant name _ => some name
  | .sequence _ name _ _ => some name
  | _ => none

/-- Is the definition the assertion for unused addresses? -/
def Definition.isFilling : Definition → Bool
  | .filling _ _ => true
  | _ => false

/-- The program with the lines of the named symbols changed, and those of the filling if asked. -/
def Program.mapLinesIn (f : Nat → Nat) (names : List String) (isFilled : Bool)
    (program : Program) : Program :=
  { program with
    symbols :=
      { program.symbols with entries := mapLineEntries f names program.symbols.entries }
    emptyAssertion :=
      if isFilled then program.emptyAssertion.map (Assertion.mapLine f)
      else program.emptyAssertion }

/-- The program with the lines changed that the definitions have brought into it. -/
def Program.mapLinesOf (f : Nat → Nat) (definitions : List Definition) (program : Program) :
    Program :=
  program.mapLinesIn f (definitions.filterMap Definition.name?)
    (definitions.any Definition.isFilling)

variable {f : Nat → Nat}

/-! ## What is written with other lines -/

/-- A row of items stays one when tokens and items are changed together. -/
theorem InRow.map {α β : Type} {part : List Token → α → Prop} {part' : List Token → β → Prop}
    {f : Token → Token} {g : α → β} {tokens : List Token} {items : List α}
    (hpart : ∀ tokens a, part tokens a → part' (tokens.map f) (g a))
    (h : InRow part tokens items) : InRow part' (tokens.map f) (items.map g) := by
  induction h with
  | nil => exact .nil
  | cons hfirst _ ih =>
    rw [List.map_append]
    exact .cons (hpart _ _ hfirst) ih

/-- A list of items says the same on other lines. -/
theorem Listed.mapLine {α : Type} {item : TokenKind → α → Prop} {tokens : List Token}
    {items : List α} (h : Listed item tokens items) :
    Listed item (tokens.map (Token.mapLine f)) items := by
  induction h with
  | nil => exact .nil
  | comma hkind _ ih => exact .comma hkind ih
  | cons hfirst _ ih => exact .cons hfirst ih

/-- A block on other lines is a block, with its content changed alike. -/
theorem Braced.mapLine {α β : Type} {content : List Token → α → Prop}
    {content' : List Token → β → Prop} {block : List Token} {line : Nat} {a : α} {b : β}
    (h : Braced content block line a)
    (hmap : ∀ tokens, content tokens a → content' (tokens.map (Token.mapLine f)) b) :
    Braced content' (block.map (Token.mapLine f)) (f line) b := by
  obtain ⟨hopen, hcontent, hclose⟩ := h
  rw [List.map_cons, List.map_append]
  exact .mk hopen (hmap _ hcontent) hclose

theorem Setting.Written.mapLine {tokens : List Token} {setting : Setting × Nat}
    (h : Setting.Written tokens setting) :
    Setting.Written (tokens.map (Token.mapLine f)) setting := by
  obtain ⟨hname, hvalue⟩ := h
  exact .mk hname hvalue

/-- A statement on other lines is the statement with its lines changed. -/
theorem Statement.Written.mapLine {tokens : List Token} {s : Statement}
    (h : s.Written tokens) : (s.mapLine f).Written (tokens.map (Token.mapLine f)) := by
  cases h with
  | label hkind hword => exact .label hkind hword
  | reference hkind hword hlist => exact .reference hkind hword hlist
  | assertion hkind hword hblock =>
    exact .assertion hkind hword (hblock.mapLine fun _ hcontent => hcontent.mapLine)

/-- A definition on other lines is the definition with its lines changed. -/
theorem Definition.Written.mapLines {tokens : List Token} {d : Definition}
    (h : d.Written tokens) : (d.mapLines f).Written (tokens.map (Token.mapLine f)) := by
  cases h with
  | @configuration _ _ _ settings hhead hblock =>
    refine .configuration hhead (hblock.mapLine fun tokens hcontent => ?_)
    have hrow : InRow Setting.Written (tokens.map (Token.mapLine f)) (settings.map id) :=
      hcontent.map fun _ _ hwritten => Setting.Written.mapLine hwritten
    rwa [List.map_id] at hrow
  | constant hhead hname hvalue => exact .constant hhead hname hvalue
  | control hhead hname hbank hmask => exact .control hhead hname hbank hmask
  | sequence hhead hname hblock =>
    refine .sequence hhead hname (hblock.mapLine fun _ hcontent => ?_)
    exact hcontent.map fun _ _ hwritten => hwritten.mapLine
  | parametrised hhead hname hparameters hblock =>
    rw [List.map_cons, List.map_cons, List.map_append]
    refine .parametrised hhead hname ?_ (hblock.mapLine fun _ hcontent => ?_)
    · cases hparameters with
      | none => exact .none
      | list hkind => exact .list hkind
    · exact hcontent.map fun _ _ hwritten => hwritten.mapLine
  | filling hhead hblock => exact .filling hhead (hblock.mapLine fun _ hcontent => hcontent.mapLine)
  | entrypoints hhead hblock =>
    exact .entrypoints hhead (hblock.mapLine fun _ hcontent => hcontent.mapLine)

/-! ## What is allowed with other lines -/

theorem bodyLabels_mapLine (body : List Statement) :
    bodyLabels (body.map (Statement.mapLine f)) = bodyLabels body := by
  rw [bodyLabels, List.filterMap_map, bodyLabels]
  congr 1
  funext s
  cases s <;> rfl

/-- A body is allowed on any lines. -/
theorem BodyAllowed.mapLine {controls : ControlTable} {body : List Statement}
    (h : BodyAllowed controls body) : BodyAllowed controls (body.map (Statement.mapLine f)) := by
  refine ⟨?_, ?_, ?_⟩
  · rw [bodyLabels_mapLine]
    exact h.dotless
  · rw [bodyLabels_mapLine]
    exact h.unique
  · intro line written hmem
    obtain ⟨s, hs, heq⟩ := List.mem_map.1 hmem
    cases s with
    | assertion old others =>
      cases heq
      exact h.signals old written hs
    | label name => cases heq
    | reference old symbol arguments => cases heq

/-- A definition is allowed on any lines. -/
theorem Definition.Allowed.mapLines {controls : ControlTable} {d : Definition}
    (h : d.Allowed controls) : (d.mapLines f).Allowed controls := by
  cases d with
  | sequence isMacro name parameters body => exact ⟨h.1, h.2.mapLine⟩
  | _ => exact h

/-- A definition declares the same controls on any lines. -/
theorem Definition.declare_mapLines (controls : ControlTable) (d : Definition) :
    (d.mapLines f).declare controls = d.declare controls := by
  cases d <;> rfl

/-- Definitions are allowed on any lines. -/
theorem DefinitionsAllowed.mapLines {controls : ControlTable} {definitions : List Definition}
    (h : DefinitionsAllowed controls definitions) :
    DefinitionsAllowed controls (definitions.map (Definition.mapLines f)) := by
  induction definitions generalizing controls with
  | nil => trivial
  | cons d definitions ih =>
    refine ⟨h.1.mapLines, ?_⟩
    rw [Definition.declare_mapLines]
    exact ih h.2

theorem any_setsBankMask_mapLines (definitions : List Definition) :
    (definitions.map (Definition.mapLines f)).any Definition.setsBankMask =
      definitions.any Definition.setsBankMask := by
  rw [List.any_map]
  congr 1
  funext d
  cases d <;> rfl

/-! ## What is added with other lines -/

section Entries

variable {name : String} {symbol : Symbol} {names : List String} {entries : List (String × Symbol)}

theorem mapLineEntries_nil : mapLineEntries f [] entries = entries := by
  induction entries with
  | nil => rfl
  | cons entry entries ih =>
    obtain ⟨key, symbol⟩ := entry
    rw [mapLineEntries, if_neg List.not_mem_nil, ih]

/-- A symbol that is bound has its own lines, whatever those of the one that it replaces. -/
theorem mapLineEntries_bindEntry :
    mapLineEntries f (names ++ [name]) (bindEntry name symbol entries) =
      bindEntry name (symbol.mapLines f) (mapLineEntries f names entries) := by
  induction entries generalizing names with
  | nil => simp [bindEntry, mapLineEntries]
  | cons entry entries ih =>
    obtain ⟨key, old⟩ := entry
    -- the name is bound here: what it was bound to before goes, whatever its lines
    by_cases hkey : key = name
    · subst hkey
      have hfilter : (names ++ [key]).filter (· ≠ key) = names.filter (· ≠ key) := by
        simp [List.filter_append]
      rw [bindEntry, if_pos rfl, mapLineEntries, if_pos (by simp), hfilter, mapLineEntries]
      split
      · rw [bindEntry, if_pos rfl]
      · next hnew =>
        have hkept : names.filter (· ≠ key) = names :=
          List.filter_eq_self.2 fun other hother =>
            decide_eq_true fun heq : other = key => hnew (heq ▸ hother)
        rw [bindEntry, if_pos rfl, hkept]
    · have hfilter : (names ++ [name]).filter (· ≠ key) = names.filter (· ≠ key) ++ [name] := by
        simp [List.filter_append, Ne.symm hkey]
      have hmem : key ∈ names ++ [name] ↔ key ∈ names := by simp [hkey]
      simp only [bindEntry, if_neg hkey, mapLineEntries, hmem, hfilter, ih]
      split <;> simp [bindEntry, hkey]

/-- Attaching a symbol to its parent does not touch its lines. -/
theorem Symbol.attach_mapLines (parent key : String) (symbol : Symbol) :
    (symbol.mapLines f).attach parent key = (symbol.attach parent key).mapLines f := by
  cases symbol <;> rfl

end Entries

def Draft.mapLines (f : Nat → Nat) (draft : Draft) : Draft :=
  { draft with code := { draft.code with steps := draft.code.steps.map (Step.mapLine f) } }

/-- Appending a statement on another line changes this line in the draft. -/
theorem Draft.append_mapLines (controls : ControlTable) (draft : Draft) (s : Statement) :
    (draft.mapLines f).append controls (s.mapLine f) = (draft.append controls s).mapLines f := by
  cases s with
  | label name => simp [append, addLabel, mapLines, Statement.mapLine]
  | reference line symbol arguments =>
    simp [append, addStep, mapLines, Statement.mapLine, Step.mapLine]
  | assertion line written =>
    simp [append, addStep, mapLines, Statement.mapLine, Step.mapLine, Assertion.mapLine,
      Assertion.ofSignals]

/-- The draft of a body on other lines has these lines. -/
theorem Draft.ofBody_mapLine (controls : ControlTable) (isMacro : Bool) (name : String)
    (parameters : List String) (body : List Statement) :
    ofBody controls isMacro name parameters (body.map (Statement.mapLine f)) =
      (ofBody controls isMacro name parameters body).mapLines f := by
  have hfold : ∀ draft : Draft,
      (body.map (Statement.mapLine f)).foldl (append controls) (draft.mapLines f) =
        (body.foldl (append controls) draft).mapLines f := by
    induction body with
    | nil => exact fun _ => rfl
    | cons s body ih =>
      intro draft
      rw [List.map_cons, List.foldl_cons, List.foldl_cons, append_mapLines, ih]
  exact hfold { name, code := { isMacro, parameters } }

namespace Program

variable {names : List String} {isFilled : Bool}

/-- Binding a symbol with changed lines adds its name to those whose lines are changed. -/
theorem bind_mapLinesIn (program : Program) (name : String) (symbol : Symbol) :
    { program.mapLinesIn f names isFilled with
      symbols := (program.mapLinesIn f names isFilled).symbols.bind name (symbol.mapLines f) } =
      mapLinesIn f (names ++ [name]) isFilled
        { program with symbols := program.symbols.bind name symbol } := by
  simp [mapLinesIn, SymbolTree.bind, Symbol.attach_mapLines, mapLineEntries_bindEntry]

/-- Binding a draft with changed lines adds its name to those whose lines are changed. -/
theorem bindDraft_mapLines (program : Program) (draft : Draft) :
    (program.mapLinesIn f names isFilled).bindDraft (draft.mapLines f) =
      (program.bindDraft draft).mapLinesIn f (names ++ [draft.name]) isFilled :=
  bind_mapLinesIn program draft.name (.sequence draft.code draft.locals)

theorem mapLinesIn_nil (program : Program) : program.mapLinesIn f [] false = program := by
  have hsymbols : ({ program.symbols with entries := program.symbols.entries } : SymbolTree) =
      program.symbols :=
    SymbolTree.ext' rfl rfl
  rw [mapLinesIn, mapLineEntries_nil, hsymbols]
  rfl

/-- A definition with other lines adds the same with these lines. -/
theorem define_mapLines (program : Program) (d : Definition) :
    (program.mapLinesIn f names isFilled).define (d.mapLines f) =
      (program.define d).mapLinesIn f (names ++ d.name?.toList) (isFilled || d.isFilling) := by
  cases d with
  | configuration settings =>
    simp only [Definition.name?, Option.toList_none, List.append_nil, Definition.isFilling,
      Bool.or_false, Definition.mapLines, define]
    induction settings generalizing program with
    | nil => rfl
    | cons setting settings ih =>
      rw [List.foldl_cons, List.foldl_cons, ← ih]
      obtain ⟨setting, value⟩ := setting
      cases setting <;> rfl
  | constant name value =>
    simp only [Definition.isFilling, Bool.or_false]
    exact bind_mapLinesIn program name (.constant value)
  | control control =>
    simp only [Definition.name?, Option.toList_none, List.append_nil, Definition.isFilling,
      Bool.or_false]
    rfl
  | sequence isMacro name parameters body =>
    simp only [Definition.isFilling, Bool.or_false, Definition.mapLines, define]
    change bindDraft _ (.ofBody program.controls isMacro name parameters _) = _
    rw [Draft.ofBody_mapLine, bindDraft_mapLines, Draft.name_ofBody]
    rfl
  | filling line written =>
    simp only [Definition.name?, Option.toList_none, List.append_nil, Definition.isFilling,
      Bool.or_true]
    rfl
  | entrypoints bindings =>
    simp only [Definition.name?, Option.toList_none, List.append_nil, Definition.isFilling,
      Bool.or_false, Definition.mapLines, define]
    induction bindings generalizing program with
    | nil => rfl
    | cons binding bindings ih =>
      rw [List.foldl_cons, List.foldl_cons, ← ih]
      obtain ⟨target, symbol⟩ := binding
      cases target <;> rfl

/-- Definitions with changed lines change the lines of what they define. -/
theorem extend_mapLinesIn (program : Program) (definitions : List Definition) :
    (program.mapLinesIn f names isFilled).extend (definitions.map (Definition.mapLines f)) =
      (program.extend definitions).mapLinesIn f (names ++ definitions.filterMap Definition.name?)
        (isFilled || definitions.any Definition.isFilling) := by
  induction definitions generalizing program names isFilled with
  | nil => simp [extend]
  | cons d definitions ih =>
    have hnames : (d :: definitions).filterMap Definition.name? =
        d.name?.toList ++ definitions.filterMap Definition.name? := by
      cases h : d.name? <;> simp [h]
    rw [extend, List.map_cons, List.foldl_cons, define_mapLines, hnames, List.any_cons,
      ← List.append_assoc, ← Bool.or_assoc]
    exact ih _

/-- Definitions with other lines add the same with these lines. -/
theorem extend_mapLines (program : Program) (definitions : List Definition) :
    program.extend (definitions.map (Definition.mapLines f)) =
      (program.extend definitions).mapLinesOf f definitions := by
  have hextend : (program.mapLinesIn f [] false).extend _ = _ :=
    extend_mapLinesIn program definitions
  rwa [mapLinesIn_nil] at hextend

end Program

/-! ## Reading on -/

namespace Reader

open Stage

variable {reader middle final : Reader} {text more : String} {tokens : List Token}

/-- Behind a text that was read, another one is read from where the first one has led. -/
theorem yields_readText_append_iff (h : (readText text).Yields reader () middle) :
    (readText (text ++ "\n" ++ more)).Yields reader () final ↔
      ∃ tokens, tokenize more = .ok tokens ∧
        ((tokens.map (Token.mapLine (· + (newlines text.toList + 1)))).foldlM step
          .definition).Yields middle .definition final ∧
        final.hasBankMask = true ∧ final.program.validate = .ok () := by
  obtain ⟨first, hfirst, hsteps, -, -⟩ := yields_readText_iff.1 h
  rw [yields_readText_iff, tokenize_append hfirst]
  constructor
  · rintro ⟨all, hall, hread, hchecked⟩
    -- the tokens of the second text follow those of the first, on the lines below
    cases hmore : tokenize more with
    | error e =>
      rw [hmore] at hall
      cases hall
    | ok tokens =>
      rw [hmore] at hall
      cases hall
      rw [List.foldlM_append] at hread
      obtain ⟨context, reached, hreached, hrest⟩ := yields_bind.1 hread
      obtain ⟨rfl, rfl⟩ := hsteps.unique hreached
      exact ⟨tokens, rfl, hrest, hchecked⟩
  · rintro ⟨tokens, hmore, hrest, hchecked⟩
    rw [hmore]
    refine ⟨_, rfl, ?_, hchecked⟩
    rw [List.foldlM_append]
    exact yields_bind.2 ⟨_, _, hsteps, hrest⟩

/-- Tokens on other lines are read if they are read on their own lines, with the same result but
for the lines of the definitions that they spell. -/
theorem exists_yields_mapLine (f : Nat → Nat)
    (h : (tokens.foldlM step .definition).Yields reader .definition final) :
    ∃ definitions moved, InRow Definition.Written tokens definitions ∧
      ((tokens.map (Token.mapLine f)).foldlM step .definition).Yields reader .definition moved ∧
      moved.program = final.program.mapLinesOf f definitions ∧
      moved.hasBankMask = final.hasBankMask := by
  obtain ⟨definitions, line, hwritten, hallowed, rfl⟩ :=
    run_definitions_iff.1 (yields_foldlM_step_iff.1 ⟨final.line, h⟩)
  have hrun : Run (tokens.map (Token.mapLine f)) .definition reader .definition _ :=
    run_definitions (hwritten.map fun _ _ hd => hd.mapLines (f := f)) hallowed.mapLines
  obtain ⟨line', hsteps⟩ := yields_foldlM_step_iff.2 hrun
  refine ⟨definitions, _, hwritten, hsteps, ?_, ?_⟩
  · rw [program_foldl_after, program_foldl_after, Program.extend_mapLines]
  · rw [hasBankMask_foldl_after, hasBankMask_foldl_after, any_setsBankMask_mapLines]

/-- Reading a text and then another is reading both with a line break between them. The program is
the same but for the lines of what the second text defines, which are further down. -/
theorem readText_append (h : (readText text).Yields reader () middle) (more : String) :
    ((∃ final, (readText more).Yields middle () final) ↔
        ∃ joined, (readText (text ++ "\n" ++ more)).Yields reader () joined) ∧
      ∀ final joined, (readText more).Yields middle () final →
        (readText (text ++ "\n" ++ more)).Yields reader () joined →
        ∃ tokens definitions, tokenize more = .ok tokens ∧
          InRow Definition.Written tokens definitions ∧
          joined.program =
            final.program.mapLinesOf (· + (newlines text.toList + 1)) definitions := by
  have hmoved : ∀ {final : Reader}, (readText more).Yields middle () final →
      ∃ tokens definitions joined, tokenize more = .ok tokens ∧
        InRow Definition.Written tokens definitions ∧
        (readText (text ++ "\n" ++ more)).Yields reader () joined ∧
        joined.program =
          final.program.mapLinesOf (· + (newlines text.toList + 1)) definitions := by
    intro final hfinal
    obtain ⟨tokens, htokens, hsteps, hmask, hvalid⟩ := yields_readText_iff.1 hfinal
    obtain ⟨definitions, joined, hwritten, hjoined, hprogram, hflag⟩ :=
      exists_yields_mapLine (· + (newlines text.toList + 1)) hsteps
    refine ⟨tokens, definitions, joined, htokens, hwritten, ?_, hprogram⟩
    exact (yields_readText_append_iff h).2
      ⟨tokens, htokens, hjoined, hflag.trans hmask, hprogram ▸ hvalid⟩
  refine ⟨⟨?_, ?_⟩, ?_⟩
  · rintro ⟨final, hfinal⟩
    obtain ⟨-, -, joined, -, -, hjoined, -⟩ := hmoved hfinal
    exact ⟨joined, hjoined⟩
  · rintro ⟨joined, hjoined⟩
    obtain ⟨tokens, htokens, hsteps, hmask, hvalid⟩ := (yields_readText_append_iff h).1 hjoined
    obtain ⟨definitions, final, -, hfinal, hprogram, hflag⟩ :=
      exists_yields_mapLine (· - (newlines text.toList + 1)) hsteps
    -- moving the lines up again gives back the tokens of the second text
    have hback : (tokens.map (Token.mapLine (· + (newlines text.toList + 1)))).map
        (Token.mapLine (· - (newlines text.toList + 1))) = tokens := by
      simp [Token.mapLine, Function.comp_def]
    rw [hback] at hfinal
    exact ⟨final, yields_readText_iff.2
      ⟨tokens, htokens, hfinal, hflag.trans hmask, hprogram ▸ hvalid⟩⟩
  · intro final joined hfinal hjoined
    obtain ⟨tokens, definitions, other, htokens, hwritten, hother, hprogram⟩ := hmoved hfinal
    obtain ⟨-, rfl⟩ := hother.unique hjoined
    exact ⟨tokens, definitions, htokens, hwritten, hprogram⟩

/-- A text that can be read by itself. -/
def openingText : String :=
  "config { controlwordwidth 4 microprogramlength 4 opwidth 1 bankmask 0 }\ncontrol c 0 2:0\n" ++
  "sequence s { assert { c: 1 } }"

/-- A text that needs the control of the first one, and binds the name of its sequence again. -/
def rebindingText : String := "sequence s\n{ assert { c: 2 } m() }\nempty { c: 7 }"

/-- Both texts are read, the second one by the reader of the first. -/
theorem readText_rebindingText :
    ((readText openingText).run {}).result = .ok () ∧
      ((readText rebindingText).run ((readText openingText).run {}).state).result = .ok () := by
  decide +kernel

/-- The second text can be read behind the first, so both can be read together. -/
theorem readText_append_rebindingText : ∃ middle final joined,
    (readText openingText).Yields {} () middle ∧ (readText rebindingText).Yields middle () final ∧
      (readText (openingText ++ "\n" ++ rebindingText)).Yields {} () joined ∧
      ∃ tokens definitions, tokenize rebindingText = .ok tokens ∧
        InRow Definition.Written tokens definitions ∧
        joined.program = final.program.mapLinesOf (· + (newlines openingText.toList + 1))
          definitions := by
  obtain ⟨hopening, hrebinding⟩ := readText_rebindingText
  have hread : (readText openingText).Yields {} () _ := ⟨hopening, rfl⟩
  have hfinal : (readText rebindingText).Yields _ () _ := ⟨hrebinding, rfl⟩
  obtain ⟨hiff, hlines⟩ := readText_append hread rebindingText
  obtain ⟨joined, hjoined⟩ := hiff.1 ⟨_, hfinal⟩
  exact ⟨_, _, joined, hread, hfinal, hjoined, hlines _ joined hfinal hjoined⟩

end Reader

end ControlStore
