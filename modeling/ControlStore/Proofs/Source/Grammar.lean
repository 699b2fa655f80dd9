import ControlStore.Source.Reader

/-!
# The grammar of programs

A text is a row of definitions, and a definition is spelled by a row of tokens. `Definition` is what
such a row says, and `Definition.Written` how it is written. Nothing here looks at how a text is
read or at what was defined before.

Keywords and settings are recognised in any case of their letters (`keyword`), and so are the names
of the two entrypoints and the word `assert` (`equalIgnoringCase`). Blocks of signals and of
entrypoints may have commas anywhere between their items.
-/

namespace ControlStore

/-! ## What a text says -/

/-- A statement of a sequence or macro. -/
inductive Statement where
  | label (name : String)
  /-- A use of a macro, on the line of its name. -/
  | reference (line : Nat) (symbol : String) (arguments : List Value)
  /-- The values of controls, on the line of the brace that opens them. -/
  | assertion (line : Nat) (signals : List (String × Value))
  deriving DecidableEq, Repr

/-- What a sequence can be bound to. -/
inductive Target where
  | fetch
  | interrupt
  | opcode (opcode : Nat)
  deriving DecidableEq, Repr

/-- A definition of a text. -/
inductive Definition where
  | configuration (settings : List (Setting × Nat))
  | constant (name : String) (value : Int)
  | control (control : Control)
  | sequence (isMacro : Bool) (name : String) (parameters : List String) (body : List Statement)
  /-- The assertion for unused addresses, on the line of the brace that opens it. -/
  | filling (line : Nat) (signals : List (String × Value))
  | entrypoints (bindings : List (Target × String))
  deriving DecidableEq, Repr

/-! ## Rows and blocks of tokens -/

/-- The tokens spell the items one after the other. -/
inductive InRow {α : Type} (part : List Token → α → Prop) : List Token → List α → Prop
  | nil : InRow part [] []
  | cons {tokens more : List Token} {a : α} {items : List α} (hfirst : part tokens a)
      (hrest : InRow part more items) : InRow part (tokens ++ more) (a :: items)

/-- Each token spells an item or is a comma. -/
inductive Listed {α : Type} (item : TokenKind → α → Prop) : List Token → List α → Prop
  | nil : Listed item [] []
  | comma {token : Token} {tokens : List Token} {items : List α} (hkind : token.kind = .comma)
      (hrest : Listed item tokens items) : Listed item (token :: tokens) items
  | cons {token : Token} {tokens : List Token} {a : α} {items : List α}
      (hfirst : item token.kind a) (hrest : Listed item tokens items) :
      Listed item (token :: tokens) (a :: items)

/-- The tokens are a block between braces, the first of them on the given line. -/
inductive Braced {α : Type} (content : List Token → α → Prop) : List Token → Nat → α → Prop
  | mk {opening closing : Token} {tokens : List Token} {a : α} (hopen : opening.kind = .openBlock)
      (hcontent : content tokens a) (hclose : closing.kind = .closeBlock) :
      Braced content (opening :: (tokens ++ [closing])) opening.line a

/-! ## How it is written -/

/-- The token is a word that is spelled like a keyword, in whatever case. -/
def Token.IsKeyword (token : Token) (text : String) : Prop :=
  ∃ word, token.kind = .word word ∧ keyword word = text

/-- The word for a setting, in lower case. -/
def Setting.spelling : Setting → String
  | .wordWidth => "controlwordwidth"
  | .length => "microprogramlength"
  | .opcodeWidth => "opwidth"
  | .bankMask => "bankmask"

/-- A setting is given a value that is not negative. -/
inductive Setting.Written : List Token → Setting × Nat → Prop
  | mk {name number : Token} {setting : Setting} {value : Nat}
      (hname : name.IsKeyword setting.spelling) (hvalue : number.kind = .integer value) :
      Written [name, number] (setting, value)

/-- The bits of a control are one position or a pair of positions. -/
inductive Mask.Written : TokenKind → Mask → Prop
  | position (bit : Nat) : Written (.integer bit) (.single bit)
  | range (msb lsb : Nat) : Written (.pair (.integer msb) (.integer lsb)) ⟨msb, lsb⟩

/-- A signal is a pair of a control's name and a value. -/
def SignalWritten (kind : TokenKind) (signal : String × Value) : Prop :=
  kind = .pair (.symbol signal.1) signal.2

/-- The word marks a place with a label. The name between the colons is not empty. -/
def MarksLabel (word name : String) : Prop := name ≠ "" ∧ word = "::" ++ name ++ "::"

/-- A word that marks no place is followed by a list, or is `assert` and followed by a block. -/
inductive Statement.Written : List Token → Statement → Prop
  | label {token : Token} {word name : String} (hkind : token.kind = .word word)
      (hword : MarksLabel word name) : Written [token] (.label name)
  | reference {token list : Token} {word : String} {arguments : List Value}
      (hkind : token.kind = .word word) (hword : ∀ name, ¬MarksLabel word name)
      (hlist : list.kind = .list arguments) :
      Written [token, list] (.reference token.line word arguments)
  | assertion {token : Token} {word : String} {block : List Token} {line : Nat}
      {signals : List (String × Value)} (hkind : token.kind = .word word)
      (hword : equalIgnoringCase word "assert" = true)
      (hblock : Braced (Listed SignalWritten) block line signals) :
      Written (token :: block) (.assertion line signals)

/-- A macro may have a list of parameters, which are symbols. -/
inductive ParametersWritten : List Token → List String → Prop
  | none : ParametersWritten [] []
  | list {token : Token} {names : List String} (hkind : token.kind = .list (names.map .symbol)) :
      ParametersWritten [token] names

/-- An entrypoint is a pair of its name, or of an opcode, and a symbol. -/
inductive EntrypointWritten : TokenKind → Target × String → Prop
  | fetch {name : String} (symbol : String) (hname : equalIgnoringCase name "fetch" = true) :
      EntrypointWritten (.pair (.symbol name) (.symbol symbol)) (.fetch, symbol)
  | interrupt {name : String} (symbol : String)
      (hname : equalIgnoringCase name "interrupt" = true) :
      EntrypointWritten (.pair (.symbol name) (.symbol symbol)) (.interrupt, symbol)
  | opcode (opcode : Nat) (symbol : String) :
      EntrypointWritten (.pair (.integer opcode) (.symbol symbol)) (.opcode opcode, symbol)

/-- The tokens spell the definition. -/
inductive Definition.Written : List Token → Definition → Prop
  | configuration {head : Token} {block : List Token} {line : Nat} {settings : List (Setting × Nat)}
      (hhead : head.IsKeyword "config")
      (hblock : Braced (InRow Setting.Written) block line settings) :
      Written (head :: block) (.configuration settings)
  | constant {head word number : Token} {name : String} {value : Int}
      (hhead : head.IsKeyword "const") (hname : word.kind = .word name)
      (hvalue : number.kind = .integer value) :
      Written [head, word, number] (.constant name value)
  | control {head word number bits : Token} {name : String} {bank : Nat} {mask : Mask}
      (hhead : head.IsKeyword "control") (hname : word.kind = .word name)
      (hbank : number.kind = .integer bank) (hmask : mask.Written bits.kind) :
      Written [head, word, number, bits] (.control { name, mask, bank })
  | sequence {head word : Token} {block : List Token} {name : String} {line : Nat}
      {body : List Statement} (hhead : head.IsKeyword "sequence") (hname : word.kind = .word name)
      (hblock : Braced (InRow Statement.Written) block line body) :
      Written (head :: word :: block) (.sequence false name [] body)
  | parametrised {head word : Token} {parameters block : List Token} {name : String}
      {names : List String} {line : Nat} {body : List Statement}
      (hhead : head.IsKeyword "macro") (hname : word.kind = .word name)
      (hparameters : ParametersWritten parameters names)
      (hblock : Braced (InRow Statement.Written) block line body) :
      Written (head :: word :: (parameters ++ block)) (.sequence true name names body)
  | filling {head : Token} {block : List Token} {line : Nat} {signals : List (String × Value)}
      (hhead : head.IsKeyword "empty") (hblock : Braced (Listed SignalWritten) block line signals) :
      Written (head :: block) (.filling line signals)
  | entrypoints {head : Token} {block : List Token} {line : Nat}
      {bindings : List (Target × String)} (hhead : head.IsKeyword "entrypoints")
      (hblock : Braced (Listed EntrypointWritten) block line bindings) :
      Written (head :: block) (.entrypoints bindings)

/-! ## Words as they are recognised -/

/-- A word names a setting exactly if it is its spelling as a keyword. -/
theorem Setting.ofWord?_eq_some_iff {word : String} {setting : Setting} :
    Setting.ofWord? word = some setting ↔ keyword word = setting.spelling := by
  constructor
  · intro h
    unfold ofWord? at h
    split at h <;> cases h <;> assumption
  · intro h
    unfold ofWord?
    rw [h]
    cases setting <;> rfl

/-- The keyword, in lower case, that leads to a place. -/
def Context.keyword? : Context → Option String
  | .settingsOpen => some "config"
  | .constantName => some "const"
  | .controlName => some "control"
  | .sequenceName isMacro => some (if isMacro then "macro" else "sequence")
  | .fillingOpen => some "empty"
  | .entrypointsOpen => some "entrypoints"
  | _ => none

/-- A word starts a definition exactly if it is one of the keywords. -/
theorem Context.ofKeyword?_eq_some_iff {word : String} {next : Context} :
    ofKeyword? word = some next ↔ next.keyword? = some (keyword word) := by
  constructor
  · intro h
    unfold ofKeyword? at h
    split at h
    case h_8 => cases h
    all_goals
      next hword =>
        cases h
        rw [hword]
        rfl
  · intro h
    unfold ofKeyword?
    generalize keyword word = text at h
    cases next with
    | sequenceName isMacro => cases isMacro <;> cases h <;> rfl
    | _ => cases h <;> rfl

/-- A token is a mask exactly if it is a position or a range without a sign. -/
theorem maskOf?_eq_some_iff {kind : TokenKind} {mask : Mask} :
    Reader.maskOf? kind = some mask ↔ mask.Written kind := by
  constructor
  · intro h
    unfold Reader.maskOf? at h
    split at h
    · next bit =>
      split at h
      · next hsign =>
        cases h
        have hwritten := Mask.Written.position bit.toNat
        rwa [Int.toNat_of_nonneg hsign] at hwritten
      · cases h
    · next msb lsb =>
      split at h
      · next hsign =>
        cases h
        have hwritten := Mask.Written.range msb.toNat lsb.toNat
        rwa [Int.toNat_of_nonneg hsign.1, Int.toNat_of_nonneg hsign.2] at hwritten
      · cases h
    · cases h
  · intro h
    cases h <;> simp [Reader.maskOf?]

/-- The word that marks a label, character by character. -/
theorem marksLabel_iff {word name : String} :
    MarksLabel word name ↔
      name.toList ≠ [] ∧ word.toList = ':' :: ':' :: (name.toList ++ [':', ':']) := by
  rw [MarksLabel, ← String.toList_inj, ne_eq, ne_eq, ← String.toList_inj]
  simp

/-- A word has a label exactly if it has the marks around a name. -/
theorem labelName?_eq_some_iff {word name : String} :
    labelName? word = some name ↔ MarksLabel word name := by
  rw [marksLabel_iff]
  constructor
  · intro h
    unfold labelName? at h
    split at h
    · next rest hword =>
      split at h
      · next c reversed hrest =>
        cases h
        -- the word is searched from its end, so the name is found in reverse
        have hreverse : rest = (c :: reversed).reverse ++ [':', ':'] := by
          rw [← List.reverse_reverse rest, hrest]
          simp
        rw [hword, hreverse, String.toList_ofList]
        exact ⟨by simp, rfl⟩
      · cases h
    · cases h
  · rintro ⟨hne, hword⟩
    obtain ⟨c, reversed, hname⟩ := List.exists_cons_of_ne_nil (mt List.reverse_eq_nil_iff.1 hne)
    simp only [labelName?, hword, List.reverse_append, List.reverse_cons, List.reverse_nil,
      List.nil_append, List.cons_append, hname]
    rw [← List.reverse_cons, ← hname, List.reverse_reverse, String.ofList_toList]

/-- A word has no label exactly if no name has its marks. -/
theorem labelName?_eq_none_iff {word : String} :
    labelName? word = none ↔ ∀ name, ¬MarksLabel word name := by
  rw [Option.eq_none_iff_forall_ne_some]
  exact forall_congr' fun name => not_congr labelName?_eq_some_iff

/-- The word that opens an assertion does not mark a label. -/
theorem labelName?_of_isAssert {word : String} (h : isAssert word = true) :
    labelName? word = none := by
  rw [labelName?_eq_none_iff]
  intro name hname
  obtain ⟨-, hword⟩ := marksLabel_iff.1 hname
  have hletters : word.toList.map lowerAscii = "assert".toList.map lowerAscii := by
    simpa [isAssert, equalIgnoringCase] using h
  have hfirst := congrArg List.head? hletters
  rw [hword, List.map_cons, List.head?_cons] at hfirst
  revert hfirst
  decide

end ControlStore
