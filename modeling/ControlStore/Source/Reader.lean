import ControlStore.Source.Context
import ControlStore.Source.Scan

/-!
# Reading of programs

A `Reader` holds the program as far as it has been read. Tokens are taken one at a time: `step`
goes from one `Context` to the next and does to the program what the token completes. A program
is read to its end if the last token leads back to the place between definitions.

What was defined before an error stays defined, and a reader can go on with another text. It
remembers whether the bank mask has been set, and the line it has reached.
-/

namespace ControlStore

/-- A program that is being read. -/
structure Reader where
  program : Program := {}
  /-- The line of the last token that was taken. -/
  line : Nat := 1
  hasBankMask : Bool := false
  deriving Inhabited

namespace Reader

/-- A step of reading. -/
abbrev Reading := Stage ParseError Reader

/-- Changes the program that is being read. -/
def edit (f : Program → Program) : Reading Unit :=
  modify fun reader => { reader with program := f reader.program }

/-- Fails because of what stands on the line of a token. -/
def failAt {α : Type} (token : Token) (cause : ParseCause) : Reading α :=
  Stage.fail ⟨token.line, cause⟩

/-- Fails because a token is not what the place allows. -/
def unexpected {α : Type} (context : Context) (token : Token) : Reading α :=
  failAt token (.unexpected context.expectation token.text)

/-! ## Symbols -/

/-- Refuses names that a dotted path could not reach. -/
def checkName (token : Token) (name : String) : Reading Unit :=
  if '.' ∈ name.toList then failAt token (.dottedName name) else pure ()

/-- Binds a global symbol. A second binding of a name replaces the first. -/
def define (token : Token) (name : String) (symbol : Symbol) : Reading Unit := do
  checkName token name
  if (← get).program.symbols.contains name then
    Stage.note (.symbolOverridden name token.line)
  edit fun program => { program with symbols := program.symbols.bind name symbol }

/-! ## Configuration and control lines -/

/-- Takes a number that must not be negative. -/
def natural (context : Context) (token : Token) : Reading Nat :=
  match token.kind with
  | .integer value => if value < 0 then failAt token (.negative value) else pure value.toNat
  | _ => unexpected context token

def setting (token : Token) : Reading Context :=
  match token.kind with
  | .closeBlock => pure .definition
  | .word word =>
    match Setting.ofWord? word with
    | some setting => pure (.settingValue setting)
    | none => unexpected .settings token
  | _ => unexpected .settings token

/-- Gives a setting its value. The bank selector starts at bit 0. -/
def configure (setting : Setting) (value : Nat) : Reading Unit :=
  match setting with
  | .wordWidth => do
    edit fun program => { program with wordWidth := value }
    Stage.note (.wordWidthSet value)
  | .length => do
    edit fun program => { program with length := value }
    Stage.note (.lengthSet value)
  | .opcodeWidth => do
    edit fun program => { program with opcodeWidth := value }
    Stage.note (.opcodeWidthSet value)
  | .bankMask => do
    edit fun program => { program with bankMask := ⟨value, 0⟩ }
    modify fun reader => { reader with hasBankMask := true }
    Stage.note (.bankMaskSet ⟨value, 0⟩)

/-- The range of bits of a control line: one position, or a pair of positions. -/
def maskOf? : TokenKind → Option Mask
  | .integer bit => if 0 ≤ bit then some (.single bit.toNat) else none
  | .pair (.integer msb) (.integer lsb) =>
    if 0 ≤ msb ∧ 0 ≤ lsb then some ⟨msb.toNat, lsb.toNat⟩ else none
  | _ => none

/-- Adds a control line, whose name must be new. -/
def addControl (token : Token) (control : Control) : Reading Unit := do
  if (← get).program.controls.contains control.name then
    failAt token (.controlRepeated control.name)
  Stage.note (.controlAdded control.name control.bank control.mask)
  edit fun program =>
    { program with controls := program.controls.insert control.name control }

/-! ## Sequences and macros -/

/-- The parameters that a list of values declares. -/
def parameters (token : Token) : List Value → Reading (List String)
  | [] => pure []
  | .symbol name :: rest => do return name :: (← parameters token rest)
  | .integer _ :: _ => failAt token .parameterNotWord

/-- After its name, a macro may declare parameters. -/
def sequenceHead (draft : Draft) (token : Token) : Reading Context :=
  match token.kind with
  | .list items =>
    if draft.code.isMacro then do
      return .sequenceOpen (draft.setParameters (← parameters token items))
    else failAt token .parametersOnSequence
  | .openBlock => pure (.statement draft)
  | _ => unexpected (.sequenceHead draft) token

/-- Binds a sequence or macro that is complete. -/
def finishSequence (draft : Draft) (token : Token) : Reading Context := do
  define token draft.name (.sequence draft.code draft.locals)
  Stage.note (if draft.code.isMacro then .macroRead draft.name else .sequenceRead draft.name)
  return .definition

/-- Marks a place in a sequence. Labels of one sequence have different names. -/
def placeLabel (draft : Draft) (token : Token) (label : String) : Reading Context := do
  checkName token label
  if draft.locals.contains label then failAt token (.labelRepeated label draft.name)
  return .statement (draft.addLabel label)

/-- A statement begins with a word, which is a label or waits for the next token. -/
def statement (draft : Draft) (token : Token) : Reading Context :=
  match token.kind with
  | .closeBlock => finishSequence draft token
  | .word word =>
    match labelName? word with
    | some label => placeLabel draft token label
    | none => pure (.statementWord draft token.line word)
  | _ => unexpected (.statement draft) token

/-! ## Assertions -/

/-- Stores an assertion that is complete. -/
def finishAssertion (assertion : Assertion) : Purpose → Reading Context
  | .step draft => pure (.statement (draft.addStep (.assertion assertion)))
  | .filling => do
    if (← get).program.emptyAssertion.isSome then Stage.note (.emptyOverridden assertion.line)
    edit fun program => { program with emptyAssertion := some assertion }
    return .definition

/-- Adds a signal on a control line that is known by name. -/
def addSignal (assertion : Assertion) (token : Token) (name : String) (value : Value) :
    Reading Assertion := do
  match (← get).program.controls[name]? with
  | some control =>
    Stage.ofReport <| (assertion.add control value).mapError fun conflict =>
      ParseError.mk assertion.line (.conflict conflict)
  | none => failAt token (.controlUnknown name)

def signals (purpose : Purpose) (assertion : Assertion) (token : Token) : Reading Context :=
  match token.kind with
  | .closeBlock => finishAssertion assertion purpose
  | .comma => pure (.signals purpose assertion)
  | .pair (.symbol name) value => do
    return .signals purpose (← addSignal assertion token name value)
  | _ => unexpected (.signals purpose assertion) token

/-! ## Entrypoints -/

/-- Binds an opcode to a sequence. -/
def bindOpcode (token : Token) (opcode : Nat) (symbol : String) : Reading Unit := do
  let isBound := (← get).program.entrypoints.contains opcode
  edit fun program => { program with entrypoints := program.entrypoints.insert opcode symbol }
  if isBound then Stage.note (.entrypointOverridden token.line)

/-- Binds the entrypoint that a key names to a sequence. -/
def bindEntrypoint (token : Token) (key : Value) (symbol : String) : Reading Unit :=
  match key with
  | .symbol name =>
    if equalIgnoringCase name "fetch" then
      edit fun program => { program with fetch := some symbol }
    else if equalIgnoringCase name "interrupt" then
      edit fun program => { program with interrupt := some symbol }
    else failAt token (.entrypointInvalid token.text)
  | .integer opcode =>
    if 0 ≤ opcode then bindOpcode token opcode.toNat symbol
    else failAt token (.entrypointInvalid token.text)

def entrypoint (token : Token) : Reading Context :=
  match token.kind with
  | .closeBlock => pure .definition
  | .comma => pure .entrypoints
  | .pair key (.symbol symbol) => do
    bindEntrypoint token key symbol
    return .entrypoints
  | .pair _ (.integer _) => failAt token (.entrypointNotSymbol token.text)
  | _ => unexpected .entrypoints token

/-! ## One token -/

/-- Goes to the given place after the token that opens a block. -/
def openBlock (context next : Context) (token : Token) : Reading Context :=
  match token.kind with
  | .openBlock => pure next
  | _ => unexpected context token

/-- Goes to the given place with the word that the token is. -/
def word (context : Context) (next : String → Context) (token : Token) : Reading Context :=
  match token.kind with
  | .word word => pure (next word)
  | _ => unexpected context token

/-- What a token does at a place, once it is known to belong there: behind the first word of a
statement it only counts as taken if that word is `assert`. -/
def take (context : Context) (token : Token) : Reading Context :=
  match context with
  | .definition =>
    match token.kind with
    | .word word =>
      match Context.ofKeyword? word with
      | some next => pure next
      | none => unexpected context token
    | _ => unexpected context token
  | .settingsOpen => openBlock context .settings token
  | .settings => setting token
  | .settingValue setting => do
    configure setting (← natural context token)
    return .settings
  | .constantName => word context .constantValue token
  | .constantValue name =>
    match token.kind with
    | .integer value => do
      define token name (.constant value)
      return .definition
    | _ => unexpected context token
  | .controlName => word context .controlBank token
  | .controlBank name => do return .controlMask name (← natural context token)
  | .controlMask name bank =>
    match maskOf? token.kind with
    | some mask => do
      addControl token { name, mask, bank }
      return .definition
    | none => unexpected context token
  | .sequenceName isMacro =>
    word context (fun name => .sequenceHead { name, code := { isMacro } }) token
  | .sequenceHead draft => sequenceHead draft token
  | .sequenceOpen draft => openBlock context (.statement draft) token
  | .statement draft => statement draft token
  -- only the word `assert` gets here, and an assertion has to follow it
  | .statementWord draft _ _ =>
    openBlock context (.signals (.step draft) { line := token.line }) token
  | .fillingOpen => openBlock context (.signals .filling { line := token.line }) token
  | .signals purpose assertion => signals purpose assertion token
  | .entrypointsOpen => openBlock context .entrypoints token
  | .entrypoints => entrypoint token

/-- What a token does. A word followed by a list is a reference to a macro. Any other word but
`assert` begins no statement, which is found on the word's own line. -/
def step (context : Context) (token : Token) : Reading Context :=
  match context, token.kind with
  | .statementWord draft line word, .list arguments => do
    modify fun reader => { reader with line := token.line }
    return .statement (draft.addStep (.reference { line, symbol := word, arguments }))
  | .statementWord draft line word, _ =>
    if isAssert word then do
      modify fun reader => { reader with line := token.line }
      take (.statementWord draft line word) token
    else Stage.fail ⟨line, .unexpected .statement word⟩
  | context, _ => do
    modify fun reader => { reader with line := token.line }
    take context token

/-! ## A whole text -/

/-- What the end of the text means at a place: nothing between definitions, an error anywhere
else. -/
def finish (context : Context) : Reading Unit := do
  match context with
  | .definition => pure ()
  | .statementWord _ line word =>
    if isAssert word then Stage.fail ⟨(← get).line, .endOfInput context.expectation⟩
    else Stage.fail ⟨line, .unexpected .statement word⟩
  | context => Stage.fail ⟨(← get).line, .endOfInput context.expectation⟩

/-- Reads all definitions in a list of tokens. -/
def definitions (tokens : List Token) : Reading Unit := do
  finish (← tokens.foldlM step .definition)

/-- Checks that the program is complete and consistent. -/
def check : Reading Unit := do
  let reader ← get
  if !reader.hasBankMask then Stage.fail ⟨reader.line, .bankMaskMissing⟩
  Stage.ofReport <| .ofExcept <| reader.program.validate.mapError fun error =>
    ParseError.mk reader.line (.configuration error)

/-- Reads a text into the program. -/
def readText (text : String) : Reading Unit := do
  let tokens ← tokenize text
  definitions tokens
  check

/-- Reads a text that may be missing. -/
def read (input : Except ReadFailure String) : Reading Unit := do
  match input with
  | .ok text => readText text
  | .error failure => Stage.fail ⟨(← get).line, .unreadable failure⟩

end Reader

/-- The text that a sequence of bytes encodes. -/
def decodeText (bytes : ByteArray) : Except ReadFailure String :=
  match String.fromUTF8? bytes with
  | some text => .ok text
  | none => .error .invalidText

end ControlStore
