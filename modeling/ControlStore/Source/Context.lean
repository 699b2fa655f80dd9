import ControlStore.Source.Error
import ControlStore.Source.Token
import ControlStore.Text.Character

/-!
# Places in a program's text

A program is a list of definitions without nesting beyond a block inside a block, so what may come
next depends on a bounded amount of what came before. A `Context` is that much: the place that has
been reached and the parts of the unfinished definition.
-/

namespace ControlStore

/-- A setting of the configuration block. -/
inductive Setting where
  | wordWidth
  | length
  | opcodeWidth
  | bankMask
  deriving DecidableEq, Repr

/-- The setting that a word names, in whatever case it is written. -/
def Setting.ofWord? (word : String) : Option Setting :=
  match keyword word with
  | "controlwordwidth" => some .wordWidth
  | "microprogramlength" => some .length
  | "opwidth" => some .opcodeWidth
  | "bankmask" => some .bankMask
  | _ => none

/-- A sequence or macro of which a part has been read. -/
structure Draft where
  name : String
  code : Code
  locals : SymbolTree := .empty

namespace Draft

/-- Appends a step. -/
def addStep (draft : Draft) (step : Step) : Draft :=
  { draft with code := { draft.code with steps := draft.code.steps ++ [step] } }

/-- Marks the place that has been reached with a label. -/
def addLabel (draft : Draft) (name : String) : Draft :=
  { draft with
    locals := draft.locals.bind name (.label { offset := draft.code.steps.length }) }

def setParameters (draft : Draft) (parameters : List String) : Draft :=
  { draft with code := { draft.code with parameters } }

end Draft

/-- What an assertion is read for: a step of a draft, or the filling of unused addresses. -/
inductive Purpose where
  | step (draft : Draft)
  | filling

/-- The place that has been reached in a program's text. -/
inductive Context where
  /-- Between definitions. -/
  | definition
  | settingsOpen
  | settings
  | settingValue (setting : Setting)
  | constantName
  | constantValue (name : String)
  | controlName
  | controlBank (name : String)
  | controlMask (name : String) (bank : Nat)
  | sequenceName (isMacro : Bool)
  /-- After the name of a sequence or macro, where parameters may follow. -/
  | sequenceHead (draft : Draft)
  | sequenceOpen (draft : Draft)
  | statement (draft : Draft)
  /-- After the first word of a statement that is not a label. -/
  | statementWord (draft : Draft) (line : Nat) (word : String)
  /-- After the keyword of the assertion for unused addresses. -/
  | fillingOpen
  | signals (purpose : Purpose) (assertion : Assertion)
  | entrypointsOpen
  | entrypoints

namespace Context

/-- The place behind the keyword that opens a definition. -/
def ofKeyword? (word : String) : Option Context :=
  match keyword word with
  | "config" => some settingsOpen
  | "const" => some constantName
  | "control" => some controlName
  | "sequence" => some (sequenceName false)
  | "macro" => some (sequenceName true)
  | "empty" => some fillingOpen
  | "entrypoints" => some entrypointsOpen
  | _ => none

/-- What may come next at a place. -/
def expectation : Context → Expectation
  | definition => .keyword
  | settingsOpen => .openBlock
  | settings => .setting
  | settingValue _ => .integer
  | constantName => .word
  | constantValue _ => .integer
  | controlName => .word
  | controlBank _ => .integer
  | controlMask _ _ => .controlMask
  | sequenceName _ => .word
  | sequenceHead _ => .openBlock
  | sequenceOpen _ => .openBlock
  | statement _ => .statement
  | statementWord _ _ _ => .openBlock
  | fillingOpen => .openBlock
  | signals _ _ => .signal
  | entrypointsOpen => .openBlock
  | entrypoints => .entrypoint

end Context

/-- The name of the label that a word of the form `::name::` marks. -/
def labelName? (word : String) : Option String :=
  match word.toList with
  | ':' :: ':' :: rest =>
    match rest.reverse with
    | ':' :: ':' :: c :: name => some (String.ofList (c :: name).reverse)
    | _ => none
  | _ => none

/-- Is the word the one that opens an assertion? -/
def isAssert (word : String) : Bool := equalIgnoringCase word "assert"

end ControlStore
