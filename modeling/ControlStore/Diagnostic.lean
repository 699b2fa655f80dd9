import ControlStore.Failure
import ControlStore.Text.Quoted

/-!
# Diagnostics

When the program gives up it names the failure with all its particulars, as a term: a name with
fields in braces, or with a single part in parentheses.
-/

namespace ControlStore

/-- A named value with its particulars. -/
inductive Detail where
  | number (value : Nat)
  | text (value : String)
  | name (name : String)
  | wrapped (name : String) (inner : Detail)
  | record (name : String) (fields : List (String × Detail))

mutual

/-- A term as it is printed. -/
def Detail.render : Detail → String
  | .number value => toString value
  | .text value => quote value
  | .name name => name
  | .wrapped name inner => name ++ "(" ++ inner.render ++ ")"
  | .record name fields => name ++ " \x7b " ++ ", ".intercalate (renderFields fields) ++ " \x7d"

/-- The fields of a term, each with its name. -/
def renderFields : List (String × Detail) → List String
  | [] => []
  | (key, detail) :: rest => (key ++ ": " ++ detail.render) :: renderFields rest

end

def ParseError.detail (error : ParseError) : Detail :=
  .record "ParseError" [("line_number", .number error.line), ("message", .text error.cause.message)]

def ExpansionError.detail : ExpansionError → Detail
  | .undefinedMacro name line =>
    .record "UndefinedMacro" [("name", .text name), ("line", .number line)]
  | .notAMacro name line => .record "NotAMacro" [("name", .text name), ("line", .number line)]
  | .argumentCount name line given expected =>
    .record "ArgumentCount" [("name", .text name), ("line", .number line),
      ("given", .number given), ("expected", .number expected)]
  | .selfReference name line =>
    .record "SelfReference" [("name", .text name), ("line", .number line)]
  | .recursiveExpansion cycle line =>
    .record "RecursiveExpansion" [("cycle", .text (cycleText cycle)), ("line", .number line)]
  | .scope path line => .record "Scope" [("scope", .text path), ("line", .number line)]

def LinkError.detail : LinkError → Detail
  | .missingFetch => .name "MissingFetch"
  | .notASequence name => .record "NotASequence" [("name", .text name)]
  | .macroEntrypoint name => .record "MacroEntrypoint" [("name", .text name)]
  | .overflow needed available excess =>
    .record "Overflow" [("needed", .number needed), ("available", .number available),
      ("overflow", .number excess)]
  | .unexpandedMacro line => .record "UnexpandedMacro" [("line", .number line)]
  | .undefinedSymbol symbol line =>
    .record "UndefinedSymbol" [("symbol", .text symbol), ("line", .number line)]
  | .notAValue symbol line =>
    .record "NotAValue" [("symbol", .text symbol), ("line", .number line)]
  | .missingEmptyAssertion => .name "MissingEmptyAssertion"

def BitError.detail : BitError → Detail
  | .indexOutOfRange index width =>
    .record "IndexOutOfRange" [("index", .number index), ("width", .number width)]
  | .maskTooWide mask =>
    .record "MaskTooWide"
      [("mask", .record "BitMask" [("msb", .number mask.msb), ("lsb", .number mask.lsb)]),
        ("bits", .number 64)]
  | .invalidDigit digit => .wrapped "InvalidDigit" (.name s!"'{digit}'")

def WriteError.detail : WriteError → Detail
  | .unexpandedMacro line => .record "UnexpandedMacro" [("line", .number line)]
  | .unresolved symbol line =>
    .record "Unresolved" [("symbol", .text symbol), ("line", .number line)]
  | .undefinedEntrypoint symbol opcode =>
    .record "UndefinedEntrypoint" [("symbol", .text symbol), ("opcode", .number opcode)]
  | .macroEntrypoint symbol opcode =>
    .record "MacroEntrypoint" [("symbol", .text symbol), ("opcode", .number opcode)]
  | .unplaced name => .record "Unplaced" [("name", .text name)]
  | .bits line error => .record "Bits" [("line", .number line), ("source", error.detail)]

def FileError.detail (error : FileError) : Detail :=
  .record "Os" [("code", .number error.code), ("kind", .name error.kind),
    ("message", .text error.description)]

def Failure.detail : Failure → Detail
  | .parse error => .wrapped "Parse" error.detail
  | .expansion error => .wrapped "Expansion" error.detail
  | .link error => .wrapped "Link" error.detail
  | .write error => .wrapped "Write" error.detail
  | .file error => .wrapped "Io" error.detail

end ControlStore
