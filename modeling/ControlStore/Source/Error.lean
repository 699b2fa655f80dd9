import ControlStore.Program

/-!
# Errors in a program's text

An error is found on a line and has a cause. Causes are kept apart by the part of the language they
belong to: characters, tokens, assertions, configuration.
-/

namespace ControlStore

/-- What can be wrong with the characters of a program. -/
inductive LexicalError where
  | unexpectedClose
  | unfinishedComment
  | unfinishedString
  | unfinishedList
  | emptyEntry
  | missingValue
  | malformedHexadecimal
  | invalidSelector (text : String)
  | selector (error : BitError)
  deriving DecidableEq, Repr

def LexicalError.message : LexicalError → String
  | .unexpectedClose => "Unexpected ')'"
  | .unfinishedComment => "Unfinished block comment"
  | .unfinishedString => "Unfinished string"
  | .unfinishedList => "Unfinished parameter/argument list"
  | .emptyEntry => "Empty entry in list"
  | .missingValue => "Missing value after ':'"
  | .malformedHexadecimal => "Malformed hexadecimal number"
  | .invalidSelector text => s!"Invalid bit selector '{text}'"
  | .selector error => error.message

/-- What the language allows at a place in a program. -/
inductive Expectation where
  | keyword
  | word
  | integer
  | openBlock
  | controlMask
  | setting
  | statement
  | signal
  | entrypoint
  deriving DecidableEq, Repr

namespace Expectation

/-- The wording for a token that is not what was expected. -/
def text : Expectation → String
  | .keyword => "Keyword"
  | .word => "Word"
  | .integer => "Integer"
  | .openBlock => "'\x7b'"
  | .controlMask => "Number or Number:Number pair"
  | .setting => "Config name"
  | .statement => "Statement"
  | .signal => "Signal assertion"
  | .entrypoint => "Entrypoint"

/-- Inside a block, its end is allowed as well. -/
def isInBlock : Expectation → Bool
  | .setting | .statement | .signal | .entrypoint => true
  | .keyword | .word | .integer | .openBlock | .controlMask => false

/-- The wording for a text that ends too early. -/
def textAtEnd (expectation : Expectation) : String :=
  if expectation.isInBlock then expectation.text ++ " or '\x7d'" else expectation.text

end Expectation

/-- Why the text of a program cannot be had. -/
inductive ReadFailure where
  | invalidText
  | isDirectory
  deriving DecidableEq, Repr

def ReadFailure.message : ReadFailure → String
  | .invalidText => "stream did not contain valid UTF-8"
  | .isDirectory => "Is a directory (os error 21)"

/-- What is wrong with the text of a program. -/
inductive ParseCause where
  | unreadable (failure : ReadFailure)
  | lexical (error : LexicalError)
  | unexpected (expectation : Expectation) (found : String)
  | endOfInput (expectation : Expectation)
  | negative (value : Int)
  | dottedName (name : String)
  | controlRepeated (name : String)
  | controlUnknown (name : String)
  | parametersOnSequence
  | parameterNotWord
  | labelRepeated (label sequence : String)
  | entrypointNotSymbol (found : String)
  | entrypointInvalid (found : String)
  | conflict (conflict : SignalConflict)
  | bankMaskMissing
  | configuration (error : ConfigurationError)
  deriving DecidableEq, Repr

def ParseCause.message : ParseCause → String
  | .unreadable failure => s!"Failed to read input: {failure.message}"
  | .lexical error => error.message
  | .unexpected expectation found => s!"{expectation.text} expected, found '{found}'"
  | .endOfInput expectation => s!"{expectation.textAtEnd} expected, found end of input"
  | .negative value => s!"Value '{value}' must not be negative"
  | .dottedName name => s!"Symbol name '{name}' cannot contain '.'"
  | .controlRepeated name => s!"Control word label '{name}' defined more than once"
  | .controlUnknown name => s!"Nonexistent control word label '{name}'"
  | .parametersOnSequence => "Only macros can define a parameter list"
  | .parameterNotWord => "Parameter definitions may only contain words"
  | .labelRepeated label sequence => s!"Label '{label}' defined more than once in '{sequence}'"
  | .entrypointNotSymbol found => s!"Entrypoint pair value must be a symbol, found '{found}'"
  | .entrypointInvalid found => s!"Invalid entrypoint, found '{found}'"
  | .conflict error => error.message
  | .bankMaskMissing => "Missing config 'bankmask'"
  | .configuration error => error.message

/-- A cause and the line on which it was found. -/
structure ParseError where
  line : Nat
  cause : ParseCause
  deriving DecidableEq, Repr

def ParseError.message (error : ParseError) : String :=
  s!"Error on line {error.line}: {error.cause.message}"

end ControlStore
