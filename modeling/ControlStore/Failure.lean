import ControlStore.Source.Error

/-!
# Failures

A compilation fails in one of its stages: reading, expansion, linking or image generation. Storing
the image may fail as well, for reasons of the file system. Each stage has errors of its own, with
their wording, and `Failure` says in which stage a program was given up.
-/

namespace ControlStore

/-! ## Macro expansion -/

/-- Why a macro reference cannot be expanded. -/
inductive ExpansionError where
  | undefinedMacro (name : String) (line : Nat)
  | notAMacro (name : String) (line : Nat)
  | argumentCount (name : String) (line given expected : Nat)
  | selfReference (name : String) (line : Nat)
  /-- The macros of a cycle, from one of them back to itself. -/
  | recursiveExpansion (cycle : List String) (line : Nat)
  /-- The tree in which the scope should have been stored does not exist. -/
  | scope (path : String) (line : Nat)
  deriving DecidableEq, Repr

/-- The macros of a cycle as they are written in messages. -/
def cycleText (cycle : List String) : String := " -> ".intercalate cycle

def ExpansionError.message : ExpansionError → String
  | .undefinedMacro name line => s!"Macro '{name}' referenced on line {line} does not exist"
  | .notAMacro name line =>
    s!"Symbol '{name}' referenced on line {line} is a sequence, not a macro"
  | .argumentCount name line given expected =>
    s!"Macro reference on line {line} provides {given} arguments, " ++
      s!"while macro '{name}' has {expected} parameters"
  | .selfReference name line =>
    s!"Caught recursive macro self-reference to '{name}' on line {line}"
  | .recursiveExpansion cycle line =>
    s!"Caught recursive macro expansion {cycleText cycle} on line {line}"
  | .scope path line =>
    s!"Could not create expansion scope '{path}' for the macro reference on line {line}"

/-! ## Linking -/

/-- Why sequences cannot be placed or symbols not be resolved. -/
inductive LinkError where
  | missingFetch
  | notASequence (name : String)
  | macroEntrypoint (name : String)
  | overflow (needed available excess : Nat)
  | unexpandedMacro (line : Nat)
  | undefinedSymbol (symbol : String) (line : Nat)
  | notAValue (symbol : String) (line : Nat)
  | missingEmptyAssertion
  deriving DecidableEq, Repr

def LinkError.message : LinkError → String
  | .missingFetch => "No fetch entrypoint is defined"
  | .notASequence name => s!"Entrypoint '{name}' does not name a sequence"
  | .macroEntrypoint name =>
    s!"Entrypoint '{name}' is a macro (macros cannot be bound to entrypoints)"
  | .overflow needed available excess =>
    s!"Microprogram needs {needed} words but only {available} are available " ++
      s!"({excess} words over)"
  | .unexpandedMacro line => s!"Encountered unexpanded macro on line {line}"
  | .undefinedSymbol symbol line =>
    s!"Symbol '{symbol}' referenced by assertion on line {line} is not defined"
  | .notAValue symbol line =>
    s!"Symbol '{symbol}' referenced by assertion on line {line} does not resolve to a value"
  | .missingEmptyAssertion => "No empty assertion is defined"

/-! ## Image generation -/

/-- Why a program has no image. -/
inductive WriteError where
  | unexpandedMacro (line : Nat)
  | unresolved (symbol : String) (line : Nat)
  | undefinedEntrypoint (symbol : String) (opcode : Nat)
  | macroEntrypoint (symbol : String) (opcode : Nat)
  | unplaced (name : String)
  | bits (line : Nat) (error : BitError)
  deriving DecidableEq, Repr

def WriteError.message : WriteError → String
  | .unexpandedMacro line => s!"Unexpanded macro found on line {line}"
  | .unresolved symbol line => s!"Invalid/unresolved symbol '{symbol}' in assertion on line {line}"
  | .undefinedEntrypoint symbol opcode =>
    s!"Symbol '{symbol}' bound to entrypoint {opcode} does not exist"
  | .macroEntrypoint symbol opcode =>
    s!"Symbol '{symbol}' bound to entrypoint {opcode} is a macro " ++
      "(macros cannot be bound to entrypoints)"
  | .unplaced name => s!"Sequence '{name}' was never placed"
  | .bits line error =>
    s!"Assertion on line {line} does not fit the control word: {error.message}"

/-! ## Files -/

/-- Why a file or directory could not be used. -/
inductive FileError where
  | notFound
  | alreadyExists
  | notADirectory
  | isADirectory
  | permissionDenied
  | nameTooLong
  /-- Any other reason, with the system's code and wording. -/
  | other (code : Nat) (description : String)
  deriving DecidableEq, Repr

namespace FileError

/-- The code that the operating system gives to the error. -/
def code : FileError → Nat
  | notFound => 2
  | permissionDenied => 13
  | alreadyExists => 17
  | notADirectory => 20
  | isADirectory => 21
  | nameTooLong => 36
  | other code _ => code

/-- The kind of the error. -/
def kind : FileError → String
  | notFound => "NotFound"
  | permissionDenied => "PermissionDenied"
  | alreadyExists => "AlreadyExists"
  | notADirectory => "NotADirectory"
  | isADirectory => "IsADirectory"
  | nameTooLong => "InvalidFilename"
  | other .. => "Other"

def description : FileError → String
  | notFound => "No such file or directory"
  | permissionDenied => "Permission denied"
  | alreadyExists => "File exists"
  | notADirectory => "Not a directory"
  | isADirectory => "Is a directory"
  | nameTooLong => "File name too long"
  | other _ description => description

def message (error : FileError) : String := s!"{error.description} (os error {error.code})"

end FileError

/-! ## Compilation -/

/-- Why a program was not compiled. -/
inductive Failure where
  | parse (error : ParseError)
  | expansion (error : ExpansionError)
  | link (error : LinkError)
  | write (error : WriteError)
  | file (error : FileError)
  deriving DecidableEq, Repr

def Failure.message : Failure → String
  | .parse error => error.message
  | .expansion error => s!"Error expanding microprogram: {error.message}"
  | .link error => s!"Error linking microprogram: {error.message}"
  | .write error => s!"Error writing microprogram: {error.message}"
  | .file error => s!"IO error: {error.message}"

end ControlStore
