import ControlStore.Text.Split

/-!
# Command line arguments

The program takes two options with a value, `--input` and `--output`, and the flag `--debug`, each
at most once, and has the flags `--help` and `--version`. Each has a short form. The value of an
option is the next argument, or is attached to it.

Arguments are taken from left to right. An option without attached value is *pending* until the
next option or flag, or the end of the arguments: only then is it found that its value is missing
or that it was given before. Arguments that mean nothing are reported at once.
-/

namespace ControlStore

/-- What the user asked for. -/
structure Options where
  input : Option String := none
  output : Option String := none
  debug : Bool := false
  deriving DecidableEq, Repr, Inhabited

/-- Why the arguments do not lead to a compilation. -/
inductive UsageError where
  | unknownArgument
  | missingValue
  | repeated
  | unexpectedValue
  | helpRequested
  | versionRequested
  deriving DecidableEq, Repr

/-- An option with a value. -/
inductive ValueOption where
  | input
  | output
  deriving DecidableEq, Repr

/-- A flag. -/
inductive Flag where
  | debug
  | help
  | version
  deriving DecidableEq, Repr

/-- What the name of an option can mean. -/
inductive Switch where
  | value (option : ValueOption)
  | flag (flag : Flag)
  deriving DecidableEq, Repr

def Switch.ofName? : String → Option Switch
  | "input" => some (.value .input)
  | "output" => some (.value .output)
  | "debug" => some (.flag .debug)
  | "help" => some (.flag .help)
  | "version" => some (.flag .version)
  | _ => none

def Switch.ofLetter? : Char → Option Switch
  | 'i' => some (.value .input)
  | 'o' => some (.value .output)
  | 'd' => some (.flag .debug)
  | 'h' => some (.flag .help)
  | 'V' => some (.flag .version)
  | _ => none

/-- The form of an argument. -/
inductive Argument where
  /-- The argument `--`, after which nothing is an option. -/
  | escape
  | long (name : String) (value : Option String)
  | short (letters : List Char)
  | plain (text : String)
  deriving DecidableEq, Repr

def Argument.ofText (text : String) : Argument :=
  match text.toList with
  | ['-', '-'] => .escape
  | '-' :: '-' :: rest =>
    match splitOnce '=' rest with
    | some (name, value) => .long (String.ofList name) (some (String.ofList value))
    | none => .long (String.ofList rest) none
  | '-' :: c :: letters => .short (c :: letters)
  | _ => .plain text

/-- Gives an option its value, which it must not have yet. -/
def Options.assign (options : Options) (value : String) : ValueOption → Except UsageError Options
  | .input =>
    if options.input.isSome then .error .repeated else .ok { options with input := some value }
  | .output =>
    if options.output.isSome then .error .repeated else .ok { options with output := some value }

/-- The options as far as arguments have been taken, and the option whose value is awaited or has
just been given. -/
structure ArgumentState where
  options : Options := {}
  pending : Option (ValueOption × Option String) := none

namespace ArgumentState

/-- The options once the pending one has been dealt with. -/
def settle (state : ArgumentState) : Except UsageError Options :=
  match state.pending with
  | none => .ok state.options
  | some (_, none) => .error .missingValue
  | some (option, some value) => state.options.assign value option

def takeFlag (state : ArgumentState) (flag : Flag) : Except UsageError ArgumentState := do
  let options ← state.settle
  match flag with
  | .debug =>
    if options.debug then throw .repeated
    else return { options := { options with debug := true } }
  | .help => throw .helpRequested
  | .version => throw .versionRequested

def takeOption (state : ArgumentState) (option : ValueOption) (value : Option String) :
    Except UsageError ArgumentState := do
  let options ← state.settle
  match value with
  | some value => return { options := ← options.assign value option }
  | none => return { options, pending := some (option, none) }

def takeLong (state : ArgumentState) (name : String) (value : Option String) :
    Except UsageError ArgumentState :=
  match Switch.ofName? name, value with
  | some (.value option), value => state.takeOption option value
  | some (.flag flag), none => state.takeFlag flag
  | some (.flag _), some _ => .error .unexpectedValue
  | none, _ => .error .unknownArgument

/-- Takes the letters of a short argument. What follows the letter of an option is its value, with
or without an equals sign between. -/
def takeShort (state : ArgumentState) : List Char → Except UsageError ArgumentState
  | [] => .ok state
  | c :: rest =>
    match Switch.ofLetter? c with
    | some (.flag flag) => do (← state.takeFlag flag).takeShort rest
    | some (.value option) =>
      match rest with
      | [] => state.takeOption option none
      | '=' :: value => state.takeOption option (some (String.ofList value))
      | value => state.takeOption option (some (String.ofList value))
    | none => .error .unknownArgument

/-- Takes an argument that is no option: it has to be the value of the pending one. -/
def takePlain (state : ArgumentState) (text : String) : Except UsageError ArgumentState :=
  match state.pending with
  | some (option, none) => .ok { state with pending := some (option, some text) }
  | _ => .error .unknownArgument

/-- Takes all arguments. -/
def takeAll (state : ArgumentState) : List String → Except UsageError Options
  | [] => state.settle
  | text :: rest =>
    match Argument.ofText text with
    | .escape => if rest = [] then state.settle else .error .unknownArgument
    | .long name value => do (← state.takeLong name value).takeAll rest
    | .short letters => do (← state.takeShort letters).takeAll rest
    | .plain text => do (← state.takePlain text).takeAll rest

end ArgumentState

/-- The options that the arguments ask for. -/
def Options.ofArguments (arguments : List String) : Except UsageError Options :=
  ArgumentState.takeAll {} arguments

end ControlStore
