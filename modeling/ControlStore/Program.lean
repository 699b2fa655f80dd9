import Std.Data.TreeMap
import ControlStore.Symbol

/-!
# Programs

A program is the configuration of a control store, the control lines of its words, the
entrypoints, the word for unused addresses, and the tree of global symbols.

Bank selector and signals share a word: the selector takes the low bits, and every signal is moved
up by the selector's length. `Program.validate` checks that all control lines fit beside the
selector and that bound opcodes exist.
-/

namespace ControlStore

/-- A control store program. -/
structure Program where
  /-- The number of bits of a control word. -/
  wordWidth : Nat := 0
  /-- The number of bits of an opcode. -/
  opcodeWidth : Nat := 0
  /-- The number of words in the store. -/
  length : Nat := 0
  /-- The low bits of every word that select the bank. -/
  bankMask : Mask := .single 0
  controls : Std.TreeMap String Control := ∅
  /-- The sequences bound to opcodes. -/
  entrypoints : Std.TreeMap Nat String := ∅
  fetch : Option String := none
  interrupt : Option String := none
  /-- The assertion that fills unused addresses. -/
  emptyAssertion : Option Assertion := none
  symbols : SymbolTree := .empty
  deriving Inhabited

/-- What is wrong with the configuration or the control lines of a program. -/
inductive ConfigurationError where
  | lengthZero
  | opcodeWidthZero
  | opcodeWidthTooLarge
  | wordWidthZero
  | wordTooNarrow (wordWidth bankWidth : Nat)
  | controlTooWide (name : String) (room : Nat)
  | bankTooLarge (name : String) (bank maximum : Nat)
  | opcodeTooLarge (opcode opcodeWidth : Nat)
  deriving DecidableEq, Repr

def ConfigurationError.message : ConfigurationError → String
  | .lengthZero => "The microprogram length must be greater than zero"
  | .opcodeWidthZero => "The opcode width must be greater than zero"
  | .opcodeWidthTooLarge => "The opcode width must be less than 32"
  | .wordWidthZero => "The control word width must be greater than zero"
  | .wordTooNarrow wordWidth bankWidth =>
    s!"Control word width of {wordWidth} is invalid, " ++
      s!"as the bank selector has a width of {bankWidth}"
  | .controlTooWide name room =>
    s!"Control word label '{name}' exceeds the maximum control word width of {room}"
  | .bankTooLarge name bank maximum =>
    s!"Control word label '{name}' is on bank {bank}, " ++
      s!"but the bank selector only encodes banks up to {maximum}"
  | .opcodeTooLarge opcode opcodeWidth =>
    s!"Entrypoint {opcode} does not fit the opcode width of {opcodeWidth}"

namespace Program

/-- A stage on the global symbols as a stage on the whole program. -/
def onSymbols {ε α : Type} (stage : Stage ε SymbolTree α) : Stage ε Program α := fun program =>
  let outcome := stage.run program.symbols
  { outcome.toReport with state := { program with symbols := outcome.state } }

/-- The highest bank that the selector can name. -/
def maxBank (program : Program) : Nat := program.bankMask.maxValue

/-- The number of opcodes. The width counts modulo 2^32; from 64 bits on, the number is cut off at
the largest 64-bit number. -/
def opcodeCount (program : Program) : Nat :=
  let width := program.opcodeWidth % 0x100000000
  if width < 64 then 1 <<< width else maxPattern

/-- The number of binary digits of the highest address, at least one. -/
def addressWidth (program : Program) : Nat := (program.length - 1).log2 + 1

/-- The bits left for signals beside the bank selector. -/
def signalRoom (program : Program) : Nat := program.wordWidth - program.bankMask.length

/-- Does a control line fit into the word and its bank into the selector? -/
def checkControl (program : Program) (control : Control) : Except ConfigurationError Unit :=
  if program.wordWidth ≤ control.mask.upper + program.bankMask.length then
    .error (.controlTooWide control.name program.signalRoom)
  else if program.maxBank < control.bank then
    .error (.bankTooLarge control.name control.bank program.maxBank)
  else .ok ()

/-- Does the highest bound opcode exist? -/
def checkOpcodes (program : Program) : Except ConfigurationError Unit :=
  match program.entrypoints.keys.getLast? with
  | some opcode =>
    if program.opcodeCount ≤ opcode then .error (.opcodeTooLarge opcode program.opcodeWidth)
    else .ok ()
  | none => .ok ()

/-- Checks the configuration, then the control lines by name, then the opcodes. -/
def validate (program : Program) : Except ConfigurationError Unit := do
  if program.length = 0 then throw .lengthZero
  if program.opcodeWidth = 0 then throw .opcodeWidthZero
  if 32 ≤ program.opcodeWidth then throw .opcodeWidthTooLarge
  if program.wordWidth = 0 then throw .wordWidthZero
  if program.wordWidth ≤ program.bankMask.length + 1 then
    throw (.wordTooNarrow program.wordWidth program.bankMask.length)
  program.controls.values.forM program.checkControl
  program.checkOpcodes

end Program

end ControlStore
