import ControlStore.Bits.Word
import ControlStore.Failure
import ControlStore.Program

/-!
# Encoding of control words

The bank goes into the selector in the low bits of a word. Every signal is written above the
selector, at the range of its control line. Where ranges overlap the later signal wins, and a value
that its range cannot hold is cut off with a warning.
-/

namespace ControlStore

/-- The warning for a value that a control line cannot hold. -/
def Control.truncation (control : Control) (line : Nat) (value : Int) : List Notice :=
  if 0 ≤ value ∧ value ≤ control.mask.maxValue then []
  else [.valueTruncated control.name line control.mask.maxValue value]

namespace Program

/-- Writes a signal of the assertion on the given line into its word. -/
def writeSignal (program : Program) (line : Nat) (word : Word) (signal : Signal) :
    Report WriteError Word :=
  match signal.value with
  | .symbol name => .fail (.unresolved name line)
  | .integer value =>
    { log := signal.control.truncation line value
      result :=
        (word.writeMask signal.control.mask program.bankMask.length (pattern value)).mapError
          (WriteError.bits line) }

/-- The word in which only the bank of an assertion is set. -/
def bankWord (program : Program) (assertion : Assertion) : Except WriteError Word :=
  ((Word.zero program.wordWidth).writeMask program.bankMask 0 assertion.bank).mapError
    (WriteError.bits assertion.line)

/-- The word that an assertion describes. -/
def encode (program : Program) (assertion : Assertion) : Report WriteError Word := do
  let word ← program.bankWord assertion
  assertion.signals.foldlM (program.writeSignal assertion.line) word

/-- The word of a step, which must not be a macro reference any more. -/
def encodeStep (program : Program) : Step → Report WriteError Word
  | .assertion a => program.encode a
  | .reference r => .fail (.unexpandedMacro r.line)

end Program

end ControlStore
