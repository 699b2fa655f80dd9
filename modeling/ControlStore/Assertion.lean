import ControlStore.Stage

/-!
# Assertions

A value is a number, or a symbol that stands for a number once the program is placed. An assertion
describes one control word: a list of signals, each a control line with the value it is set to. All
signals of an assertion are on one bank. The first signal fixes the bank, and no control may be set
twice. Signals whose bits overlap are accepted with a warning.
-/

namespace ControlStore

/-- A number, or the name of a symbol that is resolved when the program is linked. -/
inductive Value where
  | integer (value : Int)
  | symbol (name : String)
  deriving DecidableEq, Repr, Inhabited

/-- A value as it is written in a program. -/
def Value.text : Value → String
  | .integer value => toString value
  | .symbol name => name

/-- A control line: a named range of bits on one bank of control words. -/
structure Control where
  name : String
  mask : Mask
  bank : Nat
  deriving DecidableEq, Repr, Inhabited

/-- A control line together with the value it is set to. -/
structure Signal where
  control : Control
  value : Value
  deriving DecidableEq, Repr, Inhabited

/-- One control word's worth of signals. -/
structure Assertion where
  line : Nat
  bank : Nat := 0
  signals : List Signal := []
  deriving DecidableEq, Repr, Inhabited

/-- Why a signal cannot join an assertion. -/
inductive SignalConflict where
  /-- The control is on a bank other than that of the signals before it. -/
  | otherBank (name : String) (bank current : Nat)
  /-- The control is set already. -/
  | repeated (name : String)
  deriving DecidableEq, Repr

def SignalConflict.message : SignalConflict → String
  | .otherBank name bank current =>
    s!"Assertion attempts to assert signal '{name}' on bank {bank} " ++
      s!"while already on bank {current}"
  | .repeated name => s!"Signal '{name}' asserted more than once"

namespace Assertion

/-- One warning for each signal of the assertion whose bits overlap those of `control`. -/
def overlapNotices (assertion : Assertion) (control : Control) : List Notice :=
  (assertion.signals.filter fun signal => signal.control.mask.overlaps control.mask).map
    fun signal =>
      .signalsOverlap assertion.line signal.control.name signal.control.mask
        control.name control.mask

/-- Adds a signal at the end of an assertion. -/
def add (assertion : Assertion) (control : Control) (value : Value) :
    Report SignalConflict Assertion :=
  if assertion.signals ≠ [] ∧ assertion.bank ≠ control.bank then
    .fail (.otherBank control.name control.bank assertion.bank)
  else if assertion.signals.any fun signal => signal.control.name = control.name then
    .fail (.repeated control.name)
  else
    { log := assertion.overlapNotices control
      result := .ok { assertion with
        bank := control.bank
        signals := assertion.signals ++ [⟨control, value⟩] } }

end Assertion

end ControlStore
