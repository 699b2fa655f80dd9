import ControlStore.Assertion

/-!
# Sequences of steps

The body of a sequence or of a macro is a list of steps, each an assertion or a reference to a
macro that stands for the steps of its body. A label marks a place between steps.
-/

namespace ControlStore

/-- A use of a macro as a step. A reference that was copied out of a macro body remembers the scope
of that expansion as its parent, and as its callers the macros that led to it, outermost first. -/
structure Reference where
  line : Nat
  symbol : String
  arguments : List Value := []
  parent : String := ""
  callers : List String := []
  deriving DecidableEq, Repr, Inhabited

/-- One step of a sequence. -/
inductive Step where
  | assertion (assertion : Assertion)
  | reference (reference : Reference)
  deriving DecidableEq, Repr, Inhabited

/-- The macro reference that a step is, if it is one. -/
def Step.reference? : Step → Option Reference
  | .assertion _ => none
  | .reference r => some r

/-- A place in a sequence: the number of steps before it, and the address of the first step. -/
structure Label where
  offset : Nat
  base : Nat := 0
  deriving DecidableEq, Repr, Inhabited

/-- The address that a label stands for. -/
def Label.address (label : Label) : Nat := label.base + label.offset

/-- The steps of a sequence or macro, with its parameters and the address of its first step. -/
structure Code where
  steps : List Step := []
  parameters : List String := []
  address : Nat := 0
  isMacro : Bool := false
  deriving DecidableEq, Repr, Inhabited

/-- The first macro reference among the steps. -/
def Code.firstReference? (code : Code) : Option Reference := code.steps.findSome? Step.reference?

end ControlStore
