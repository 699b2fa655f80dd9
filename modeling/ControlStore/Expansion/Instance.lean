import ControlStore.Failure
import ControlStore.Symbol

/-!
# Instances of macros

Expanding a reference makes an instance of a macro: a copy of its steps in which parameters have
become arguments, and a scope in the host that holds a copy of the macro's names. Symbols that are
names of the macro itself become paths into that scope, so that every instance has its own labels.

References inside a macro are copied with the chain of macros that led to them. A macro that would
be entered a second time along its own chain is an error, which is why expansion comes to an end.
-/

namespace ControlStore

/-- The first number from `n` on for which `stem` followed by the number is not among the taken
names. Numbers are counted without a limit. A count in 32 bits with a sign gives the same number as
long as fewer than 2147483648 of the names are taken. -/
def firstFree (stem : String) (n : Nat) (taken : List String) : Nat :=
  if h : stem ++ toString n ∈ taken then
    have : (taken.erase (stem ++ toString n)).length < taken.length := by
      have := List.length_pos_of_mem h
      rw [List.length_erase_of_mem h]
      omega
    firstFree stem (n + 1) (taken.erase (stem ++ toString n))
  else n
termination_by taken.length

/-- The path of a new scope in the host, up to its number. A reference that was copied out of
another expansion has its scope inside the scope of that expansion. -/
def Reference.scopeStem (reference : Reference) : String :=
  let start := if reference.parent = "" then "_" else reference.parent ++ "._"
  start ++ reference.symbol ++ "_"

/-- The path of the scope for expanding a reference in a host with the given names: the first one
that is free. -/
def Reference.scopePath (reference : Reference) (locals : SymbolTree) : String :=
  let stem := reference.scopeStem
  let path := Path.ofName stem
  stem ++ toString (firstFree (path.getLast?.getD "") 0 (locals.siblings path))

/-- A macro at one of its uses. -/
structure MacroInstance where
  /-- The path of the instance's scope in the host. -/
  scope : String
  reference : Reference
  parameters : List String
  /-- The names of the macro itself. -/
  locals : SymbolTree

namespace MacroInstance

/-- What a value of the macro's body stands for in the instance. The first parameter of that name
counts, and parameters go before names of the macro. -/
def substitute (inst : MacroInstance) : Value → Value
  | .integer value => .integer value
  | .symbol name =>
    match (inst.parameters.zip inst.reference.arguments).lookup name with
    | some argument => argument
    | none =>
      if inst.locals.contains name then .symbol (inst.scope ++ "." ++ name) else .symbol name

def copyAssertion (inst : MacroInstance) (assertion : Assertion) : Assertion :=
  { assertion with
    signals := assertion.signals.map fun signal =>
      { signal with value := inst.substitute signal.value } }

/-- Copies a reference of the macro's body, unless it leads back to a macro of the chain. -/
def copyReference (inst : MacroInstance) (nested : Reference) : Except ExpansionError Reference :=
  let name := inst.reference.symbol
  if nested.symbol = name then .error (.selfReference name nested.line)
  else
    match inst.reference.callers.dropWhile (· ≠ nested.symbol) with
    | [] =>
      .ok { nested with
        arguments := nested.arguments.map inst.substitute
        parent := inst.scope
        callers := inst.reference.callers ++ [name] }
    | chain => .error (.recursiveExpansion (chain ++ [name, nested.symbol]) nested.line)

def copyStep (inst : MacroInstance) : Step → Except ExpansionError Step
  | .assertion a => .ok (.assertion (inst.copyAssertion a))
  | .reference r => (inst.copyReference r).map .reference

end MacroInstance

/-- The macro that a reference names, given enough arguments for its parameters. -/
def SymbolTree.macroOf (symbols : SymbolTree) (reference : Reference) :
    Except ExpansionError (Code × SymbolTree) :=
  match symbols.find? reference.symbol with
  | some (.sequence code locals) =>
    if !code.isMacro then .error (.notAMacro reference.symbol reference.line)
    else if reference.arguments.length < code.parameters.length then
      .error (.argumentCount reference.symbol reference.line reference.arguments.length
        code.parameters.length)
    else .ok (code, locals)
  | _ => .error (.undefinedMacro reference.symbol reference.line)

end ControlStore
