import ControlStore.Layout.Placement

/-!
# Resolution

Once all sequences are placed, every symbol in an assertion is replaced by the number it stands
for. Symbols of a sequence are looked up among its own names first, then among the global ones.
A sequence is resolved as a whole or not at all.
-/

namespace ControlStore

/-- The number that a name stands for in the first scope that knows it. -/
def resolveName (scopes : List SymbolTree) (line : Nat) (name : String) : Except LinkError Int :=
  match scopes.findSome? (·.find? name) with
  | none => .error (.undefinedSymbol name line)
  | some symbol =>
    match symbol.resolve with
    | some value => .ok value
    | none => .error (.notAValue name line)

def Value.resolve (scopes : List SymbolTree) (line : Nat) : Value → Except LinkError Value
  | .integer value => .ok (.integer value)
  | .symbol name => (resolveName scopes line name).map .integer

def Signal.resolve (scopes : List SymbolTree) (line : Nat) (signal : Signal) :
    Except LinkError Signal :=
  (signal.value.resolve scopes line).map fun value => { signal with value }

def Assertion.resolve (scopes : List SymbolTree) (assertion : Assertion) :
    Except LinkError Assertion :=
  (assertion.signals.mapM (Signal.resolve scopes assertion.line)).map fun signals =>
    { assertion with signals }

def Step.resolve (scopes : List SymbolTree) : Step → Except LinkError Step
  | .assertion a => (a.resolve scopes).map .assertion
  | .reference r => .error (.unexpandedMacro r.line)

/-- Resolves all steps of a sequence. -/
def SymbolTree.resolveSequence (symbols : SymbolTree) (name : String) :
    Except LinkError SymbolTree :=
  match symbols.find? name with
  | some (.sequence code locals) =>
    (code.steps.mapM (Step.resolve [locals, symbols])).map fun steps =>
      symbols.adjust (.ofName name) (Symbol.mapSteps fun _ => steps)
  | _ => .ok symbols

/-- Resolves sequences one after another. -/
def resolveSequences : List String → Stage LinkError SymbolTree Unit
  | [] => pure ()
  | name :: names => do
    set (← (← get).resolveSequence name)
    resolveSequences names

namespace Program

/-- Resolves the assertion for unused addresses, which only knows global names. -/
def resolveEmpty (program : Program) : Except LinkError Program :=
  match program.emptyAssertion with
  | none => .error .missingEmptyAssertion
  | some empty =>
    (empty.resolve [program.symbols]).map fun assertion =>
      { program with emptyAssertion := some assertion }

/-- Replaces the symbols in all assertions of a placed program. -/
def resolve (layout : List String) : Stage LinkError Program Unit := do
  onSymbols (resolveSequences layout)
  set (← (← get).resolveEmpty)

/-- Places all sequences and resolves all symbols. -/
def link : Stage LinkError Program (List String) := do
  let layout ← place
  resolve layout
  return layout

end Program

end ControlStore
