import ControlStore.Failure
import ControlStore.Program

/-!
# Placement

Sequences are placed one behind the other from address 0 on: the fetch sequence first, the others
in the order of their definition. Macros take up no words. The labels of a sequence take over its
address as their base.
-/

namespace ControlStore

/-- An entrypoint has to name a sequence, and not a macro. -/
def SymbolTree.checkEntrypoint (symbols : SymbolTree) (name : String) : Except LinkError Unit :=
  match symbols.find? name with
  | some (.sequence code _) => if code.isMacro then .error (.macroEntrypoint name) else .ok ()
  | _ => .error (.notASequence name)

/-- The names of the sequences in the order of their addresses. -/
def SymbolTree.layout (symbols : SymbolTree) (fetch : String) : List String :=
  fetch :: (symbols.entries.filter fun (name, symbol) => name ≠ fetch && symbol.isPlaced).map
    Prod.fst

/-- Places sequences from an address on and gives the address behind the last one. -/
def placeFrom (address : Nat) : List String → Stage LinkError SymbolTree Nat
  | [] => pure address
  | name :: names => do
    match (← get).find? name with
    | some (.sequence code _) =>
      match code.firstReference? with
      | some reference => Stage.fail (.unexpandedMacro reference.line)
      | none =>
        modify fun symbols => symbols.adjust (.ofName name) (Symbol.placeAt address)
        Stage.note (.sequencePlaced name address code.steps.length)
        placeFrom (address + code.steps.length) names
    | _ => placeFrom address names

namespace Program

/-- The fetch sequence, once it and the interrupt sequence have been checked. -/
def checkedFetch (program : Program) : Except LinkError String :=
  match program.fetch with
  | none => .error .missingFetch
  | some fetch => do
    program.symbols.checkEntrypoint fetch
    program.interrupt.forM program.symbols.checkEntrypoint
    return fetch

/-- Gives every sequence its address and gives the layout: the names of the placed sequences in
the order of their addresses. Addresses that were given stay if the store turns out too small. -/
def place : Stage LinkError Program (List String) := do
  let program ← get
  let fetch ← program.checkedFetch
  let layout := program.symbols.layout fetch
  let needed ← onSymbols (placeFrom 0 layout)
  if program.length < needed then
    Stage.fail (.overflow needed program.length (needed - program.length))
  return layout

end Program

end ControlStore
