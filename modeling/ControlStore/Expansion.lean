import ControlStore.Expansion.Budget

/-!
# Expansion of all macros

Expansions are made one at a time until no sequence has a macro reference left. References that
come out of a macro body are expanded in their turn. Macros themselves stay as they are.
-/

namespace ControlStore

/-- Expands references until none is left, and gives the number of expansions. The vocabulary only
serves to show that this comes to an end. -/
def expandAll (vocabulary : Vocabulary) (symbols : SymbolTree)
    (covers : vocabulary.Covers symbols) : Outcome ExpansionError SymbolTree Nat :=
  match hsite : symbols.nextSite? with
  | none => { log := [], result := .ok 0, state := symbols }
  | some site =>
    let first := site.expand symbols
    match hfirst : first.result with
    | .error error => { log := first.log, result := .error error, state := first.state }
    | .ok () =>
      have := Vocabulary.weight_expand_lt covers hsite hfirst
      let rest := expandAll vocabulary first.state (covers.expand hsite hfirst)
      { log := first.log ++ rest.log
        result := rest.result.map (· + 1)
        state := rest.state }
termination_by vocabulary.weight symbols

/-- Expands all macro references of the global sequences. -/
def SymbolTree.expand : Stage ExpansionError SymbolTree Nat := fun symbols =>
  expandAll (.ofSymbols symbols) symbols (Vocabulary.covers_ofSymbols symbols)

/-- Expands all macro references of a program, and gives the number of expansions. -/
def Program.expand : Stage ExpansionError Program Nat := do
  let count ← onSymbols SymbolTree.expand
  if 0 < count then Stage.note (.macrosExpanded count)
  return count

end ControlStore
