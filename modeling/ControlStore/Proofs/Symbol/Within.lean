import ControlStore.Proofs.Symbol.Path

/-!
# Larger symbol trees

One tree is within another if it binds every name to the symbol that the other binds it to. What is
found in it by a path is found in the larger one (`SymbolTree.Within.find?`), and changing the symbols
of both alike keeps one within the other (`SymbolTree.Within.map`). Names that only the larger tree
binds are never looked at where all names are found in the smaller one.

`SymbolTree.PaddedTo` says that the larger tree differs in definitions only that take up no words of
the store.
-/

namespace ControlStore

namespace SymbolTree

/-- The first tree binds every name to the symbol that the second one binds it to. -/
def Within (symbols others : SymbolTree) : Prop :=
  ∀ name s, symbols.local? name = some s → others.local? name = some s

/-- The second tree has all entries of the first one, and its sequences are among these. The order of
entries does not matter. -/
structure PaddedTo (symbols others : SymbolTree) : Prop where
  subset : symbols.entries ⊆ others.entries
  sequence : ∀ entry ∈ others.entries, entry.2.isPlaced = true → entry ∈ symbols.entries

/-- A tree is within another that has all its entries. -/
theorem within_of_subset {symbols others : SymbolTree} (hnodup : others.names.Nodup)
    (h : symbols.entries ⊆ others.entries) : symbols.Within others := fun _ _ hs =>
  (lookup_eq_some_iff hnodup).2 (h (mem_of_lookup_eq_some hs))

namespace Within

variable {symbols others : SymbolTree}

/-- What is found at a path is found there in the larger symbols. -/
theorem get? (h : symbols.Within others) {path : Path} {s : Symbol}
    (hs : symbols.get? path = some s) : others.get? path = some s := by
  cases path with
  | nil => cases hs
  | cons name path =>
    by_cases hpath : path = []
    · subst hpath
      exact h name s hs
    · rw [get?_cons hpath, Option.bind_eq_some_iff] at hs ⊢
      obtain ⟨outer, houter, hs⟩ := hs
      exact ⟨outer, h name outer houter, hs⟩

/-- What is found under a name is found under it in the larger symbols. -/
theorem find? (h : symbols.Within others) {name : String} {s : Symbol}
    (hs : symbols.find? name = some s) : others.find? name = some s :=
  h.get? hs

/-- Changing the symbols of both trees alike keeps one within the other. -/
theorem map (h : symbols.Within others) {f : String × Symbol → String × Symbol}
    (hf : ∀ entry, (f entry).1 = entry.1) :
    (⟨symbols.name, symbols.entries.map f⟩ : SymbolTree).Within
      ⟨others.name, others.entries.map f⟩ := by
  intro name s hs
  rw [local?, lookup_map_of_fst hf, Option.map_eq_some_iff] at hs ⊢
  obtain ⟨old, hold, heq⟩ := hs
  exact ⟨old, h name old hold, heq⟩

end Within

end SymbolTree

end ControlStore
