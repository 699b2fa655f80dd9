import ControlStore.Symbol

/-!
# Equality of symbols

Whether two symbols are the same can be decided, by comparing them down to the entries of the trees
inside them. So programs can be compared by the global symbols that they bind.
-/

namespace ControlStore

mutual

def Symbol.decEq : (s t : Symbol) → Decidable (s = t)
  | .constant a, .constant b => decidable_of_iff (a = b) (by simp)
  | .label a, .label b => decidable_of_iff (a = b) (by simp)
  | .sequence code locals, .sequence code' locals' =>
    have := locals.decEq locals'
    decidable_of_iff (code = code' ∧ locals = locals') (by simp)
  | .scope locals, .scope locals' =>
    have := locals.decEq locals'
    decidable_of_iff (locals = locals') (by simp)
  | .constant _, .label _ | .constant _, .sequence .. | .constant _, .scope _
  | .label _, .constant _ | .label _, .sequence .. | .label _, .scope _
  | .sequence .., .constant _ | .sequence .., .label _ | .sequence .., .scope _
  | .scope _, .constant _ | .scope _, .label _ | .scope _, .sequence .. => isFalse (by simp)

def SymbolTree.decEq : (s t : SymbolTree) → Decidable (s = t)
  | ⟨name, entries⟩, ⟨name', entries'⟩ =>
    have := decEqEntries entries entries'
    decidable_of_iff (name = name' ∧ entries = entries') (by simp)

def decEqEntries : (entries entries' : List (String × Symbol)) → Decidable (entries = entries')
  | [], [] => isTrue rfl
  | [], _ :: _ | _ :: _, [] => isFalse (by simp)
  | (name, symbol) :: rest, (name', symbol') :: rest' =>
    have := symbol.decEq symbol'
    have := decEqEntries rest rest'
    decidable_of_iff (name = name' ∧ symbol = symbol' ∧ rest = rest') (by simp [and_assoc])

end

instance : DecidableEq Symbol := Symbol.decEq

instance : DecidableEq SymbolTree := SymbolTree.decEq

end ControlStore
