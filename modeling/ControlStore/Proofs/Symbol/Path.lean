import ControlStore.Proofs.Symbol.Tree
import ControlStore.Proofs.Text.Decimal
import ControlStore.Proofs.Text.Split

/-!
# Dotted names and paths

A dotted name spells the path of its segments (`Path.ofName_append`), and a name without dots is a
path of one segment. Scopes are named by the same dotted names, but the scope with the empty name
is the tree itself: `Path.ofScope` is the path that leads there, and `Path.ofName_qualify` says how
a name inside a scope is reached.
-/

namespace ControlStore

/-! ## Paths -/

/-- The name has no dot in it, so that it is one segment of a path. -/
def Dotless (name : String) : Prop := '.' ∉ name.toList

namespace Path

/-- A name without dots is a path of one segment. -/
theorem ofName_of_dotless {name : String} (h : Dotless name) : ofName name = [name] := by
  rw [ofName, splitAll_of_not_mem h, List.map_singleton, String.ofList_toList]

/-- A path of one segment is spelled by its segment. -/
theorem eq_of_ofName_eq_singleton {name segment : String} (h : ofName name = [segment]) :
    Dotless name ∧ segment = name := by
  have hdotless : Dotless name := by
    intro hdot
    obtain ⟨before, after, heq⟩ := List.append_of_mem hdot
    have hlength := congrArg List.length h
    have hbefore := List.length_pos_iff.2 (splitAll_ne_nil '.' before)
    have hafter := List.length_pos_iff.2 (splitAll_ne_nil '.' after)
    rw [ofName, heq, splitAll_append_cons] at hlength
    simp only [List.length_map, List.length_append, List.length_singleton] at hlength
    omega
  rw [ofName_of_dotless hdotless] at h
  exact ⟨hdotless, (List.head_eq_of_cons_eq h).symm⟩

/-- The path of a name has a segment at least. -/
theorem ofName_ne_nil (name : String) : ofName name ≠ [] := by
  simp [ofName, splitAll_ne_nil]

/-- The path of a dotted name is that of the part before a dot and that of the part after it. -/
theorem ofName_append (parent name : String) :
    ofName (parent ++ "." ++ name) = ofName parent ++ ofName name := by
  have hlist : (parent ++ "." ++ name).toList = parent.toList ++ '.' :: name.toList := by
    simp [String.toList_append]
  rw [ofName, hlist, splitAll_append_cons, List.map_append]
  rfl

/-- The path to the scope with the given dotted name. The empty name is that of the tree itself. -/
def ofScope (scope : String) : Path := if scope = "" then [] else ofName scope

@[simp]
theorem ofScope_empty : ofScope "" = [] := rfl

theorem ofScope_of_ne {scope : String} (h : scope ≠ "") : ofScope scope = ofName scope := if_neg h

/-- A name inside a scope is reached through the scope. -/
theorem ofName_qualify (scope : String) {name : String} (h : Dotless name) :
    ofName (qualify scope name) = ofScope scope ++ [name] := by
  by_cases hscope : scope = ""
  · rw [qualify, if_pos hscope, hscope, ofScope_empty, ofName_of_dotless h]
    rfl
  · rw [qualify, if_neg hscope, ofName_append, ofScope_of_ne hscope, ofName_of_dotless h]

/-- A qualified name is not empty. -/
theorem qualify_ne_empty (scope : String) {name : String} (h : name ≠ "") :
    qualify scope name ≠ "" := by
  by_cases hscope : scope = ""
  · rwa [qualify, if_pos hscope]
  · rw [qualify, if_neg hscope]
    simp [hscope]

/-- A scope inside a scope is reached through the outer one. -/
theorem ofScope_qualify (scope : String) {name : String} (h : Dotless name) (hne : name ≠ "") :
    ofScope (qualify scope name) = ofScope scope ++ [name] := by
  rw [ofScope_of_ne (qualify_ne_empty scope hne), ofName_qualify scope h]

end Path

/-- What a dotted name finds is bound to it, or is found inside another symbol. -/
theorem SymbolTree.mem_or_get?_of_find? {tree : SymbolTree} {name : String} {symbol : Symbol}
    (h : tree.find? name = some symbol) :
    (name, symbol) ∈ tree.entries ∨ ∃ entry ∈ tree.entries, ∃ inner path,
      Path.ofName name = entry.1 :: path ∧ entry.2.tree? = some inner ∧
        inner.get? path = some symbol := by
  rw [find?] at h
  cases hpath : Path.ofName name with
  | nil => exact absurd hpath (Path.ofName_ne_nil _)
  | cons first path =>
    rw [hpath] at h
    -- one segment is the name of an entry, more lead into the tree of one
    by_cases hrest : path = []
    · subst hrest
      obtain ⟨-, rfl⟩ := Path.eq_of_ofName_eq_singleton hpath
      exact .inl (mem_of_lookup_eq_some h)
    · rw [get?_cons hrest, Option.bind_eq_some_iff] at h
      obtain ⟨outer, houter, h⟩ := h
      obtain ⟨inner, hinner, h⟩ := Option.bind_eq_some_iff.1 h
      exact .inr ⟨_, mem_of_lookup_eq_some houter, inner, path, rfl, hinner, h⟩

/-! ## Numbered names -/

/-- Numbers are written with digits only. -/
theorem not_mem_toString {c : Char} (hc : c.isDigit = false) (n : Nat) :
    c ∉ (toString n).toList := by
  intro h
  rw [isDigit_of_mem_toString h] at hc
  cases hc

theorem not_mem_append {c : Char} {text other : String} (h : c ∉ text.toList)
    (h' : c ∉ other.toList) : c ∉ (text ++ other).toList := by
  rw [String.toList_append, List.mem_append, not_or]
  exact ⟨h, h'⟩

theorem dotless_toString (n : Nat) : Dotless (toString n) := not_mem_toString (by decide) n

/-- Different numbers are printed differently. -/
theorem toString_injective {m n : Nat} (h : toString m = toString n) : m = n := by
  rw [Nat.toString_eq_ofList_toDigits, Nat.toString_eq_ofList_toDigits, String.ofList_inj] at h
  rw [← Nat.ofDigitChars_ten_toDigits (n := m), h, Nat.ofDigitChars_ten_toDigits]

theorem Dotless.append {name other : String} (h : Dotless name) (h' : Dotless other) :
    Dotless (name ++ other) := not_mem_append h h'

end ControlStore
