import ControlStore.Proofs.Symbol.Path

/-!
# Trees that are built by storing symbols

`SymbolTree.Built` says that a tree was made from an empty one by storing symbols under dotted
names, and that the trees inside these symbols were made in the same way. Nothing is assumed about
the steps of sequences or about what their references say.

In such a tree every name is bound once and has no dots (`Built.nodup_names`, `Built.dotless`), so
the symbol that is bound directly to a name is found again by the name as a path
(`SymbolTree.find?_eq_of_mem`).
-/

namespace ControlStore

/-! ## Segments of dotted names -/

/-- The segments of a path have no dots. -/
theorem Path.dotless_of_mem_ofName {name segment : String} (h : segment ∈ ofName name) :
    Dotless segment := by
  obtain ⟨piece, hpiece, rfl⟩ := List.mem_map.1 h
  rw [Dotless, String.toList_ofList]
  exact not_mem_of_mem_splitAll hpiece

/-! ## Built trees -/

namespace SymbolTree

/-- The tree is made by storing symbols in an empty tree, one after the other. The trees inside
these symbols are made in the same way. -/
inductive Built : SymbolTree → Prop
  | new (name : String) : Built ⟨name, []⟩
  | insert {tree stored : SymbolTree} {name : String} {symbol : Symbol} (htree : Built tree)
      (hsymbol : ∀ inner, symbol.tree? = some inner → Built inner)
      (h : tree.insert? (.ofName name) symbol = some stored) : Built stored

/-- Changing an entry keeps all names. -/
theorem map_fst_adjustEntry (name : String) (f : Symbol → Symbol)
    (entries : List (String × Symbol)) :
    (adjustEntry name f entries).map Prod.fst = entries.map Prod.fst := by
  induction entries with
  | nil => rfl
  | cons entry rest ih =>
    obtain ⟨key, symbol⟩ := entry
    rw [adjustEntry]
    split
    · rfl
    · rw [List.map_cons, ih, List.map_cons]

/-- Storing a symbol binds at most one new name directly in the tree: the path itself, if it has
just one segment. -/
theorem names_insert? {tree stored : SymbolTree} {path : Path} {symbol : Symbol}
    (h : tree.insert? path symbol = some stored) :
    stored.names = tree.names ∨ ∃ name, path = [name] ∧ stored = tree.bind name symbol := by
  cases path with
  | nil => cases h
  | cons name rest =>
    cases rest with
    | nil =>
      cases h
      exact .inr ⟨name, rfl, rfl⟩
    | cons next rest =>
      obtain ⟨_, -, h⟩ := Option.bind_eq_some_iff.1 h
      obtain ⟨_, -, h⟩ := Option.bind_eq_some_iff.1 h
      -- the path leads on into one of the entries, which keeps its name
      obtain ⟨inner, -, h⟩ := Option.bind_eq_some_iff.1 h
      cases h
      exact .inl (map_fst_adjustEntry name _ _)

namespace Built

variable {tree : SymbolTree}

/-- The names of a tree built by adding are distinct. -/
theorem nodup_names (h : tree.Built) : tree.names.Nodup := by
  induction h with
  | new name => exact List.nodup_nil
  | insert _ _ hinsert ih _ =>
    rcases names_insert? hinsert with hnames | ⟨name, -, rfl⟩
    · rwa [hnames]
    · exact nodup_names_bind ih name _

/-- The names of a tree built by adding have no dots. -/
theorem dotless (h : tree.Built) : ∀ name ∈ tree.names, Dotless name := by
  induction h with
  | new _ => exact fun name hname => absurd hname List.not_mem_nil
  | insert _ _ hinsert ih _ =>
    rcases names_insert? hinsert with hnames | ⟨name, hpath, rfl⟩
    · rwa [hnames]
    · intro other hother
      rcases mem_names_bind hother with rfl | hother
      · exact Path.dotless_of_mem_ofName (hpath ▸ List.mem_singleton.2 rfl)
      · exact ih other hother

end Built

theorem built_empty : SymbolTree.empty.Built := .new ""

/-- Storing a symbol keeps a tree built, also if there is no place for the symbol. -/
theorem Built.store {tree : SymbolTree} {symbol : Symbol} (h : tree.Built)
    (hsymbol : ∀ inner, symbol.tree? = some inner → inner.Built) (name : String) :
    ((tree.insert? (.ofName name) symbol).getD tree).Built := by
  cases hinsert : tree.insert? (.ofName name) symbol with
  | none => exact h
  | some stored => exact .insert h hsymbol hinsert

/-- A tree in which entries are stored one after the other is built. -/
theorem built_ofEntries {entries : List (String × Symbol)}
    (h : ∀ entry ∈ entries, ∀ inner, entry.2.tree? = some inner → inner.Built) :
    (ofEntries entries).Built := by
  rw [ofEntries]
  generalize htree : SymbolTree.empty = tree
  have hbuilt : tree.Built := htree ▸ built_empty
  clear htree
  induction entries generalizing tree with
  | nil => exact hbuilt
  | cons entry rest ih =>
    apply ih fun e he => h e (List.mem_cons_of_mem _ he)
    exact hbuilt.store (h entry (List.mem_cons_self ..)) entry.1

/-- Where names are bound once and have no dots, what is bound directly to a name is found by it. -/
theorem find?_eq_of_mem {tree : SymbolTree} {name : String} {symbol : Symbol}
    (hnodup : tree.names.Nodup) (hdotless : ∀ name ∈ tree.names, Dotless name)
    (h : (name, symbol) ∈ tree.entries) : tree.find? name = some symbol := by
  rw [find?, Path.ofName_of_dotless (hdotless name (List.mem_map_of_mem h)), get?, local?]
  exact (lookup_eq_some_iff hnodup).2 h

end SymbolTree

end ControlStore
