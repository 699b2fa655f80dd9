import ControlStore.Proofs.Symbol.Tree

/-!
# Growing trees

`SymbolTree.descend` is the tree at a path, and `SymbolTree.extend` adds entries behind those of
the tree at a path. Looking up, listing and storing names at the end of a path are described by
these two (`get?_concat`, `siblings_concat`, `insert?_concat`): storing a symbol under a new name
is growing the tree by one entry. Growth commutes with moving labels, adds up, and growing the
scope that was added last is the same as adding the larger scope at once (`extend_concat`).
-/

namespace ControlStore

section Entries

variable {entries : List (String × Symbol)} {name : String}

/-- Two changes that agree on the entry of the name change the entries alike. -/
theorem adjustEntry_congr {f g : Symbol → Symbol}
    (h : ∀ symbol, entries.lookup name = some symbol → f symbol = g symbol) :
    adjustEntry name f entries = adjustEntry name g entries := by
  induction entries with
  | nil => rfl
  | cons entry rest ih =>
    obtain ⟨key, symbol⟩ := entry
    rw [adjustEntry, adjustEntry]
    split
    · next hkey => rw [h symbol (by simp [hkey])]
    · next hkey =>
      rw [ih fun s hs => h s ?_]
      rw [List.lookup_cons, beq_false_of_ne (Ne.symm hkey)]
      exact hs

/-- Two changes of one entry, one after the other, are one change. -/
theorem adjustEntry_adjustEntry (f g : Symbol → Symbol) :
    adjustEntry name g (adjustEntry name f entries) =
      adjustEntry name (fun s => g (f s)) entries := by
  induction entries with
  | nil => rfl
  | cons entry rest ih =>
    obtain ⟨key, symbol⟩ := entry
    rw [adjustEntry, adjustEntry]
    split
    · next hkey => rw [adjustEntry, if_pos hkey]
    · next hkey => rw [adjustEntry, if_neg hkey, ih]

/-- A name that is not among the first entries is changed behind them. -/
theorem adjustEntry_append_of_not_mem {f : Symbol → Symbol} {added : List (String × Symbol)}
    (h : name ∉ entries.map Prod.fst) :
    adjustEntry name f (entries ++ added) = entries ++ adjustEntry name f added := by
  induction entries with
  | nil => rfl
  | cons entry rest ih =>
    obtain ⟨key, symbol⟩ := entry
    rw [List.map_cons, List.mem_cons, not_or] at h
    rw [List.cons_append, adjustEntry, if_neg (Ne.symm h.1), ih h.2, List.cons_append]

/-- An entry behind a change was there before, or is the changed one. -/
theorem mem_adjustEntry {f : Symbol → Symbol} {entry : String × Symbol}
    (h : entry ∈ adjustEntry name f entries) :
    entry ∈ entries ∨ ∃ old, (name, old) ∈ entries ∧ entry = (name, f old) := by
  induction entries with
  | nil => simp [adjustEntry] at h
  | cons first rest ih =>
    obtain ⟨key, symbol⟩ := first
    rw [adjustEntry] at h
    split at h
    · next hkey =>
      subst hkey
      rcases List.mem_cons.1 h with rfl | h
      · exact .inr ⟨symbol, List.mem_cons_self .., rfl⟩
      · exact .inl (List.mem_cons_of_mem _ h)
    · rcases List.mem_cons.1 h with rfl | h
      · exact .inl (List.mem_cons_self ..)
      · rcases ih h with h | ⟨old, hold, heq⟩
        · exact .inl (List.mem_cons_of_mem _ h)
        · exact .inr ⟨old, List.mem_cons_of_mem _ hold, heq⟩

/-- A map over all entries that commutes with a change may be taken before it. -/
theorem map_adjustEntry {f g : Symbol → Symbol} (m : Symbol → Symbol)
    (h : ∀ symbol, m (f symbol) = g (m symbol)) :
    (adjustEntry name f entries).map (fun e => (e.1, m e.2)) =
      adjustEntry name g (entries.map fun e => (e.1, m e.2)) := by
  induction entries with
  | nil => rfl
  | cons entry rest ih =>
    obtain ⟨key, symbol⟩ := entry
    rw [adjustEntry, List.map_cons, adjustEntry]
    split
    · rw [List.map_cons, h]
    · rw [List.map_cons, ih]

end Entries

theorem Symbol.mapTree_mapTree (f g : SymbolTree → SymbolTree) (symbol : Symbol) :
    (symbol.mapTree f).mapTree g = symbol.mapTree fun tree => g (f tree) := by
  cases symbol <;> rfl

/-- Two changes that agree on the tree of a symbol change it alike. -/
theorem Symbol.mapTree_congr {f g : SymbolTree → SymbolTree} {symbol : Symbol}
    (h : ∀ tree, symbol.tree? = some tree → f tree = g tree) :
    symbol.mapTree f = symbol.mapTree g := by
  cases symbol with
  | constant value => rfl
  | label l => rfl
  | sequence code locals => simp only [mapTree, h locals rfl]
  | scope locals => simp only [mapTree, h locals rfl]

theorem Symbol.mapTree_id (symbol : Symbol) : symbol.mapTree (fun tree => tree) = symbol := by
  cases symbol <;> rfl

/-- Moving labels may be done before a change of the tree that it commutes with. -/
theorem Symbol.mapLabels_mapTree {f : Label → Label} {g h : SymbolTree → SymbolTree}
    (hcomm : ∀ tree, (g tree).mapLabels f = h (tree.mapLabels f)) (symbol : Symbol) :
    (symbol.mapTree g).mapLabels f = (symbol.mapLabels f).mapTree h := by
  cases symbol with
  | constant value => rfl
  | label l => rfl
  | sequence code locals => simp only [mapTree, mapLabels, hcomm]
  | scope locals => simp only [mapTree, mapLabels, hcomm]

namespace SymbolTree

/-- The tree at a path: the tree itself, or the one inside the symbols along the path. -/
def descend : SymbolTree → Path → Option SymbolTree
  | tree, [] => some tree
  | tree, name :: path => (tree.local? name).bind fun s => s.tree?.bind (·.descend path)

/-- The tree with entries added behind those of the tree at a path. -/
def extend : SymbolTree → Path → List (String × Symbol) → SymbolTree
  | tree, [], added => { tree with entries := tree.entries ++ added }
  | tree, name :: path, added =>
    { tree with entries := adjustEntry name (·.mapTree (·.extend path added)) tree.entries }

variable {tree inner : SymbolTree} {path : Path} {name : String} {added : List (String × Symbol)}

/-! ## The end of a path -/

/-- The last segment of a path is looked up in the tree that the others lead to. -/
theorem get?_concat (tree : SymbolTree) (path : Path) (name : String) :
    tree.get? (path ++ [name]) = (tree.descend path).bind (·.local? name) := by
  induction path generalizing tree with
  | nil => rfl
  | cons first path ih =>
    rw [List.cons_append, get?_cons (by simp), descend]
    cases tree.local? first with
    | none => rfl
    | some s => cases htree : s.tree? <;> simp [htree, ih]

/-- The last segment of a path leads on from the tree that the others lead to. -/
theorem descend_concat (tree : SymbolTree) (path : Path) (name : String) :
    tree.descend (path ++ [name]) =
      (tree.descend path).bind fun t => (t.local? name).bind Symbol.tree? := by
  induction path generalizing tree with
  | nil => simp [descend]
  | cons first path ih =>
    simp only [List.cons_append, descend]
    cases tree.local? first with
    | none => rfl
    | some s => cases htree : s.tree? <;> simp [htree, ih]

/-- The names beside a symbol are those of the tree it is in. -/
theorem siblings_concat (h : tree.descend path = some inner) :
    tree.siblings (path ++ [name]) = inner.names := by
  induction path generalizing tree with
  | nil => cases h; rfl
  | cons first path ih =>
    rw [descend, Option.bind_eq_some_iff] at h
    obtain ⟨s, hs, h⟩ := h
    obtain ⟨next, hnext, h⟩ := Option.bind_eq_some_iff.1 h
    have hcons : path ++ [name] ≠ [] := by simp
    cases hrest : path ++ [name] with
    | nil => exact absurd hrest hcons
    | cons second rest =>
      rw [List.cons_append, hrest, siblings, hs, Option.bind_some, hnext, ← hrest]
      · exact ih h
      · simp

/-- Storing a symbol under a new name adds one entry at the end of the path. -/
theorem insert?_concat {symbol : Symbol} (h : tree.descend path = some inner)
    (hnew : name ∉ inner.names) :
    tree.insert? (path ++ [name]) symbol =
      some (tree.extend path [(name, symbol.attach inner.name name)]) := by
  induction path generalizing tree with
  | nil =>
    cases h
    rw [List.nil_append, insert?, bind, bindEntry_of_not_mem hnew, extend]
  | cons first path ih =>
    rw [descend, Option.bind_eq_some_iff] at h
    obtain ⟨s, hs, h⟩ := h
    obtain ⟨next, hnext, h⟩ := Option.bind_eq_some_iff.1 h
    -- the rest of the path is stored in the tree of the first segment, and only there
    have hins := ih h
    rw [List.cons_append, insert?]
    · simp only [Option.bind_eq_bind, hs, Option.bind_some, hnext, hins, extend]
      refine congrArg some (ext' rfl (adjustEntry_congr fun symbol hsymbol => ?_))
      refine Symbol.mapTree_congr fun t ht => ?_
      rw [local?, hsymbol] at hs
      cases hs
      rw [ht] at hnext
      cases hnext
      rfl
    · simp

/-! ## Growth -/

/-- The tree at the path has the added entries behind its own. -/
theorem descend_extend (h : tree.descend path = some inner) :
    (tree.extend path added).descend path =
      some { inner with entries := inner.entries ++ added } := by
  induction path generalizing tree with
  | nil => cases h; rfl
  | cons first path ih =>
    rw [descend, Option.bind_eq_some_iff] at h
    obtain ⟨s, hs, h⟩ := h
    obtain ⟨next, hnext, h⟩ := Option.bind_eq_some_iff.1 h
    rw [local?] at hs
    simp only [extend, descend, local?, lookup_adjustEntry, if_true, hs, Option.map_some,
      Option.bind_some, Symbol.tree?_mapTree, hnext, ih h]

/-- A scope that was added is found at the end of the path. -/
theorem descend_extend_concat {scope : SymbolTree} (h : tree.descend path = some inner)
    (hnew : name ∉ inner.names) :
    (tree.extend path [(name, .scope scope)]).descend (path ++ [name]) = some scope := by
  rw [descend_concat, descend_extend h, Option.bind_some, local?, List.lookup_append,
    lookup_eq_none hnew]
  simp [Symbol.tree?]

/-- Growth leaves all trees in their places. -/
theorem exists_descend_extend {other : Path} (h : tree.descend other = some inner) (path : Path)
    (added : List (String × Symbol)) :
    ∃ grown, (tree.extend path added).descend other = some grown := by
  induction other generalizing tree path with
  | nil => exact ⟨_, rfl⟩
  | cons first other ih =>
    rw [descend, Option.bind_eq_some_iff] at h
    obtain ⟨s, hs, h⟩ := h
    obtain ⟨next, hnext, h⟩ := Option.bind_eq_some_iff.1 h
    rw [local?] at hs
    -- the entries are added here, or further down under a name that is the first one of the path or
    -- not
    cases path with
    | nil => exact ⟨inner, by simp [extend, descend, local?, List.lookup_append, hs, hnext, h]⟩
    | cons name path =>
      obtain ⟨grown, hgrown⟩ := ih h path
      simp only [extend, descend, local?, lookup_adjustEntry, hs]
      split
      · exact ⟨grown, by simp [Symbol.tree?_mapTree, hnext, hgrown]⟩
      · exact ⟨inner, by simp [hnext, h]⟩

/-- Adding entries at one path twice is adding all of them. -/
theorem extend_extend (more : List (String × Symbol)) :
    (tree.extend path added).extend path more = tree.extend path (added ++ more) := by
  induction path generalizing tree with
  | nil => simp [extend]
  | cons first path ih =>
    simp only [extend, adjustEntry_adjustEntry, Symbol.mapTree_mapTree, ih]

/-- Growing the scope that was added last is adding the larger scope. -/
theorem extend_concat {scope : SymbolTree} (h : tree.descend path = some inner)
    (hnew : name ∉ inner.names) :
    (tree.extend path [(name, .scope scope)]).extend (path ++ [name]) added =
      tree.extend path [(name, .scope { scope with entries := scope.entries ++ added })] := by
  induction path generalizing tree with
  | nil =>
    cases h
    simp only [List.nil_append, extend]
    -- the new scope stands behind the entries, so it is the one that is extended
    rw [adjustEntry_append_of_not_mem hnew]
    simp [adjustEntry, Symbol.mapTree]
  | cons first path ih =>
    rw [descend, Option.bind_eq_some_iff] at h
    obtain ⟨s, hs, h⟩ := h
    obtain ⟨next, hnext, h⟩ := Option.bind_eq_some_iff.1 h
    simp only [List.cons_append, extend, adjustEntry_adjustEntry, Symbol.mapTree_mapTree]
    refine ext' rfl (adjustEntry_congr fun symbol hsymbol => ?_)
    refine Symbol.mapTree_congr fun t ht => ?_
    rw [local?, hsymbol] at hs
    cases hs
    rw [ht] at hnext
    cases hnext
    exact ih h

/-- Labels may be moved before or after entries are added. -/
theorem mapLabels_extend (f : Label → Label) (tree : SymbolTree) (path : Path)
    (added : List (String × Symbol)) :
    (tree.extend path added).mapLabels f =
      (tree.mapLabels f).extend path (mapLabelEntries f added) := by
  induction path generalizing tree with
  | nil =>
    refine ext' (by simp [extend, mapLabels_name]) ?_
    simp [extend, mapLabels_entries, mapLabelEntries_eq_map]
  | cons first path ih =>
    refine ext' (by simp [extend, mapLabels_name]) ?_
    simp only [extend, mapLabels_entries]
    exact map_adjustEntry (Symbol.mapLabels f) (Symbol.mapLabels_mapTree ih)

theorem local?_mapLabels (f : Label → Label) (tree : SymbolTree) (name : String) :
    (tree.mapLabels f).local? name = (tree.local? name).map (Symbol.mapLabels f) := by
  rw [local?, mapLabels_entries, local?]
  exact lookup_map_of_fst (f := fun entry => (entry.1, entry.2.mapLabels f)) (fun _ => rfl) _ name

theorem names_mapLabels (f : Label → Label) (tree : SymbolTree) :
    (tree.mapLabels f).names = tree.names := by
  simp [names, mapLabels_entries, Function.comp_def]

/-- Moving labels keeps the trees and moves the labels in them. -/
theorem descend_mapLabels (f : Label → Label) (tree : SymbolTree) (path : Path) :
    (tree.mapLabels f).descend path = (tree.descend path).map (·.mapLabels f) := by
  induction path generalizing tree with
  | nil => rfl
  | cons first path ih =>
    rw [descend, descend, local?_mapLabels]
    cases tree.local? first with
    | none => rfl
    | some s => cases htree : s.tree? <;> simp [Symbol.tree?_mapLabels, htree, ih]

/-- The tree at a path is moved with the tree around it. -/
theorem descend_mapLabels_of_eq (h : tree.descend path = some inner) (f : Label → Label) :
    (tree.mapLabels f).descend path = some (inner.mapLabels f) := by
  rw [descend_mapLabels, h, Option.map_some]

/-- A symbol is found behind moved labels under its path. -/
theorem get?_mapLabels (f : Label → Label) (tree : SymbolTree) (path : Path) :
    (tree.mapLabels f).get? path = (tree.get? path).map (Symbol.mapLabels f) := by
  rcases List.eq_nil_or_concat path with rfl | ⟨start, name, rfl⟩
  · rfl
  · rw [List.concat_eq_append, get?_concat, get?_concat, descend_mapLabels]
    cases tree.descend start with
    | none => rfl
    | some inner => exact local?_mapLabels f inner name

theorem find?_mapLabels (f : Label → Label) (tree : SymbolTree) (name : String) :
    (tree.mapLabels f).find? name = (tree.find? name).map (Symbol.mapLabels f) :=
  get?_mapLabels f tree _

/-- What a grown tree holds it held before, up to growth, or it came with the new entries. -/
theorem holds_extend {symbol : Symbol} (h : (tree.extend path added).Holds symbol) :
    (∃ old f, tree.Holds old ∧ symbol = old.mapTree f) ∨
      (⟨name, added⟩ : SymbolTree).Holds symbol := by
  induction path generalizing tree with
  | nil =>
    cases h with
    | here hmem =>
      rcases List.mem_append.1 hmem with hmem | hmem
      · exact .inl ⟨symbol, _, .here hmem, symbol.mapTree_id.symm⟩
      · exact .inr (.here hmem)
    | there hmem hinner hsymbol =>
      rcases List.mem_append.1 hmem with hmem | hmem
      · exact .inl ⟨symbol, _, .there hmem hinner hsymbol, symbol.mapTree_id.symm⟩
      · exact .inr (.there hmem hinner hsymbol)
  | cons first path ih =>
    cases h with
    | here hmem =>
      -- the symbol is the changed entry or one beside it
      rcases mem_adjustEntry hmem with hmem | ⟨old, hold, heq⟩
      · exact .inl ⟨symbol, _, .here hmem, symbol.mapTree_id.symm⟩
      · cases heq
        exact .inl ⟨old, _, .here hold, rfl⟩
    | there hmem hinner hsymbol =>
      rcases mem_adjustEntry hmem with hmem | ⟨old, hold, heq⟩
      · exact .inl ⟨symbol, _, .there hmem hinner hsymbol, symbol.mapTree_id.symm⟩
      · cases heq
        rw [Symbol.tree?_mapTree] at hinner
        obtain ⟨t, ht, rfl⟩ := Option.map_eq_some_iff.1 hinner
        rcases ih hsymbol with ⟨found, f, hfound, heq⟩ | hadded
        · exact .inl ⟨found, f, .there hold ht hfound, heq⟩
        · exact .inr hadded

/-- Adding entries whose labels are within bounds keeps all labels so. -/
theorem LabelsWithin.extend {count : Nat} (h : tree.LabelsWithin count)
    (hadded : (⟨name, added⟩ : SymbolTree).LabelsWithin count) (path : Path) :
    (tree.extend path added).LabelsWithin count := by
  intro l hl
  rcases holds_extend hl with ⟨old, f, hold, heq⟩ | hnew
  · cases old with
    | label l' => cases heq; exact h l hold
    | constant value => simp [Symbol.mapTree] at heq
    | sequence code locals => simp [Symbol.mapTree] at heq
    | scope locals => simp [Symbol.mapTree] at heq
  · exact hadded l hnew

/-- Growing a tree by nothing leaves it as it is. -/
theorem extend_nil (tree : SymbolTree) (path : Path) : tree.extend path [] = tree := by
  induction path generalizing tree with
  | nil => exact ext' rfl (by simp [extend])
  | cons first path ih =>
    refine ext' rfl ?_
    simp only [extend, ih]
    induction tree.entries with
    | nil => rfl
    | cons entry rest ihrest =>
      obtain ⟨key, symbol⟩ := entry
      rw [adjustEntry, Symbol.mapTree_id, ihrest]
      split <;> rfl

end SymbolTree

end ControlStore
