import ControlStore.Symbol

/-!
# Symbol trees

Induction over a tree goes into the trees of its entries (`SymbolTree.induction`).
`SymbolTree.Holds` says that a symbol is bound somewhere in a tree, and `SymbolTree.descend` gives
the tree at a path. Renaming trees and moving labels are maps over the entries of a tree.

When names are bound once only, looking a name up is finding its entry (`lookup_eq_some_iff`), and
changing the symbol of a name changes just that entry.
-/

namespace ControlStore

/-! ## Entries -/

section Entries

variable {entries : List (String × Symbol)} {name other : String} {symbol : Symbol}

/-- What is looked up is an entry. -/
theorem mem_of_lookup_eq_some {α β : Type} [BEq α] [LawfulBEq α] {entries : List (α × β)} {name : α}
    {b : β} (h : entries.lookup name = some b) : (name, b) ∈ entries := by
  obtain ⟨before, after, heq, -⟩ := List.lookup_eq_some_iff.1 h
  simp [heq]

/-- Where names are bound once only, a lookup finds exactly the entries. -/
theorem lookup_eq_some_iff {α β : Type} [BEq α] [LawfulBEq α] {entries : List (α × β)} {name : α}
    {b : β} (hnodup : (entries.map Prod.fst).Nodup) :
    entries.lookup name = some b ↔ (name, b) ∈ entries := by
  refine ⟨mem_of_lookup_eq_some, fun h => ?_⟩
  induction entries with
  | nil => simp at h
  | cons entry rest ih =>
    obtain ⟨key, old⟩ := entry
    rw [List.map_cons, List.nodup_cons] at hnodup
    rw [List.lookup_cons]
    rcases List.mem_cons.1 h with heq | hmem
    · cases heq
      simp
    · have hne : name ≠ key := by
        rintro rfl
        exact hnodup.1 (List.mem_map.2 ⟨_, hmem, rfl⟩)
      rw [beq_false_of_ne hne]
      exact ih hnodup.2 hmem

/-- Where names are bound once only, a name has one entry. -/
theorem entry_unique {β : Type} {entries : List (String × β)} {name : String} {b b' : β}
    (hnodup : (entries.map Prod.fst).Nodup) (h : (name, b) ∈ entries) (h' : (name, b') ∈ entries) :
    b = b' := by
  have hlookup := (lookup_eq_some_iff hnodup).2 h
  rw [(lookup_eq_some_iff hnodup).2 h'] at hlookup
  exact (Option.some.inj hlookup).symm

/-- A name that is not there is not looked up. -/
theorem lookup_eq_none {β : Type} {entries : List (String × β)} {name : String}
    (h : name ∉ entries.map Prod.fst) : entries.lookup name = none := by
  rw [List.lookup_eq_none_iff]
  intro entry hentry
  apply bne_iff_ne.2
  rintro rfl
  exact h (List.mem_map_of_mem hentry)

/-- A name is found in entries that were changed under their names as it was found before. -/
theorem lookup_map_of_fst {f : String × Symbol → String × Symbol}
    (hf : ∀ entry, (f entry).1 = entry.1) (entries : List (String × Symbol)) (name : String) :
    (entries.map f).lookup name = (entries.lookup name).map fun s => (f (name, s)).2 := by
  induction entries with
  | nil => rfl
  | cons entry rest ih =>
    rw [List.map_cons, List.lookup_cons, List.lookup_cons, hf, ih]
    by_cases hname : name = entry.1
    · subst hname
      simp
    · rw [beq_false_of_ne hname]

/-- A new name is bound behind the entries. -/
theorem bindEntry_of_not_mem (h : name ∉ entries.map Prod.fst) :
    bindEntry name symbol entries = entries ++ [(name, symbol)] := by
  induction entries with
  | nil => rfl
  | cons entry rest ih =>
    obtain ⟨key, old⟩ := entry
    rw [List.map_cons, List.mem_cons, not_or] at h
    rw [bindEntry, if_neg (Ne.symm h.1), ih h.2, List.cons_append]

/-- Binding a name keeps all names and adds the new one behind them. -/
theorem map_fst_bindEntry :
    (bindEntry name symbol entries).map Prod.fst =
      if name ∈ entries.map Prod.fst then entries.map Prod.fst
      else entries.map Prod.fst ++ [name] := by
  induction entries with
  | nil => rfl
  | cons entry rest ih =>
    obtain ⟨key, old⟩ := entry
    rw [bindEntry]
    -- only the first entry of the name is changed, which is the one that is looked up
    by_cases hkey : key = name
    · simp [hkey]
    · simp only [if_neg hkey, List.map_cons, ih, List.mem_cons, Ne.symm hkey, false_or]
      split <;> rfl

/-- An entry behind a binding is the bound one or was there before. -/
theorem mem_bindEntry {entry : String × Symbol} (h : entry ∈ bindEntry name symbol entries) :
    entry = (name, symbol) ∨ entry ∈ entries := by
  induction entries with
  | nil => exact .inl (List.mem_singleton.1 h)
  | cons first rest ih =>
    obtain ⟨key, old⟩ := first
    rw [bindEntry] at h
    split at h
    · next hkey =>
      subst hkey
      exact (List.mem_cons.1 h).imp_right (List.mem_cons_of_mem _)
    · rcases List.mem_cons.1 h with rfl | h
      · exact .inr (List.mem_cons_self ..)
      · exact (ih h).imp_right (List.mem_cons_of_mem _)

/-- Looking up behind a change finds what was there, changed if it has the name. -/
theorem lookup_adjustEntry (f : Symbol → Symbol) :
    (adjustEntry name f entries).lookup other =
      if other = name then (entries.lookup other).map f else entries.lookup other := by
  induction entries with
  | nil => simp [adjustEntry]
  | cons entry rest ih =>
    obtain ⟨key, old⟩ := entry
    rw [adjustEntry]
    by_cases hkey : key = name
    · subst hkey
      by_cases hother : other = key
      · simp [hother]
      · simp [hother, List.lookup_cons, beq_false_of_ne hother]
    · simp only [if_neg hkey, List.lookup_cons, ih]
      by_cases hother : other = key
      · simp [hother, hkey]
      · simp [beq_false_of_ne hother]

/-- Where names are bound once only, a change touches just the entry of its name. -/
theorem adjustEntry_eq_map (f : Symbol → Symbol) (hnodup : (entries.map Prod.fst).Nodup) :
    adjustEntry name f entries =
      entries.map fun entry => if entry.1 = name then (entry.1, f entry.2) else entry := by
  induction entries with
  | nil => rfl
  | cons entry rest ih =>
    obtain ⟨key, old⟩ := entry
    rw [List.map_cons, List.nodup_cons] at hnodup
    rw [adjustEntry, List.map_cons]
    split
    · next hkey =>
      have hrest : ∀ e ∈ rest, (if e.1 = name then (e.1, f e.2) else e) = e := by
        intro e he
        refine if_neg fun heq => hnodup.1 ?_
        exact List.mem_map.2 ⟨e, he, heq.trans hkey.symm⟩
      rw [List.map_congr_left hrest, List.map_id']
    · rw [ih hnodup.2]

end Entries

/-! ## Maps over trees -/

theorem mapLabelEntries_eq_map (f : Label → Label) (entries : List (String × Symbol)) :
    mapLabelEntries f entries = entries.map fun entry => (entry.1, entry.2.mapLabels f) := by
  induction entries with
  | nil => rfl
  | cons entry rest ih => rw [mapLabelEntries, ih, List.map_cons]

theorem mapLabelEntries_append (f : Label → Label) (entries added : List (String × Symbol)) :
    mapLabelEntries f (entries ++ added) =
      mapLabelEntries f entries ++ mapLabelEntries f added := by
  simp only [mapLabelEntries_eq_map, List.map_append]

theorem attachEntries_eq_map (parent : String) (entries : List (String × Symbol)) :
    attachEntries parent entries =
      entries.map fun entry => (entry.1, entry.2.attach parent entry.1) := by
  induction entries with
  | nil => rfl
  | cons entry rest ih => rw [attachEntries, ih, List.map_cons]

/-- What holds of a tree once it holds of the trees of its entries holds of every tree. -/
theorem SymbolTree.induction {motive : SymbolTree → Prop}
    (tree : ∀ name entries,
      (∀ entry ∈ entries, ∀ inner, entry.2.tree? = some inner → motive inner) →
        motive ⟨name, entries⟩)
    (t : SymbolTree) : motive t :=
  match t with
  | ⟨name, entries⟩ => tree name entries fun entry hentry inner hinner => by
      have hsize : sizeOf inner < sizeOf entry.2 := by
        cases hsymbol : entry.2 with
        | constant value => rw [hsymbol] at hinner; cases hinner
        | label l => rw [hsymbol] at hinner; cases hinner
        | sequence code locals =>
          rw [hsymbol] at hinner
          cases hinner
          rw [Symbol.sequence.sizeOf_spec]
          omega
        | scope locals =>
          rw [hsymbol] at hinner
          cases hinner
          rw [Symbol.scope.sizeOf_spec]
          omega
      have hentries := List.sizeOf_lt_of_mem hentry
      have : sizeOf entry.2 < sizeOf entry := by
        obtain ⟨key, symbol⟩ := entry
        show sizeOf symbol < sizeOf (key, symbol)
        rw [Prod.mk.sizeOf_spec]
        omega
      exact SymbolTree.induction tree inner
termination_by sizeOf t
decreasing_by
  simp only [SymbolTree.mk.sizeOf_spec]
  omega

namespace Symbol

theorem tree?_mapTree (f : SymbolTree → SymbolTree) (symbol : Symbol) :
    (symbol.mapTree f).tree? = symbol.tree?.map f := by
  cases symbol <;> rfl

theorem tree?_mapLabels (f : Label → Label) (symbol : Symbol) :
    (symbol.mapLabels f).tree? = symbol.tree?.map (·.mapLabels f) := by
  cases symbol <;> simp [mapLabels, tree?]

end Symbol

namespace SymbolTree

/-- The symbol is bound somewhere in the tree, at any depth. -/
inductive Holds : SymbolTree → Symbol → Prop
  | here {tree : SymbolTree} {key : String} {symbol : Symbol}
      (h : (key, symbol) ∈ tree.entries) : Holds tree symbol
  | there {tree inner : SymbolTree} {key : String} {outer symbol : Symbol}
      (h : (key, outer) ∈ tree.entries) (hinner : outer.tree? = some inner)
      (hsymbol : Holds inner symbol) : Holds tree symbol

theorem mapLabels_entries (f : Label → Label) (tree : SymbolTree) :
    (tree.mapLabels f).entries = tree.entries.map fun entry => (entry.1, entry.2.mapLabels f) := by
  cases tree
  rw [mapLabels, mapLabelEntries_eq_map]

theorem mapLabels_name (f : Label → Label) (tree : SymbolTree) :
    (tree.mapLabels f).name = tree.name := by
  cases tree
  rfl

theorem ext' {tree other : SymbolTree} (hname : tree.name = other.name)
    (hentries : tree.entries = other.entries) : tree = other := by
  cases tree
  cases other
  cases hname
  cases hentries
  rfl

/-- Two ways of moving labels that agree on the labels of a tree give the same tree. -/
theorem mapLabels_congr {f g : Label → Label} {tree : SymbolTree}
    (h : ∀ l, tree.Holds (.label l) → f l = g l) : tree.mapLabels f = tree.mapLabels g := by
  induction tree using SymbolTree.induction with
  | tree name entries ih =>
    refine ext' rfl ?_
    rw [mapLabels_entries, mapLabels_entries]
    refine List.map_congr_left fun entry hentry => ?_
    obtain ⟨key, symbol⟩ := entry
    -- a label is one of the entries or in the tree of one
    have hinner : ∀ inner, symbol.tree? = some inner → inner.mapLabels f = inner.mapLabels g :=
      fun inner htree => ih _ hentry inner htree fun l hl => h l (.there hentry htree hl)
    cases symbol with
    | constant value => rfl
    | label l => simp only [Symbol.mapLabels, h l (.here hentry)]
    | sequence code locals => simp only [Symbol.mapLabels, hinner locals rfl]
    | scope locals => simp only [Symbol.mapLabels, hinner locals rfl]

/-- Moving labels changes nothing in a tree whose labels all stay. -/
theorem mapLabels_of_fixed {f : Label → Label} {tree : SymbolTree}
    (h : ∀ l, tree.Holds (.label l) → f l = l) : tree.mapLabels f = tree := by
  induction tree using SymbolTree.induction with
  | tree name entries ih =>
    refine ext' rfl ?_
    rw [mapLabels_entries]
    refine (List.map_congr_left fun entry hentry => ?_).trans (List.map_id' entries)
    obtain ⟨key, symbol⟩ := entry
    have hinner : ∀ inner, symbol.tree? = some inner → inner.mapLabels f = inner :=
      fun inner htree => ih _ hentry inner htree fun l hl => h l (.there hentry htree hl)
    cases symbol with
    | constant value => rfl
    | label l => simp only [Symbol.mapLabels, h l (.here hentry)]
    | sequence code locals => simp only [Symbol.mapLabels, hinner locals rfl]
    | scope locals => simp only [Symbol.mapLabels, hinner locals rfl]

/-- Moving labels twice is moving them once. -/
theorem mapLabels_mapLabels (f g : Label → Label) (tree : SymbolTree) :
    (tree.mapLabels f).mapLabels g = tree.mapLabels fun l => g (f l) := by
  induction tree using SymbolTree.induction with
  | tree name entries ih =>
    refine ext' rfl ?_
    simp only [mapLabels_entries, List.map_map]
    refine List.map_congr_left fun entry hentry => ?_
    obtain ⟨key, symbol⟩ := entry
    have hinner := ih _ hentry
    cases symbol with
    | constant value => rfl
    | label l => rfl
    | sequence code locals => simp only [Function.comp, Symbol.mapLabels, hinner locals rfl]
    | scope locals => simp only [Function.comp, Symbol.mapLabels, hinner locals rfl]

/-- The labels of a tree whose labels were moved are the moved ones. -/
theorem exists_of_holds_mapLabels {f : Label → Label} {tree : SymbolTree} {symbol : Symbol}
    (h : (tree.mapLabels f).Holds symbol) : ∃ old, tree.Holds old ∧ symbol = old.mapLabels f := by
  generalize hmoved : tree.mapLabels f = moved at h
  induction h generalizing tree with
  | @here moved key symbol hmem =>
    -- an entry of the moved tree is a moved entry, with its tree moved alike
    rw [← hmoved, mapLabels_entries] at hmem
    obtain ⟨⟨key, old⟩, hold, heq⟩ := List.mem_map.1 hmem
    cases heq
    exact ⟨old, .here hold, rfl⟩
  | @there moved inner key outer symbol hmem hinner hsymbol ih =>
    rw [← hmoved, mapLabels_entries] at hmem
    obtain ⟨⟨key, old⟩, hold, heq⟩ := List.mem_map.1 hmem
    cases heq
    rw [Symbol.tree?_mapLabels] at hinner
    obtain ⟨oldInner, htree, heq⟩ := Option.map_eq_some_iff.1 hinner
    obtain ⟨found, hfound, heq'⟩ := ih heq
    exact ⟨found, .there hold htree hfound, heq'⟩

/-- What entries hold is one of them, or is held by the tree of one. -/
theorem holds_iff {tree : SymbolTree} {symbol : Symbol} :
    tree.Holds symbol ↔ ∃ entry ∈ tree.entries,
      symbol = entry.2 ∨ ∃ inner, entry.2.tree? = some inner ∧ inner.Holds symbol := by
  constructor
  · intro h
    cases h with
    | here hmem => exact ⟨_, hmem, .inl rfl⟩
    | there hmem hinner hsymbol => exact ⟨_, hmem, .inr ⟨_, hinner, hsymbol⟩⟩
  · rintro ⟨⟨key, outer⟩, hmem, rfl | ⟨inner, hinner, hsymbol⟩⟩
    · exact .here hmem
    · exact .there hmem hinner hsymbol

/-- All labels of the tree, at any depth, mark places among `count` steps. -/
def LabelsWithin (count : Nat) (tree : SymbolTree) : Prop :=
  ∀ l, tree.Holds (.label l) → l.offset ≤ count

theorem LabelsWithin.mono {count count' : Nat} {tree : SymbolTree} (h : tree.LabelsWithin count)
    (hle : count ≤ count') : tree.LabelsWithin count' :=
  fun l hl => Nat.le_trans (h l hl) hle

/-- Labels that are moved within bounds are within them. -/
theorem labelsWithin_mapLabels {count : Nat} {f : Label → Label} {tree : SymbolTree}
    (h : ∀ l, tree.Holds (.label l) → (f l).offset ≤ count) :
    (tree.mapLabels f).LabelsWithin count := by
  intro l hl
  obtain ⟨old, hold, heq⟩ := exists_of_holds_mapLabels hl
  cases old with
  | label l' => cases heq; exact h l' hold
  | constant value => simp [Symbol.mapLabels] at heq
  | sequence code locals => simp [Symbol.mapLabels] at heq
  | scope locals => simp [Symbol.mapLabels] at heq

/-- A longer path leads into the tree of its first segment. -/
theorem get?_cons {path : Path} (hpath : path ≠ []) (tree : SymbolTree) (name : String) :
    tree.get? (name :: path) = (tree.local? name).bind fun s => s.tree?.bind (·.get? path) := by
  cases path with
  | nil => exact absurd rfl hpath
  | cons next path => rfl

/-- Nothing is found in an empty tree. -/
theorem find?_empty (name : String) : empty.find? name = none := by
  rw [find?]
  cases hpath : Path.ofName name with
  | nil => rfl
  | cons first path =>
    by_cases hrest : path = []
    · rw [hrest]
      rfl
    · rw [get?_cons hrest]
      rfl

/-- A tree contains its names. -/
theorem contains_iff {tree : SymbolTree} {name : String} :
    tree.contains name = true ↔ name ∈ tree.names := by
  rw [contains, local?, List.lookup_isSome_iff, names, List.mem_map]
  constructor
  · rintro ⟨entry, hentry, hname⟩
    exact ⟨entry, hentry, (beq_iff_eq.1 hname).symm⟩
  · rintro ⟨entry, hentry, hname⟩
    exact ⟨entry, hentry, beq_iff_eq.2 hname.symm⟩

theorem names_attach (parent key : String) (tree : SymbolTree) :
    (tree.attach parent key).names = tree.names := by
  obtain ⟨name, entries⟩ := tree
  rw [attach, names, attachEntries_eq_map, List.map_map]
  rfl

/-- Binding a name adds it, unless it is there. -/
theorem names_bind (tree : SymbolTree) (name : String) (symbol : Symbol) :
    (tree.bind name symbol).names =
      if name ∈ tree.names then tree.names else tree.names ++ [name] :=
  map_fst_bindEntry

/-- Binding a name keeps the names distinct. -/
theorem nodup_names_bind {tree : SymbolTree} (h : tree.names.Nodup) (name : String)
    (symbol : Symbol) : (tree.bind name symbol).names.Nodup := by
  rw [names_bind]
  split
  · exact h
  · next hnew =>
    refine List.nodup_append.2 ⟨h, by simp, ?_⟩
    rintro old hold other hother rfl
    exact hnew (List.mem_singleton.1 hother ▸ hold)

/-- A name behind a binding is the bound one or was there before. -/
theorem mem_names_bind {tree : SymbolTree} {name other : String} {symbol : Symbol}
    (h : other ∈ (tree.bind name symbol).names) : other = name ∨ other ∈ tree.names := by
  rw [names_bind] at h
  split at h
  · exact .inr h
  · rcases List.mem_append.1 h with h | h
    · exact .inr h
    · exact .inl (List.mem_singleton.1 h)

/-- A symbol that is found by a path is held by the tree. -/
theorem holds_of_get? {path : Path} {tree : SymbolTree} {symbol : Symbol}
    (h : tree.get? path = some symbol) : tree.Holds symbol := by
  induction path generalizing tree with
  | nil => simp [get?] at h
  | cons name path ih =>
    by_cases hpath : path = []
    · rw [hpath] at h
      exact .here (mem_of_lookup_eq_some h)
    · rw [get?_cons hpath, Option.bind_eq_some_iff] at h
      obtain ⟨outer, houter, h⟩ := h
      obtain ⟨inner, hinner, h⟩ := Option.bind_eq_some_iff.1 h
      exact .there (mem_of_lookup_eq_some houter) hinner (ih h)

end SymbolTree

end ControlStore
