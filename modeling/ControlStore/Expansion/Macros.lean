import ControlStore.Symbol

/-!
# The macros of a tree

`macroBodies` lists the steps of every macro in a tree, at any depth. Moving labels and renaming
trees changes none of them, and storing a symbol brings no others into a tree but those of the
symbol (`SymbolTree.mem_macroBodies_insert?`).
-/

namespace ControlStore

mutual

/-- The steps of every macro at or inside a symbol. -/
def Symbol.macroBodies : Symbol → List (List Step)
  | .constant _ => []
  | .label _ => []
  | .sequence code locals =>
    if code.isMacro then code.steps :: locals.macroBodies else locals.macroBodies
  | .scope locals => locals.macroBodies

/-- The steps of every macro in a tree, at any depth. -/
def SymbolTree.macroBodies : SymbolTree → List (List Step)
  | ⟨_, entries⟩ => entryBodies entries

/-- The steps of every macro in a list of entries, at any depth. -/
def entryBodies : List (String × Symbol) → List (List Step)
  | [] => []
  | (_, symbol) :: rest => symbol.macroBodies ++ entryBodies rest

end

mutual

/-- Changing the labels of a symbol changes no macro. -/
theorem Symbol.macroBodies_mapLabels (f : Label → Label) (symbol : Symbol) :
    (symbol.mapLabels f).macroBodies = symbol.macroBodies := by
  cases symbol with
  | constant value => rfl
  | label l => rfl
  | sequence code locals =>
    simp only [Symbol.mapLabels, Symbol.macroBodies, SymbolTree.macroBodies_mapLabels f locals]
  | scope locals =>
    simp only [Symbol.mapLabels, Symbol.macroBodies, SymbolTree.macroBodies_mapLabels f locals]

/-- Changing the labels of a tree changes no macro. -/
theorem SymbolTree.macroBodies_mapLabels (f : Label → Label) (symbols : SymbolTree) :
    (symbols.mapLabels f).macroBodies = symbols.macroBodies := by
  cases symbols with
  | mk name entries =>
    simp only [SymbolTree.mapLabels, SymbolTree.macroBodies, entryBodies_mapLabels f entries]

/-- Changing the labels among entries changes no macro. -/
theorem entryBodies_mapLabels (f : Label → Label) (entries : List (String × Symbol)) :
    entryBodies (mapLabelEntries f entries) = entryBodies entries := by
  cases entries with
  | nil => rfl
  | cons entry rest =>
    obtain ⟨key, symbol⟩ := entry
    simp only [mapLabelEntries, entryBodies, Symbol.macroBodies_mapLabels f symbol,
      entryBodies_mapLabels f rest]

end

mutual

/-- Renaming the tree of a symbol changes no macro. -/
theorem Symbol.macroBodies_attach (parent key : String) (symbol : Symbol) :
    (symbol.attach parent key).macroBodies = symbol.macroBodies := by
  cases symbol with
  | constant value => rfl
  | label l => rfl
  | sequence code locals =>
    simp only [Symbol.attach, Symbol.macroBodies, SymbolTree.macroBodies_attach parent key locals]
  | scope locals =>
    simp only [Symbol.attach, Symbol.macroBodies, SymbolTree.macroBodies_attach parent key locals]

/-- Renaming a tree changes no macro. -/
theorem SymbolTree.macroBodies_attach (parent key : String) (symbols : SymbolTree) :
    (symbols.attach parent key).macroBodies = symbols.macroBodies := by
  cases symbols with
  | mk name entries =>
    simp only [SymbolTree.attach, SymbolTree.macroBodies, entryBodies_attach _ entries]

/-- Renaming the trees among entries changes no macro. -/
theorem entryBodies_attach (parent : String) (entries : List (String × Symbol)) :
    entryBodies (attachEntries parent entries) = entryBodies entries := by
  cases entries with
  | nil => rfl
  | cons entry rest =>
    obtain ⟨key, symbol⟩ := entry
    simp only [attachEntries, entryBodies, Symbol.macroBodies_attach parent key symbol,
      entryBodies_attach parent rest]

end

/-- The macros of a tree are those of its entries. -/
theorem SymbolTree.macroBodies_def (symbols : SymbolTree) :
    symbols.macroBodies = entryBodies symbols.entries := by
  cases symbols
  rfl

/-- The macros of entries in a row are those of both parts. -/
theorem entryBodies_append (entries others : List (String × Symbol)) :
    entryBodies (entries ++ others) = entryBodies entries ++ entryBodies others := by
  induction entries with
  | nil => rfl
  | cons entry rest ih =>
    obtain ⟨key, symbol⟩ := entry
    simp only [List.cons_append, entryBodies, ih, List.append_assoc]

/-- Macros of a symbol in the entries are macros of the entries. -/
theorem macroBodies_subset_of_lookup {entries : List (String × Symbol)} {name : String}
    {symbol : Symbol} (h : entries.lookup name = some symbol) :
    symbol.macroBodies ⊆ entryBodies entries := by
  induction entries with
  | nil => simp at h
  | cons entry rest ih =>
    obtain ⟨key, other⟩ := entry
    rw [List.lookup_cons] at h
    simp only [entryBodies]
    split at h
    · cases h; exact List.subset_append_left ..
    · exact List.Subset.trans (ih h) (List.subset_append_right ..)

/-- Macros inside a symbol are macros of the symbol. -/
theorem macroBodies_subset_of_tree? {symbol : Symbol} {inner : SymbolTree}
    (h : symbol.tree? = some inner) : inner.macroBodies ⊆ symbol.macroBodies := by
  cases symbol with
  | constant value => simp [Symbol.tree?] at h
  | label l => simp [Symbol.tree?] at h
  | sequence code locals =>
    cases h
    simp only [Symbol.macroBodies]
    split
    · exact List.subset_cons_self ..
    · exact List.Subset.refl _
  | scope locals => cases h; exact List.Subset.refl _

/-- Macros of a symbol found by a path are macros of the tree. -/
theorem SymbolTree.macroBodies_subset_of_get? {path : Path} {symbols : SymbolTree}
    {symbol : Symbol} (h : symbols.get? path = some symbol) :
    symbol.macroBodies ⊆ symbols.macroBodies := by
  fun_induction SymbolTree.get? symbols path with
  | case1 => simp at h
  | case2 symbols name =>
    rw [symbols.macroBodies_def]
    exact macroBodies_subset_of_lookup h
  | case3 symbols name path _ ih =>
    simp only [Option.bind_eq_bind, Option.bind_eq_some_iff] at h
    obtain ⟨middle, hmiddle, inner, hinner, hget⟩ := h
    rw [symbols.macroBodies_def]
    exact List.Subset.trans (ih inner hget)
      (List.Subset.trans (macroBodies_subset_of_tree? hinner)
        (macroBodies_subset_of_lookup hmiddle))

/-- Binding a name brings no macros but those of the new symbol. -/
theorem mem_entryBodies_bindEntry {name : String} {symbol : Symbol}
    {entries : List (String × Symbol)} {body : List Step}
    (h : body ∈ entryBodies (bindEntry name symbol entries)) :
    body ∈ symbol.macroBodies ∨ body ∈ entryBodies entries := by
  induction entries with
  | nil => simpa [bindEntry, entryBodies] using h
  | cons entry rest ih =>
    obtain ⟨key, old⟩ := entry
    rw [bindEntry] at h
    split at h
    · simp only [entryBodies, List.mem_append] at h ⊢
      exact h.imp_right .inr
    · simp only [entryBodies, List.mem_append] at h ⊢
      rcases h with h | h
      · exact .inr (.inl h)
      · exact (ih h).imp_right .inr

/-- Changing the symbol of a name brings no macros but those of the changed symbol. -/
theorem mem_entryBodies_adjustEntry {name : String} {f : Symbol → Symbol}
    {entries : List (String × Symbol)} {body : List Step}
    (h : body ∈ entryBodies (adjustEntry name f entries)) :
    body ∈ entryBodies entries ∨
      ∃ symbol, entries.lookup name = some symbol ∧ body ∈ (f symbol).macroBodies := by
  induction entries with
  | nil => simp [adjustEntry, entryBodies] at h
  | cons entry rest ih =>
    obtain ⟨key, symbol⟩ := entry
    rw [adjustEntry] at h
    split at h
    · next hkey =>
      subst hkey
      simp only [entryBodies, List.mem_append] at h ⊢
      rcases h with h | h
      · exact .inr ⟨symbol, by simp, h⟩
      · exact .inl (.inr h)
    · next hkey =>
      simp only [entryBodies, List.mem_append] at h ⊢
      rcases h with h | h
      · exact .inl (.inl h)
      · rcases ih h with h | ⟨found, hfound, h⟩
        · exact .inl (.inr h)
        · refine .inr ⟨found, ?_, h⟩
          have hne : (name == key) = false := by simpa using Ne.symm hkey
          rw [List.lookup_cons, hne]
          exact hfound

/-- Replacing the names inside a symbol brings no macros but those of the new tree. -/
theorem mem_macroBodies_mapTree {symbol : Symbol} {inner : SymbolTree} {body : List Step}
    (h : body ∈ (symbol.mapTree fun _ => inner).macroBodies) :
    body ∈ symbol.macroBodies ∨ body ∈ inner.macroBodies := by
  cases symbol with
  | constant value => exact .inl h
  | label l => exact .inl h
  | sequence code locals =>
    simp only [Symbol.mapTree, Symbol.macroBodies] at h ⊢
    split at h
    · next hkind =>
      rcases List.mem_cons.1 h with rfl | h
      · exact .inl (by simp [hkind])
      · exact .inr h
    · exact .inr h
  | scope locals => exact .inr h

/-- Storing a symbol brings no macros into a tree but those of the symbol. -/
theorem SymbolTree.mem_macroBodies_insert? {path : Path} {symbols stored : SymbolTree}
    {symbol : Symbol} (h : symbols.insert? path symbol = some stored) {body : List Step}
    (hbody : body ∈ stored.macroBodies) :
    body ∈ symbol.macroBodies ∨ body ∈ symbols.macroBodies := by
  fun_induction SymbolTree.insert? symbols path symbol generalizing stored with
  | case1 => simp at h
  | case2 symbols name symbol =>
    cases h
    rw [SymbolTree.macroBodies_def] at hbody ⊢
    rcases mem_entryBodies_bindEntry hbody with hb | hb
    · -- the stored copy is renamed only
      rw [Symbol.macroBodies_attach] at hb; exact .inl hb
    · exact .inr hb
  | case3 symbols name path symbol _ ih =>
    simp only [Option.bind_eq_bind, Option.bind_eq_some_iff] at h
    obtain ⟨middle, hmiddle, tree, htree, inner, hinner, hstored⟩ := h
    cases hstored
    -- the tree below the first segment was part of the symbols
    have hsub := List.Subset.trans (macroBodies_subset_of_tree? htree)
      (macroBodies_subset_of_lookup hmiddle)
    rw [SymbolTree.macroBodies_def] at hbody ⊢
    rcases mem_entryBodies_adjustEntry hbody with hb | ⟨found, hfound, hb⟩
    · exact .inr hb
    · rcases mem_macroBodies_mapTree hb with hb | hb
      · exact .inr (macroBodies_subset_of_lookup hfound hb)
      · rcases ih tree hinner hb with hb | hb
        · exact .inl hb
        · exact .inr (hsub hb)

end ControlStore
