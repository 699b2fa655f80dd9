import ControlStore.Proofs.Expansion.Blocks

/-!
# Names after expansion

Expansion leaves a host with its own labels and with the scopes of its instances. `Block.Names` says
which paths lead into a block and what they find there. Whatever a path finds among the names of a
host is an own label or in a block (`Inlines.names_of_get?_tree`), and no path into a block is lost
(`Inlines.exists_get?_tree`).
-/

namespace ControlStore

namespace SymbolTree

variable {tree other : SymbolTree} {path : Path}

/-- What a path finds is inside the symbol of its first segment. -/
theorem get?_congr {first : String} (h : tree.local? first = other.local? first) (rest : Path) :
    tree.get? (first :: rest) = other.get? (first :: rest) := by
  -- a label holds no names, so the path has one part
  by_cases hrest : rest = []
  · subst hrest
    exact h
  · rw [get?_cons hrest, get?_cons hrest, h]

/-- A path to a tree finds the symbol of the tree. -/
theorem exists_get?_of_descend {inner : SymbolTree} (h : tree.descend path = some inner)
    (hpath : path ≠ []) : ∃ symbol, tree.get? path = some symbol ∧ symbol.tree? = some inner := by
  rcases List.eq_nil_or_concat path with rfl | ⟨start, name, rfl⟩
  · exact absurd rfl hpath
  · rw [List.concat_eq_append] at h ⊢
    rw [descend_concat, Option.bind_eq_some_iff] at h
    obtain ⟨outer, houter, h⟩ := h
    rw [get?_concat, houter]
    exact Option.bind_eq_some_iff.1 h

/-- In a tree of labels, only a path of one segment finds something, and that is a label. -/
theorem OnlyLabels.of_get? {count : Nat} {symbol : Symbol} (h : tree.OnlyLabels count)
    (hget : tree.get? path = some symbol) :
    ∃ label offset, path = [label] ∧ (label, .label { offset }) ∈ tree.entries ∧
      symbol = .label { offset } := by
  cases path with
  | nil => cases hget
  | cons first rest =>
    by_cases hrest : rest = []
    · subst hrest
      have hmem := mem_of_lookup_eq_some hget
      obtain ⟨offset, -, heq⟩ := h.label _ hmem
      exact ⟨first, offset, rfl, heq ▸ hmem, heq⟩
    · rw [get?_cons hrest, Option.bind_eq_some_iff] at hget
      obtain ⟨outer, houter, hget⟩ := hget
      obtain ⟨offset, -, heq⟩ := h.label _ (mem_of_lookup_eq_some houter)
      cases heq
      cases hget

end SymbolTree

/-! ## Paths into blocks -/

/-- What a path into a block finds: the scope of the block, or a label of it at the place that it
marks. -/
inductive Block.Names (block : Block) : Path → Symbol → Prop
  | scope (name : String) : Names block (.ofScope block.inst.scope)
      (.scope (block.body.tree name block.start block.inst.locals.entries))
  | label {label : String} {offset : Nat}
      (hlabel : (label, .label { offset }) ∈ block.inst.locals.entries) :
      Names block (.ofScope block.inst.scope ++ [label])
        (.label (block.body.place block.start { offset }))

/-- A path into the names of a body finds a label of the body, or it is found among the scopes of
its blocks. -/
theorem Inlining.cases_of_get?_tree {labels : SymbolTree} {count : Nat}
    (hlabels : labels.OnlyLabels count) {inl : Inlining} {name : String} {start : Nat} {path : Path}
    {symbol : Symbol} (h : (inl.tree name start labels.entries).get? path = some symbol) :
    (∃ label offset, path = [label] ∧ (label, .label { offset }) ∈ labels.entries ∧
      symbol = .label (inl.place start { offset })) ∨
    (⟨name, inl.scopes name start⟩ : SymbolTree).get? path = some symbol := by
  have hown : (labels.mapLabels (inl.place start)).entries =
      mapLabelEntries (inl.place start) labels.entries := by
    rw [SymbolTree.mapLabels_entries, mapLabelEntries_eq_map]
  cases path with
  | nil => cases h
  | cons first rest =>
    have hfirst : (inl.tree name start labels.entries).local? first =
        ((labels.mapLabels (inl.place start)).local? first).or
          ((⟨name, inl.scopes name start⟩ : SymbolTree).local? first) := by
      rw [SymbolTree.local?, tree, List.lookup_append, SymbolTree.local?, hown]
      rfl
    cases hlabel : (labels.mapLabels (inl.place start)).local? first with
    | none =>
      right
      rw [hlabel, Option.none_or] at hfirst
      rw [← SymbolTree.get?_congr hfirst]
      exact h
    | some found =>
      left
      rw [hlabel, Option.some_or] at hfirst
      -- a label holds no names, so the path ends here
      rw [SymbolTree.local?_mapLabels, Option.map_eq_some_iff] at hlabel
      obtain ⟨old, hold, rfl⟩ := hlabel
      have hmem := mem_of_lookup_eq_some hold
      obtain ⟨offset, -, heq⟩ := hlabels.label _ hmem
      cases heq
      by_cases hrest : rest = []
      · subst hrest
        rw [SymbolTree.get?, hfirst] at h
        exact ⟨first, offset, rfl, hmem, (Option.some.inj h).symm⟩
      · rw [SymbolTree.get?_cons hrest, hfirst] at h
        cases h

section Inlines

variable {macros : SymbolTree} {frame : Frame} {taken : List String} {steps : List Step}
  {inl : Inlining} {name : String} {start : Nat} {path : Path} {symbol : Symbol}

/-- What is found among the scopes of blocks is in a block. -/
theorem Inlines.names_of_get?_scopes (hmacros : macros.WellFormed)
    (h : Inlines macros frame taken steps inl)
    (hget : (⟨name, inl.scopes name start⟩ : SymbolTree).get? path = some symbol) :
    ∃ block ∈ inl.blocks start, block.Names (.ofScope frame.scope ++ path) symbol := by
  induction h generalizing name start path with
  | done =>
    cases path with
    | nil => cases hget
    | cons first rest =>
      by_cases hrest : rest = []
      · subst hrest
        cases hget
      · rw [SymbolTree.get?_cons hrest] at hget
        cases hget
  | word hrest ih => exact ih hget
  | @block frame taken r rest code locals inst key body inl hdef harity hkey hinst hbody hrest
      ihbody ihrest =>
    obtain ⟨hscope, -⟩ := scope_ofScope hmacros hdef hkey hinst
    have hlabels : inst.locals.OnlyLabels code.steps.length := by
      rw [hinst]
      exact (hmacros.isWritten hdef).1.labels
    cases path with
    | nil => cases hget
    | cons first path =>
      by_cases hfirst : first = key
      · -- the path leads into this block
        subst hfirst
        have hlocal : (⟨name, (Inlining.block inst first body inl).scopes name start⟩ :
            SymbolTree).local? first =
              some (.scope (body.tree (qualify name first) start inst.locals.entries)) := by
          simp [SymbolTree.local?, Inlining.scopes, Inlining.tree]
        have hinside : Path.ofScope frame.scope ++ first :: path =
            Path.ofScope inst.scope ++ path := by
          rw [show Path.ofScope inst.scope = _ from hscope, List.append_assoc]
          rfl
        rw [hinside]
        by_cases hpath : path = []
        · subst hpath
          rw [SymbolTree.get?, hlocal] at hget
          cases hget
          rw [List.append_nil]
          exact ⟨_, List.mem_cons_self .., .scope _⟩
        · rw [SymbolTree.get?_cons hpath, hlocal, Option.bind_some, Symbol.tree?,
            Option.bind_some] at hget
          rcases Inlining.cases_of_get?_tree hlabels hget with
            ⟨label, offset, rfl, hlabel, rfl⟩ | hget
          · exact ⟨_, List.mem_cons_self .., .label hlabel⟩
          · obtain ⟨block, hblock, hnames⟩ := ihbody hget
            exact ⟨block, List.mem_cons_of_mem _ (List.mem_append_left _ hblock), hnames⟩
      · -- the path leads into a later one
        have hlocal : (⟨name, (Inlining.block inst key body inl).scopes name start⟩ :
            SymbolTree).local? first =
              (⟨name, inl.scopes name (start + body.size)⟩ : SymbolTree).local? first := by
          rw [SymbolTree.local?, Inlining.scopes, List.lookup_cons, beq_false_of_ne hfirst]
          rfl
        rw [SymbolTree.get?_congr hlocal] at hget
        obtain ⟨block, hblock, hnames⟩ := ihrest hget
        exact ⟨block, List.mem_cons_of_mem _ (List.mem_append_right _ hblock), hnames⟩

/-- What is found among the names of a body is a label of the body, or it is in a block. -/
theorem Inlines.names_of_get?_tree (hmacros : macros.WellFormed) {labels : SymbolTree} {count : Nat}
    (hlabels : labels.OnlyLabels count) (h : Inlines macros frame taken steps inl)
    (hget : (inl.tree name start labels.entries).get? path = some symbol) :
    (∃ label offset, path = [label] ∧ (label, .label { offset }) ∈ labels.entries ∧
      symbol = .label (inl.place start { offset })) ∨
    ∃ block ∈ inl.blocks start, block.Names (.ofScope frame.scope ++ path) symbol :=
  (Inlining.cases_of_get?_tree hlabels hget).imp_right (h.names_of_get?_scopes hmacros)

/-- Every path into a block finds something among the names of the host. -/
theorem Inlines.exists_get?_tree (hmacros : macros.WellFormed) {locals : SymbolTree}
    (h : Inlines macros none locals.names steps inl) {block : Block} (hblock : block ∈ inl.blocks 0)
    (hnames : block.Names path symbol) (name : String) :
    ∃ found, (inl.tree name 0 locals.entries).get? path = some found := by
  have hlabels : (mapLabelEntries (inl.place 0) locals.entries).map Prod.fst = locals.names := by
    simp [mapLabelEntries_eq_map, SymbolTree.names, Function.comp_def]
  have hentries : (inl.tree name 0 locals.entries).entries =
      mapLabelEntries (inl.place 0) locals.entries ++ inl.scopes name 0 := rfl
  obtain ⟨start, scope, hpath, hdescend⟩ := h.descend_of_mem_blocks hmacros hentries hlabels hblock
  rw [Frame.scope, Path.ofScope_empty, List.nil_append] at hpath
  rw [← hpath] at hdescend
  -- the name of a block is that of its scope or of a label in it
  cases hnames with
  | scope _ =>
    obtain ⟨key, rest, hscope, -⟩ := h.ofScope_of_mem_blocks hmacros hblock
    have hne : Path.ofScope block.inst.scope ≠ [] := by
      rw [hscope]
      simp
    obtain ⟨found, hfound, -⟩ := SymbolTree.exists_get?_of_descend hdescend hne
    exact ⟨found, hfound⟩
  | label hlabel =>
    obtain ⟨code, hdef, -, -⟩ := h.of_mem_blocks hblock
    obtain ⟨hcode, -⟩ := hmacros.isWritten hdef
    rw [SymbolTree.get?_concat, hdescend, Option.bind_some,
      Inlining.local?_tree hcode.labels.nodup hlabel]
    exact ⟨_, rfl⟩

end Inlines

end ControlStore
