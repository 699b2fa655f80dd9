import ControlStore.Proofs.Expansion.Simulation

/-!
# Blocks of an expansion tree

Where the blocks of a tree stand and how their names are found. The words of a block are a run of
the words of the tree (`Inlining.words_of_mem_blocks`), and the block inlines the body of its macro
(`Inlines.of_mem_blocks`). Its scope is reached by its path in the names that the tree leaves
(`Inlines.find?_of_mem_blocks`), and no two blocks have the same path (`Inlines.nodup_scopes`).

`Inlines.wordsOf` says that a tree has as many words as its steps come to.
-/

namespace ControlStore

variable {macros : SymbolTree} {frame : Frame} {taken : List String} {steps : List Step}
  {inl : Inlining}

/-! ## Counting words -/

/-- The first steps are inlined to the tree of the first steps. -/
theorem Inlines.take (h : Inlines macros frame taken steps inl) (k : Nat) :
    Inlines macros frame taken (steps.take k) (inl.take k) := by
  induction h generalizing k with
  | done =>
    rw [List.take_nil]
    cases k <;> exact .done
  | word hrest ih =>
    cases k with
    | zero => exact .done
    | succ k => exact .word (ih k)
  | block hdef harity hkey hinst hbody hrest _ ih =>
    cases k with
    | zero => exact .done
    | succ k => exact .block hdef harity hkey hinst hbody (ih k)

/-- The other steps are inlined to the tree of the other steps, with more names taken. -/
theorem Inlines.drop (h : Inlines macros frame taken steps inl) (k : Nat) :
    ∃ taken', Inlines macros frame taken' (steps.drop k) (inl.drop k) := by
  induction h generalizing k with
  | done =>
    rw [List.drop_nil]
    cases k <;> exact ⟨[], .done⟩
  | word hrest ih =>
    cases k with
    | zero => exact ⟨_, .word hrest⟩
    | succ k => exact ih k
  | block hdef harity hkey hinst hbody hrest _ ih =>
    cases k with
    | zero => exact ⟨_, .block hdef harity hkey hinst hbody hrest⟩
    | succ k => exact ih k

/-- Steps have one tree only. -/
theorem Inlines.unique (hnodup : macros.names.Nodup) (h : Inlines macros frame taken steps inl)
    {inl' : Inlining} (h' : Inlines macros frame taken steps inl') : inl' = inl := by
  induction h generalizing inl' with
  | done =>
    cases h'
    rfl
  | word _ ih =>
    cases h' with
    | word hrest' => rw [ih hrest']
  | block hdef _ hkey hinst _ _ ihbody ihrest =>
    cases h' with
    | block hdef' _ hkey' hinst' hbody' hrest' =>
      cases entry_unique hnodup hdef.mem hdef'.mem
      subst hkey hkey' hinst hinst'
      rw [ihbody hbody', ihrest hrest']

/-- Steps come to as many words as their tree has. -/
theorem Inlines.wordsOf (h : Inlines macros frame taken steps inl) :
    macros.WordsOf steps inl.size := by
  induction h with
  | done => exact .nil
  | word _ ih =>
    rw [Inlining.size_word, Nat.add_comm]
    exact .assertion ih
  | block hdef _ _ _ _ _ ihbody ihrest =>
    rw [Inlining.size_block]
    exact .reference hdef ihbody ihrest

/-- Steps come to one number of words only. -/
theorem SymbolTree.WordsOf.unique (hnodup : macros.names.Nodup) {m n : Nat}
    (h : macros.WordsOf steps m) (h' : macros.WordsOf steps n) : n = m := by
  induction h generalizing n with
  | nil =>
    cases h'
    rfl
  | assertion _ ih =>
    cases h' with
    | assertion hrest' => rw [ih hrest']
  | reference hdef _ _ ihbody ihrest =>
    cases h' with
    | reference hdef' hbody' hrest' =>
      cases entry_unique hnodup hdef.mem hdef'.mem
      rw [ihbody hbody', ihrest hrest']

/-! ## What a block is -/

/-- A block is an instance of a macro, and inlines the steps of the macro. -/
theorem Inlines.of_mem_blocks (h : Inlines macros frame taken steps inl) {start : Nat}
    {block : Block} (hblock : block ∈ inl.blocks start) :
    ∃ code, macros.IsMacro block.inst.reference.symbol code block.inst.locals ∧
      block.inst.parameters = code.parameters ∧
      Inlines macros (some block.inst) block.inst.locals.names code.steps block.body := by
  induction h generalizing start with
  | done => cases hblock
  | word hrest ih => exact ih hblock
  | block hdef harity hkey hinst hbody hrest ihbody ihrest =>
    -- the block is this one, or stands in its body, or among the later steps
    rcases List.mem_cons.1 hblock with rfl | hblock
    · subst hinst
      exact ⟨_, by rwa [Frame.symbol_reference], rfl, hbody⟩
    · rcases List.mem_append.1 hblock with hblock | hblock
      · exact ihbody hblock
      · exact ihrest hblock

/-- The words of a block stand together among the words of the tree, behind as many words as the
block says. -/
theorem Inlining.words_of_mem_blocks {start : Nat} {block : Block}
    (h : block ∈ inl.blocks start) :
    ∃ before after, inl.words = before ++ block.body.words ++ after ∧
      block.start = start + before.length := by
  induction inl generalizing start with
  | done => cases h
  | word a rest ih =>
    obtain ⟨before, after, hwords, hstart⟩ := ih h
    refine ⟨a :: before, after, by rw [words, hwords]; rfl, ?_⟩
    rw [hstart, List.length_cons]
    omega
  | block inst key body rest ihbody ihrest =>
    rcases List.mem_cons.1 h with rfl | h
    · exact ⟨[], rest.words, rfl, rfl⟩
    · rcases List.mem_append.1 h with h | h
      · obtain ⟨before, after, hwords, hstart⟩ := ihbody h
        -- the words behind a body end with the words of the later steps
        refine ⟨before, after ++ rest.words, ?_, hstart⟩
        rw [words, hwords, List.append_assoc _ after]
      · obtain ⟨before, after, hwords, hstart⟩ := ihrest h
        refine ⟨body.words ++ before, after, ?_, ?_⟩
        · rw [words, hwords]
          simp only [List.append_assoc]
        · rw [hstart, List.length_append, size]
          omega

/-! ## Finding the names of a block -/

section Names

variable {start : Nat} {block : Block}

/-- The scope of a block lies in the scope of its body, behind a name that was not taken there. -/
theorem Inlines.ofScope_of_mem_blocks (hmacros : macros.WellFormed)
    (h : Inlines macros frame taken steps inl) (hblock : block ∈ inl.blocks start) :
    ∃ key path, Path.ofScope block.inst.scope = Path.ofScope frame.scope ++ key :: path ∧
      key ∉ taken := by
  induction h generalizing start with
  | done => cases hblock
  | word hrest ih => exact ih hblock
  | @block frame taken r rest code locals inst key body inl hdef harity hkey hinst hbody hrest
      ihbody ihrest =>
    obtain ⟨hscope, hnew⟩ := scope_ofScope hmacros hdef hkey hinst
    rcases List.mem_cons.1 hblock with rfl | hblock
    · exact ⟨key, [], hscope, hnew⟩
    · rcases List.mem_append.1 hblock with hblock | hblock
      · obtain ⟨key', path, hpath, -⟩ := ihbody hblock
        rw [hscope, List.append_assoc] at hpath
        -- an inner block has its path through the name of the outer one
        exact ⟨key, key' :: path, hpath, hnew⟩
      · obtain ⟨key', path, hpath, hnew'⟩ := ihrest hblock
        exact ⟨key', path, hpath, fun hmem => hnew' (List.mem_append_left _ hmem)⟩

/-- No two blocks have the same scope. -/
theorem Inlines.nodup_scopes (hmacros : macros.WellFormed)
    (h : Inlines macros frame taken steps inl) (start : Nat) :
    ((inl.blocks start).map fun block => Path.ofScope block.inst.scope).Nodup := by
  induction h generalizing start with
  | done => exact List.nodup_nil
  | word hrest ih => exact ih (start + 1)
  | @block frame taken r rest code locals inst key body inl hdef harity hkey hinst hbody hrest
      ihbody ihrest =>
    obtain ⟨hscope, -⟩ := scope_ofScope hmacros hdef hkey hinst
    -- blocks of the body have longer paths behind the same name, later ones have another name
    have hinner : ∀ b ∈ body.blocks start, ∃ key' path,
        Path.ofScope b.inst.scope = Path.ofScope frame.scope ++ key :: key' :: path := by
      intro b hb
      obtain ⟨key', path, hpath, -⟩ := hbody.ofScope_of_mem_blocks hmacros hb
      rw [hscope, List.append_assoc] at hpath
      exact ⟨key', path, hpath⟩
    have hlater : ∀ b ∈ inl.blocks (start + body.size), ∃ key' path,
        Path.ofScope b.inst.scope = Path.ofScope frame.scope ++ key' :: path ∧ key' ≠ key := by
      intro b hb
      obtain ⟨key', path, hpath, hnew⟩ := hrest.ofScope_of_mem_blocks hmacros hb
      exact ⟨key', path, hpath, fun heq => hnew (by simp [heq])⟩
    rw [Inlining.blocks, List.map_cons, List.map_append, List.nodup_cons, List.nodup_append]
    refine ⟨?_, ihbody start, ihrest _, ?_⟩
    · intro hmem
      have hself : Path.ofScope inst.scope = Path.ofScope frame.scope ++ [key] := hscope
      rcases List.mem_append.1 hmem with hmem | hmem
      · obtain ⟨b, hb, heq⟩ := List.mem_map.1 hmem
        obtain ⟨key', path, hpath⟩ := hinner b hb
        rw [heq, hself] at hpath
        simp at hpath
      · obtain ⟨b, hb, heq⟩ := List.mem_map.1 hmem
        obtain ⟨key', path, hpath, hne⟩ := hlater b hb
        rw [heq, hself] at hpath
        simp only [List.append_cancel_left_eq, List.cons.injEq] at hpath
        exact hne hpath.1.symm
    · -- a path through this block and a later one would go through two names at once
      rintro _ hmem _ hmem' rfl
      obtain ⟨b, hb, heq⟩ := List.mem_map.1 hmem
      obtain ⟨b', hb', heq'⟩ := List.mem_map.1 hmem'
      obtain ⟨key', path, hpath⟩ := hinner b hb
      obtain ⟨key'', path', hpath', hne⟩ := hlater b' hb'
      rw [heq', ← heq, hpath] at hpath'
      simp only [List.append_cancel_left_eq, List.cons.injEq] at hpath'
      exact hne hpath'.1.symm

/-- The names of a block are found at its scope, in a tree that holds the scopes of all blocks
behind the names that were taken. -/
theorem Inlines.descend_of_mem_blocks (hmacros : macros.WellFormed)
    (h : Inlines macros frame taken steps inl) {tree : SymbolTree} {name : String}
    {own : List (String × Symbol)} (htree : tree.entries = own ++ inl.scopes name start)
    (hown : own.map Prod.fst = taken) (hblock : block ∈ inl.blocks start) :
    ∃ path scope, Path.ofScope block.inst.scope = Path.ofScope frame.scope ++ path ∧
      tree.descend path =
        some (block.body.tree scope block.start block.inst.locals.entries) := by
  induction h generalizing start tree name own with
  | done => cases hblock
  | word hrest ih => exact ih htree hown hblock
  | @block frame taken r rest code locals inst key body inl hdef harity hkey hinst hbody hrest
      ihbody ihrest =>
    obtain ⟨hscope, hnew⟩ := scope_ofScope hmacros hdef hkey hinst
    -- the new name is not one of the names before it, so the lookup finds this block
    have hlocal : tree.local? key =
        some (.scope (body.tree (qualify name key) start inst.locals.entries)) := by
      rw [SymbolTree.local?, htree, List.lookup_append, lookup_eq_none (hown ▸ hnew)]
      simp [Inlining.scopes, Inlining.tree]
    rcases List.mem_cons.1 hblock with rfl | hblock
    · refine ⟨[key], qualify name key, hscope, ?_⟩
      simp [SymbolTree.descend, hlocal, Symbol.tree?]
    · rcases List.mem_append.1 hblock with hblock | hblock
      · have hlabels : (mapLabelEntries (body.place start) inst.locals.entries).map Prod.fst =
            locals.names := by
          rw [hinst]
          simp [mapLabelEntries_eq_map, SymbolTree.names, Function.comp_def]
        have hentries : (body.tree (qualify name key) start inst.locals.entries).entries =
            mapLabelEntries (body.place start) inst.locals.entries ++
              body.scopes (qualify name key) start := rfl
        obtain ⟨path, scope, hpath, hdescend⟩ := ihbody hentries hlabels hblock
        refine ⟨key :: path, scope, ?_, ?_⟩
        · rw [hpath, hscope, List.append_assoc]
          rfl
        · rw [SymbolTree.descend, hlocal]
          exact hdescend
      · have hentries : tree.entries =
            (own ++ [(key, .scope (body.tree (qualify name key) start inst.locals.entries))]) ++
              inl.scopes name (start + body.size) := by
          rw [htree, Inlining.scopes, List.append_assoc]
          rfl
        exact ihrest hentries (by simp [hown]) hblock

/-- A label of the body is found in the names that the body leaves, at the place it marks. -/
theorem Inlining.local?_tree {labels : List (String × Symbol)} {label : String} {offset : Nat}
    (hnodup : (labels.map Prod.fst).Nodup) (hlabel : (label, .label { offset }) ∈ labels)
    (inl : Inlining) (name : String) (start : Nat) :
    (inl.tree name start labels).local? label = some (.label (inl.place start { offset })) := by
  -- moving labels keeps their names, so they stay distinct
  have hnames : (mapLabelEntries (inl.place start) labels).map Prod.fst = labels.map Prod.fst := by
    simp [mapLabelEntries_eq_map, Function.comp_def]
  have hplaced : (mapLabelEntries (inl.place start) labels).lookup label =
      some (.label (inl.place start { offset })) := by
    rw [lookup_eq_some_iff (hnames ▸ hnodup), mapLabelEntries_eq_map]
    exact List.mem_map.2 ⟨_, hlabel, rfl⟩
  rw [SymbolTree.local?, tree, List.lookup_append, hplaced]
  rfl

/-- A label of a block is found by its path in the names of the host, at the place it marks. -/
theorem Inlines.find?_of_mem_blocks (hmacros : macros.WellFormed) {locals : SymbolTree}
    (h : Inlines macros none locals.names steps inl) (hblock : block ∈ inl.blocks 0)
    {label : String} {offset : Nat}
    (hlabel : (label, .label { offset }) ∈ block.inst.locals.entries) (name : String) :
    (inl.tree name 0 locals.entries).find? (block.inst.scope ++ "." ++ label) =
      some (.label (block.body.place block.start { offset })) := by
  obtain ⟨code, hdef, -, -⟩ := h.of_mem_blocks hblock
  obtain ⟨hcode, -⟩ := hmacros.isWritten hdef
  have hdotless : Dotless label := hcode.labels.dotless _ (List.mem_map_of_mem hlabel)
  have hlabels : (mapLabelEntries (inl.place 0) locals.entries).map Prod.fst = locals.names := by
    simp [mapLabelEntries_eq_map, SymbolTree.names, Function.comp_def]
  have hentries : (inl.tree name 0 locals.entries).entries =
      mapLabelEntries (inl.place 0) locals.entries ++ inl.scopes name 0 := rfl
  obtain ⟨path, scope, hpath, hdescend⟩ := h.descend_of_mem_blocks hmacros hentries hlabels hblock
  -- the path of a scope is not empty, so it is spelled by its name
  obtain ⟨key, rest, hscope, -⟩ := h.ofScope_of_mem_blocks hmacros hblock
  have hne : block.inst.scope ≠ "" := by
    intro heq
    simp [heq, Frame.scope] at hscope
  have hname : Path.ofName block.inst.scope = path := by
    rw [← Path.ofScope_of_ne hne, hpath]
    rfl
  rw [SymbolTree.find?, Path.ofName_append, Path.ofName_of_dotless hdotless, hname,
    SymbolTree.get?_concat, hdescend]
  exact Inlining.local?_tree hcode.labels.nodup hlabel _ _ _

end Names

end ControlStore
