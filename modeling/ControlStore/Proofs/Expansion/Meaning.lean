import Mathlib.Data.List.Nodup
import ControlStore.Proofs.Compilation
import ControlStore.Proofs.Expansion.Blocks

/-!
# What expansion means

The loop of single expansions does what recursive inlining says. Each sequence gets the words of
its expansion tree, names of macro bodies reach the labels of their own instances, and everything
that is not a sequence stays as it was read.
-/

namespace ControlStore

/-- The tree of a sequence, and the names that the sequence has after expansion: `names` resolves
every name of a macro body, at each of its instances, to that instance's copy of the label. -/
structure ReachesInstances (inl : Inlining) (names : SymbolTree) : Prop where
  /-- No two instances have the same scope. -/
  scopes : ((inl.blocks 0).map fun block => block.inst.scope).Nodup
  label : ∀ block ∈ inl.blocks 0, ∀ name ∈ block.inst.locals.names, ∃ offset,
    (name, .label { offset }) ∈ block.inst.locals.entries ∧
      names.find? (block.inst.scope ++ "." ++ name) =
        some (.label (block.body.place block.start { offset }))

/-- The labels of a host reach every instance in it: instances have their own scopes, and each label
of a macro is found behind the scope of the instance. -/
theorem Inlines.reachesInstances {macros locals : SymbolTree} (hmacros : macros.WellFormed)
    {steps : List Step} {inl : Inlining} (h : Inlines macros none locals.names steps inl)
    (name : String) : ReachesInstances inl (inl.tree name 0 locals.entries) := by
  refine ⟨?_, ?_⟩
  · have hpaths : (((inl.blocks 0).map fun block => block.inst.scope).map Path.ofScope).Nodup := by
      -- the scopes differ already as paths
      rw [List.map_map]
      exact h.nodup_scopes hmacros 0
    exact hpaths.of_map Path.ofScope
  · intro block hblock label hlabel
    obtain ⟨code, hdef, -, -⟩ := h.of_mem_blocks hblock
    obtain ⟨⟨label, symbol⟩, hentry, rfl⟩ := List.mem_map.1 hlabel
    obtain ⟨offset, -, rfl⟩ := (hmacros.isWritten hdef).1.labels.label _ hentry
    exact ⟨offset, hentry, h.find?_of_mem_blocks hmacros hblock hentry name⟩

/-- Expanding the macros of a program inlines each of its sequences recursively, takes one
expansion for each reference of the expansion trees, and changes nothing else. -/
theorem Program.expand_inlines {text : String} {program expanded : Program} {n : Nat}
    (hread : program.ReadFrom text) (hexpand : Program.expand.Yields program n expanded) :
    ∃ trees : String → Inlining,
      (∀ name code locals, (name, .sequence code locals) ∈ program.symbols.entries →
        code.isMacro = false →
          (∀ inl, Inlines program.symbols none locals.names code.steps inl ↔ inl = trees name) ∧
          ∃ names, ReachesInstances (trees name) names ∧
            (name, .sequence { code with steps := (trees name).words.map .assertion } names) ∈
              expanded.symbols.entries) ∧
      n = expansionCount trees program.symbols.entries ∧
      (∀ entry ∈ program.symbols.entries, entry.2.isPlaced = false →
        entry ∈ expanded.symbols.entries) ∧
      expanded.symbols.names = program.symbols.names ∧
      expanded = { program with
        symbols := { program.symbols with entries := expanded.symbols.entries } } := by
  have hsymbols := hread.wellFormed.symbols
  obtain ⟨trees, htrees, hn, rfl⟩ := Program.eq_of_expand hsymbols hexpand
  refine ⟨trees, ?_, hn, ?_, ?_, rfl⟩
  · intro name code locals hmem hkind
    have hinlines := htrees name code locals hmem hkind
    -- the tree is the only one, since a macro and its instance name are determined step by step
    refine ⟨fun inl => ⟨fun hinl => hinlines.unique hsymbols.nodup hinl, ?_⟩, _,
      hinlines.reachesInstances hsymbols locals.name, ?_⟩
    · rintro rfl
      exact hinlines
    exact List.mem_map.2 ⟨_, hmem, expandEntry_sequence trees name hkind locals⟩
  · intro entry hentry hkind
    exact List.mem_map.2 ⟨entry, hentry, expandEntry_of_not_isPlaced hkind⟩
  · simp [SymbolTree.names, Function.comp_def, expandEntry_fst]

/-- The sample text is read and expanded, so its sequences are inlined. -/
theorem Program.expand_inlines_sampleText : ∃ program n expanded,
    program.ReadFrom sampleText ∧ Program.expand.Yields program n expanded ∧
      ∃ trees, n = expansionCount trees program.symbols.entries ∧
        ∀ name code locals, (name, .sequence code locals) ∈ program.symbols.entries →
          code.isMacro = false →
            Inlines program.symbols none locals.names code.steps (trees name) := by
  obtain ⟨image, hcompile, -⟩ := exists_image_sampleText
  obtain ⟨c, -⟩ := compile_eq_ok_iff.1 hcompile
  obtain ⟨trees, hsequences, hn, -⟩ := Program.expand_inlines c.readFrom c.expands
  refine ⟨c.program, c.count, c.expanded, c.readFrom, c.expands, trees, hn, ?_⟩
  intro name code locals hmem hkind
  exact ((hsequences name code locals hmem hkind).1 _).2 rfl

end ControlStore
