import Mathlib.Algebra.BigOperators.Group.List.Basic
import ControlStore.Proofs.Expansion.CallGraph
import ControlStore.Proofs.Symbol.Within

/-!
# Expansion among more symbols

The expander works on the first sequence that has a reference left, so the order of its expansions
depends on where sequences are defined. What it makes of a sequence does not: the expansion tree is
determined by the sequence itself and by the macros that can be reached from it. So a program whose
sequences all have trees is expanded to these trees (`Program.yields_expand_of_treesOf`), and with
other definitions around them, the sequences have the same trees (`Inlines.mono`).
-/

namespace ControlStore

/-- Steps have the same tree among more macros. -/
theorem Inlines.mono {macros others : SymbolTree}
    (h : ∀ name code locals, macros.IsMacro name code locals → others.IsMacro name code locals)
    {frame : Frame} {taken : List String} {steps : List Step} {inl : Inlining}
    (hinl : Inlines macros frame taken steps inl) : Inlines others frame taken steps inl := by
  induction hinl with
  | done => exact .done
  | word _ ih => exact .word ih
  | block hdef harity hkey hinst _ _ ihbody ihrest =>
    exact .block (h _ _ _ hdef) harity hkey hinst ihbody ihrest

section Trees

variable {macros : SymbolTree} {trees trees' : String → Inlining}
  {entries : List (String × Symbol)}

/-- A sequence has one tree only. -/
theorem TreesOf.unique (hnodup : macros.names.Nodup) (h : TreesOf macros trees entries)
    (h' : TreesOf macros trees' entries) {entry : String × Symbol} (hentry : entry ∈ entries)
    (hplaced : entry.2.isPlaced = true) : trees' entry.1 = trees entry.1 := by
  obtain ⟨name, symbol⟩ := entry
  obtain ⟨code, locals, rfl, hkind⟩ := isPlaced_eq_true_iff.1 hplaced
  exact (h name code locals hentry hkind).unique hnodup (h' name code locals hentry hkind)

/-- Entries are expanded alike if their sequences have the same trees. -/
theorem map_expandEntry_congr
    (h : ∀ entry ∈ entries, entry.2.isPlaced = true → trees' entry.1 = trees entry.1) :
    entries.map (expandEntry trees') = entries.map (expandEntry trees) := by
  refine List.map_congr_left fun entry hentry => ?_
  by_cases hplaced : entry.2.isPlaced = true
  · exact expandEntry_congr (h entry hentry hplaced)
  · have hother : entry.2.isPlaced = false := by simpa using hplaced
    rw [expandEntry_of_not_isPlaced hother, expandEntry_of_not_isPlaced hother]

/-- The number of expansions depends on the trees of the sequences only. -/
theorem expansionCount_congr
    (h : ∀ entry ∈ entries, entry.2.isPlaced = true → trees' entry.1 = trees entry.1) :
    expansionCount trees' entries = expansionCount trees entries := by
  refine congrArg List.sum (List.map_congr_left fun entry hentry => ?_)
  obtain ⟨hmem, hplaced⟩ := List.mem_filter.1 hentry
  rw [h entry hmem hplaced]

/-- The number of expansions does not depend on the order of the sequences. -/
theorem expansionCount_of_perm {others : List (String × Symbol)}
    (h : (entries.filter fun entry => entry.2.isPlaced).Perm
      (others.filter fun entry => entry.2.isPlaced)) :
    expansionCount trees entries = expansionCount trees others :=
  (h.map _).sum_eq

end Trees

namespace SymbolTree.PaddedTo

variable {symbols others : SymbolTree}

/-- A macro is one in the padded program too. -/
theorem isMacro (h : symbols.PaddedTo others) {name : String} {code : Code} {locals : SymbolTree}
    (hdef : symbols.IsMacro name code locals) : others.IsMacro name code locals :=
  ⟨h.subset hdef.mem, hdef.isMacro⟩

/-- Padding leaves the sequences as they are, but for their order. -/
theorem perm_sequences (h : symbols.PaddedTo others) (hnodup : symbols.names.Nodup)
    (hnodup' : others.names.Nodup) :
    (symbols.entries.filter fun entry => entry.2.isPlaced).Perm
      (others.entries.filter fun entry => entry.2.isPlaced) := by
  -- without duplicates, the same sequences are the same up to order
  have hfilter : ∀ {entries : List (String × Symbol)}, (entries.map Prod.fst).Nodup →
      (entries.filter fun entry => entry.2.isPlaced).Nodup := fun hentries =>
    hentries.of_map.sublist List.filter_sublist
  refine (List.perm_ext_iff_of_nodup (hfilter hnodup) (hfilter hnodup')).2 fun entry => ?_
  rw [List.mem_filter, List.mem_filter]
  constructor
  · rintro ⟨hmem, hplaced⟩
    exact ⟨h.subset hmem, hplaced⟩
  · rintro ⟨hmem, hplaced⟩
    exact ⟨h.sequence entry hmem hplaced, hplaced⟩

/-- Sequences have the same trees among more symbols. -/
theorem treesOf (h : symbols.PaddedTo others) {trees : String → Inlining}
    (htrees : TreesOf symbols trees symbols.entries) : TreesOf others trees others.entries := by
  intro name code locals hmem hkind
  have hmem' := h.sequence _ hmem (isPlaced_eq_true_iff.2 ⟨code, locals, rfl, hkind⟩)
  exact (htrees name code locals hmem' hkind).mono fun _ _ _ hdef => h.isMacro hdef

end SymbolTree.PaddedTo

namespace Program

/-- A program is expanded if all its sequences have trees, and then to these. -/
theorem yields_expand_of_treesOf {program : Program} (hsymbols : program.symbols.WellFormed)
    {trees : String → Inlining} (htrees : TreesOf program.symbols trees program.symbols.entries) :
    expand.Yields program (expansionCount trees program.symbols.entries)
      { program with symbols :=
        ⟨program.symbols.name, program.symbols.entries.map (expandEntry trees)⟩ } := by
  -- expansion ends one way or the other, and sequences that have trees leave no reason to fail
  rcases Stage.yields_or_fails expand program with ⟨n, expanded, hyields⟩ | ⟨error, hfails⟩
  · obtain ⟨trees', htrees', rfl, rfl⟩ := eq_of_expand hsymbols hyields
    have hsame : ∀ entry ∈ program.symbols.entries, entry.2.isPlaced = true →
        trees' entry.1 = trees entry.1 := fun entry hentry hplaced =>
      htrees.unique hsymbols.nodup htrees' hentry hplaced
    rw [expansionCount_congr hsame, map_expandEntry_congr hsame] at hyields
    exact hyields
  · have hreason := justified_of_fails hsymbols hfails
    refine absurd ?_ (hreason.not_expandable hsymbols.nodup)
    refine SymbolTree.expandable_of_unfolds hsymbols.nodup fun name code locals hmem hkind => ?_
    exact (htrees name code locals hmem hkind).unfolds

/-- With more symbols around its sequences, a program is expanded in as many expansions, and all
that it has after them is there. -/
theorem expand_padded {program other expanded : Program} {n : Nat}
    (hsymbols : program.symbols.WellFormed) (hother : other.symbols.WellFormed)
    (hpadded : program.symbols.PaddedTo other.symbols) (h : expand.Yields program n expanded) :
    ∃ symbols, expand.Yields other n { other with symbols } ∧
      expanded.symbols.Within symbols ∧
      expanded = { program with symbols := expanded.symbols } := by
  obtain ⟨trees, htrees, rfl, rfl⟩ := eq_of_expand hsymbols h
  have hyields := yields_expand_of_treesOf hother (hpadded.treesOf htrees)
  have hperm := hpadded.perm_sequences hsymbols.nodup hother.nodup
  rw [← expansionCount_of_perm hperm] at hyields
  refine ⟨_, hyields, ?_, rfl⟩
  exact (SymbolTree.within_of_subset hother.nodup hpadded.subset).map (expandEntry_fst trees)

end Program

end ControlStore
