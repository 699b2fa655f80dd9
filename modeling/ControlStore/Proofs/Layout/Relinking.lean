import ControlStore.Proofs.Layout.Progress
import ControlStore.Proofs.Symbol.Built
import ControlStore.Proofs.Symbol.Equality
import ControlStore.Proofs.Symbol.Writes

/-!
# Linking a linked program

A program that has been linked can be linked again, with the same layout and without any change, and
there is nothing left in it to expand (`Program.link_again`). The program may come from anywhere: its
entrypoints may name sequences inside other symbols, so that a sequence is placed both for itself and
with the sequence that holds it.

Linking is a list of writes to sequences: addresses (`yields_placeFrom_iff`) and then resolved steps
(`writes_of_resolveSequences`). Which addresses are written depends on the numbers of steps only, and
these stay. Steps that are resolved are resolved to themselves. So the second run makes the writes of
the first one once more, which changes nothing (`SymbolTree.writeAll_writeAll`).
-/

namespace ControlStore

namespace SymbolTree

variable {symbols : SymbolTree} {name : String}

/-- The steps of the sequence that a name finds. -/
def steps? (symbols : SymbolTree) (name : String) : Option (List Step) :=
  (symbols.code? name).map Code.steps

/-- The number of steps of the sequence that a name finds. -/
def stepCount? (symbols : SymbolTree) (name : String) : Option Nat :=
  (symbols.steps? name).map List.length

/-- The steps of a name are those of the sequence or macro it finds. -/
theorem steps?_eq_some_iff {steps : List Step} : symbols.steps? name = some steps ↔
    ∃ code locals, symbols.find? name = some (.sequence code locals) ∧ code.steps = steps := by
  rw [steps?, code?]
  cases hfind : symbols.find? name with
  | none => simp
  | some found => cases found <;> simp [Symbol.code?]

/-- A name has no steps exactly if it finds no sequence or macro. -/
theorem steps?_eq_none_iff : symbols.steps? name = none ↔
    ∀ code locals, symbols.find? name ≠ some (.sequence code locals) := by
  rw [steps?, code?]
  cases hfind : symbols.find? name with
  | none => simp
  | some found => cases found <;> simp [Symbol.code?]

/-- Writing an address leaves the steps of every name. -/
theorem steps?_write_address (symbols : SymbolTree) (name : String) (address : Nat) :
    (symbols.write (.ofName name) (.address address)).steps? = symbols.steps? := by
  funext other
  rw [steps?, steps?, code?_write]
  split
  · rw [Option.map_map]
    rfl
  · rfl

/-- Writing steps changes those of the one name, if it had some. -/
theorem steps?_write_steps (symbols : SymbolTree) (name other : String) (steps : List Step) :
    (symbols.write (.ofName name) (.steps steps)).steps? other =
      if other = name then (symbols.steps? other).map fun _ => steps else symbols.steps? other := by
  rw [steps?, steps?, code?_write]
  split
  · rw [Option.map_map, Option.map_map]
    rfl
  · rfl

/-- Writing an address leaves the number of steps. -/
theorem stepCount?_write_address (symbols : SymbolTree) (name : String) (address : Nat) :
    (symbols.write (.ofName name) (.address address)).stepCount? = symbols.stepCount? := by
  funext other
  rw [stepCount?, steps?_write_address, stepCount?]

/-- Steps are counted alike if others of the same number replace them. -/
theorem stepCount?_write_steps {steps steps' : List Step} (hsteps : symbols.steps? name = some steps)
    (hlength : steps'.length = steps.length) :
    (symbols.write (.ofName name) (.steps steps')).stepCount? = symbols.stepCount? := by
  funext other
  rw [stepCount?, steps?_write_steps, stepCount?]
  split
  · next hname =>
    subst hname
    rw [hsteps, Option.map_some, Option.map_some, Option.map_some, hlength]
  · rfl

/-! ## Placement as writes -/

/-- The addresses that are written when sequences with the given numbers of steps are placed. -/
def placements (count? : String → Option Nat) : Nat → List String → List (String × Write)
  | _, [] => []
  | address, name :: names =>
    match count? name with
    | some count => (name, .address address) :: placements count? (address + count) names
    | none => placements count? address names

/-- The address behind sequences with the given numbers of steps. -/
def stopOf (count? : String → Option Nat) (address : Nat) (names : List String) : Nat :=
  names.foldl (fun address name => address + (count? name).getD 0) address

/-- Addresses leave all steps as they are. -/
theorem steps?_writeAll_placements (symbols : SymbolTree) (count? : String → Option Nat)
    (address : Nat) (names : List String) :
    (symbols.writeAll (placements count? address names)).steps? = symbols.steps? := by
  induction names generalizing symbols address with
  | nil => rfl
  | cons name names ih =>
    rw [placements]
    split
    · exact (ih _ _).trans (steps?_write_address symbols name address)
    · exact ih symbols address

/-- Writing all addresses leaves the number of steps. -/
theorem stepCount?_writeAll_placements (symbols : SymbolTree) (count? : String → Option Nat)
    (address : Nat) (names : List String) :
    (symbols.writeAll (placements count? address names)).stepCount? = symbols.stepCount? := by
  funext name
  rw [stepCount?, steps?_writeAll_placements, stepCount?]

theorem adjust_placeAt_eq_write (symbols : SymbolTree) (name : String) (address : Nat) :
    symbols.adjust (.ofName name) (Symbol.placeAt address) =
      symbols.write (.ofName name) (.address address) := rfl

/-- Sequences are placed if none has a reference, and then their addresses are written. -/
theorem yields_placeFrom_iff {names : List String} {final : SymbolTree} {address needed : Nat} :
    (placeFrom address names).Yields symbols needed final ↔
      (∀ name ∈ names, ∀ steps, symbols.steps? name = some steps → references steps = []) ∧
      needed = stopOf symbols.stepCount? address names ∧
      final = symbols.writeAll (placements symbols.stepCount? address names) := by
  induction names generalizing symbols address with
  | nil => simp [placeFrom, stopOf, placements, writeAll, eq_comm]
  | cons name names ih =>
    rw [List.forall_mem_cons]
    -- a name without steps is passed over; otherwise its address is written and the rest starts
    -- behind its steps
    cases hsteps : symbols.steps? name with
    | none =>
      have hcount : symbols.stepCount? name = none := by rw [stepCount?, hsteps, Option.map_none]
      rw [yields_placeFrom_cons_of_not_sequence (steps?_eq_none_iff.1 hsteps), ih]
      simp [stopOf, placements, hcount]
    | some steps =>
      obtain ⟨code, locals, hfind, rfl⟩ := steps?_eq_some_iff.1 hsteps
      have hcount : symbols.stepCount? name = some code.steps.length := by
        rw [stepCount?, hsteps, Option.map_some]
      rw [yields_placeFrom_cons_iff hfind, Code.firstReference?_eq_none_iff,
        adjust_placeAt_eq_write, ih]
      simp [stopOf, placements, hcount, writeAll, steps?_write_address, stepCount?_write_address,
        and_assoc]

end SymbolTree

/-! ## Resolved steps -/

/-- A resolved assertion resolves to itself. -/
theorem Assertion.IsResolved.resolvesTo_self {a : Assertion} (h : a.IsResolved) (lookup : Lookup) :
    a.ResolvesTo lookup a := by
  refine ⟨rfl, rfl, List.forall₂_same.2 fun signal hsignal => ⟨rfl, ?_⟩⟩
  obtain ⟨value, hvalue⟩ := h signal hsignal
  rw [hvalue]
  exact .integer value

/-- Resolved steps resolve to themselves. -/
theorem StepsResolved.resolvesTo_self {steps : List Step} (h : StepsResolved steps)
    (lookup : Lookup) : List.Forall₂ (Step.ResolvesTo lookup) steps steps := by
  refine List.forall₂_same.2 fun step hstep => ?_
  obtain ⟨a, rfl, ha⟩ := h step hstep
  exact .assertion (ha.resolvesTo_self lookup)

/-- Resolved steps refer to no macro. -/
theorem StepsResolved.references_eq_nil {steps : List Step} (h : StepsResolved steps) :
    references steps = [] :=
  references_of_resolvesTo (h.resolvesTo_self fun _ => none)

namespace SymbolTree

variable {symbols final : SymbolTree} {name : String} {steps : List Step} {names : List String}

/-- If the name finds a sequence, its steps are resolved. -/
def ResolvedAt (symbols : SymbolTree) (name : String) : Prop :=
  ∀ steps, symbols.steps? name = some steps → StepsResolved steps

/-- The steps of the sequences that names find, as writes. -/
def stepWrites (symbols : SymbolTree) (names : List String) : List (String × Write) :=
  names.filterMap fun name => (symbols.steps? name).map fun steps => (name, .steps steps)

/-- A name without steps is passed over. -/
theorem resolveSequence_of_none (h : symbols.steps? name = none) :
    symbols.resolveSequence name = .ok symbols := by
  unfold resolveSequence
  split
  · next hfind => exact absurd hfind (steps?_eq_none_iff.1 h _ _)
  · rfl

/-- The steps of a sequence are replaced by as many steps that are resolved. -/
theorem exists_write_of_resolveSequence {resolved : SymbolTree}
    (hsteps : symbols.steps? name = some steps) (h : symbols.resolveSequence name = .ok resolved) :
    ∃ steps', steps'.length = steps.length ∧ StepsResolved steps' ∧
      resolved = symbols.write (.ofName name) (.steps steps') := by
  obtain ⟨code, locals, hfind, rfl⟩ := steps?_eq_some_iff.1 hsteps
  rw [resolveSequence, hfind] at h
  obtain ⟨steps', hresolves, rfl⟩ := map_eq_ok_iff.1 h
  rw [mapM_resolve_eq_ok_iff] at hresolves
  exact ⟨steps', hresolves.length_eq.symm, .of_resolvesTo hresolves, rfl⟩

/-- Steps that are resolved are written once more. -/
theorem resolveSequence_of_resolved (hsteps : symbols.steps? name = some steps)
    (hresolved : StepsResolved steps) :
    symbols.resolveSequence name = .ok (symbols.write (.ofName name) (.steps steps)) := by
  obtain ⟨code, locals, hfind, rfl⟩ := steps?_eq_some_iff.1 hsteps
  rw [resolveSequence, hfind]
  exact map_eq_ok_iff.2 ⟨_, mapM_resolve_eq_ok_iff.2 (hresolved.resolvesTo_self _), rfl⟩

/-- Steps that are resolved stay while other sequences are resolved. -/
theorem steps?_of_resolveSequences (hsteps : symbols.steps? name = some steps)
    (hresolved : StepsResolved steps) (h : (resolveSequences names).Yields symbols () final) :
    final.steps? name = some steps := by
  induction names generalizing symbols with
  | nil =>
    obtain ⟨-, rfl⟩ := Stage.yields_pure.1 h
    exact hsteps
  | cons other names ih =>
    obtain ⟨middle, hresolve, h⟩ := yields_resolveSequences_cons_iff.1 h
    refine ih ?_ h
    -- the steps written are the ones it has, whether it comes again or another does
    by_cases hname : name = other
    · subst hname
      rw [resolveSequence_of_resolved hsteps hresolved] at hresolve
      cases hresolve
      rw [steps?_write_steps, if_pos rfl, hsteps, Option.map_some]
    · cases hother : symbols.steps? other with
      | none =>
        rw [resolveSequence_of_none hother] at hresolve
        cases hresolve
        exact hsteps
      | some others =>
        obtain ⟨_, -, -, rfl⟩ := exists_write_of_resolveSequence hother hresolve
        rw [steps?_write_steps, if_neg hname, hsteps]

/-- Resolving sequences writes the steps that they have at the end. These are resolved, and as many
as before. -/
theorem writes_of_resolveSequences (h : (resolveSequences names).Yields symbols () final) :
    final = symbols.writeAll (final.stepWrites names) ∧ (∀ name ∈ names, final.ResolvedAt name) ∧
      final.stepCount? = symbols.stepCount? := by
  induction names generalizing symbols with
  | nil =>
    obtain ⟨-, rfl⟩ := Stage.yields_pure.1 h
    exact ⟨rfl, fun name hname => absurd hname List.not_mem_nil, rfl⟩
  | cons name names ih =>
    obtain ⟨middle, hresolve, h⟩ := yields_resolveSequences_cons_iff.1 h
    obtain ⟨hfinal, hnames, hcounts⟩ := ih h
    rw [List.forall_mem_cons]
    cases hsteps : symbols.steps? name with
    | none =>
      rw [resolveSequence_of_none hsteps] at hresolve
      cases hresolve
      -- the name finds no sequence afterwards either
      have hnone : final.steps? name = none := by
        have hcount := congrFun hcounts name
        rwa [stepCount?, stepCount?, hsteps, Option.map_none, Option.map_eq_none_iff] at hcount
      refine ⟨?_, ⟨fun steps h => ?_, hnames⟩, hcounts⟩
      · rwa [stepWrites, List.filterMap_cons, hnone]
      · rw [hnone] at h
        cases h
    | some steps =>
      obtain ⟨steps', hlength, hresolved, rfl⟩ := exists_write_of_resolveSequence hsteps hresolve
      have hwritten : (symbols.write (.ofName name) (.steps steps')).steps? name = some steps' := by
        rw [steps?_write_steps, if_pos rfl, hsteps, Option.map_some]
      -- resolved steps are left alone by the names that follow, also if this one is among them
      have hkept := steps?_of_resolveSequences hwritten hresolved h
      refine ⟨?_, ⟨fun steps h => ?_, hnames⟩, ?_⟩
      · rw [stepWrites, List.filterMap_cons, hkept]
        exact hfinal
      · rw [hkept] at h
        cases h
        exact hresolved
      · rw [hcounts, stepCount?_write_steps hsteps hlength]

/-- Where all steps are resolved, resolving sequences writes the steps that are there. -/
theorem yields_resolveSequences_of_resolved (h : ∀ name ∈ names, symbols.ResolvedAt name) :
    (resolveSequences names).Yields symbols () (symbols.writeAll (symbols.stepWrites names)) := by
  induction names generalizing symbols with
  | nil => exact Stage.yields_pure.2 ⟨rfl, rfl⟩
  | cons name names ih =>
    rw [List.forall_mem_cons] at h
    rw [yields_resolveSequences_cons_iff, stepWrites, List.filterMap_cons]
    cases hsteps : symbols.steps? name with
    | none => exact ⟨symbols, resolveSequence_of_none hsteps, ih h.2⟩
    | some steps =>
      refine ⟨_, resolveSequence_of_resolved hsteps (h.1 steps hsteps), ?_⟩
      -- writing the steps that are there changes none
      have hsame : (symbols.write (.ofName name) (.steps steps)).steps? = symbols.steps? := by
        funext other
        rw [steps?_write_steps]
        split
        · next hname =>
          subst hname
          rw [hsteps, Option.map_some]
        · rfl
      have hnames : ∀ other ∈ names,
          (symbols.write (.ofName name) (.steps steps)).ResolvedAt other := by
        intro other hother
        rw [ResolvedAt, hsame]
        exact h.2 other hother
      have hrest := ih hnames
      rw [stepWrites, hsame] at hrest
      exact hrest

/-- Addresses are written and then resolved sequences are resolved: these are writes, too. -/
theorem yields_resolveSequences_writeAll_placements (h : ∀ name ∈ names, symbols.ResolvedAt name)
    (count? : String → Option Nat) (address : Nat) :
    (resolveSequences names).Yields (symbols.writeAll (placements count? address names)) ()
      (symbols.writeAll (placements count? address names ++ symbols.stepWrites names)) := by
  have hsteps := steps?_writeAll_placements symbols count? address names
  have hkept : ∀ name ∈ names,
      (symbols.writeAll (placements count? address names)).ResolvedAt name := by
    intro name hname
    rw [ResolvedAt, hsteps]
    exact h name hname
  have hyields := yields_resolveSequences_of_resolved hkept
  rwa [stepWrites, hsteps, ← stepWrites, ← writeAll_append] at hyields

/-! ## What linking looks at -/

/-- Entrypoints are checked by the kind of what they find. -/
theorem checkEntrypoint_congr {other : SymbolTree}
    (h : (symbols.code? name).map Code.isMacro = (other.code? name).map Code.isMacro) :
    symbols.checkEntrypoint name = other.checkEntrypoint name := by
  have hcode : ∀ tree : SymbolTree, tree.checkEntrypoint name =
      match (tree.code? name).map Code.isMacro with
      | some isMacro => if isMacro then .error (.macroEntrypoint name) else .ok ()
      | none => .error (.notASequence name) := by
    intro tree
    rw [checkEntrypoint, code?]
    cases tree.find? name with
    | none => rfl
    | some found => cases found <;> rfl
  rw [hcode, hcode, h]

/-- The layout comes from the names and the kinds of the symbols. -/
theorem layout_congr {other : SymbolTree}
    (h : symbols.entries.map (fun entry => (entry.1, entry.2.isPlaced)) =
      other.entries.map fun entry => (entry.1, entry.2.isPlaced)) (fetch : String) :
    symbols.layout fetch = other.layout fetch := by
  have hkinds : ∀ tree : SymbolTree, tree.layout fetch = fetch ::
      ((tree.entries.map fun entry => (entry.1, entry.2.isPlaced)).filter
        fun kind => kind.1 ≠ fetch && kind.2).map Prod.fst := by
    intro tree
    rw [layout, List.filter_map, List.map_map]
    rfl
  rw [hkinds, hkinds, h]

/-- A sequence that takes up words is listed in the layout. -/
theorem mem_layout_of_isPlaced {symbol : Symbol} (hmem : (name, symbol) ∈ symbols.entries)
    (hkind : symbol.isPlaced = true) (fetch : String) : name ∈ symbols.layout fetch := by
  by_cases hname : name = fetch
  · exact hname ▸ List.mem_cons_self ..
  · refine List.mem_cons_of_mem _ (List.mem_map.2 ⟨_, List.mem_filter.2 ⟨hmem, ?_⟩, rfl⟩)
    simp [hname, hkind]

/-- Where all sequences of the layout are resolved, nothing is left to expand. -/
theorem isExpanded_of_resolvedAt (hnodup : symbols.names.Nodup)
    (hdotless : ∀ name ∈ symbols.names, Dotless name) {fetch : String}
    (h : ∀ name ∈ symbols.layout fetch, symbols.ResolvedAt name) : symbols.IsExpanded := by
  intro name code locals hmem hkind
  have hlisted : name ∈ symbols.layout fetch :=
    mem_layout_of_isPlaced hmem (isPlaced_eq_true_iff.2 ⟨code, locals, rfl, hkind⟩) fetch
  have hsteps : symbols.steps? name = some code.steps :=
    steps?_eq_some_iff.2 ⟨code, locals, find?_eq_of_mem hnodup hdotless hmem, rfl⟩
  exact (h name hlisted code.steps hsteps).references_eq_nil

/-- There is no place for an expansion in symbols that are expanded. -/
theorem IsExpanded.nextSite?_eq_none (h : symbols.IsExpanded) : symbols.nextSite? = none := by
  cases hsite : symbols.nextSite? with
  | none => rfl
  | some site =>
    obtain ⟨hentries, hkind, hsteps⟩ := entries_of_nextSite? hsite
    have hnone := h site.host.name site.host.code site.host.locals (by simp [hentries]) hkind
    simp [hsteps, references, Step.reference?] at hnone

/-- Expanding symbols that are expanded does nothing. -/
theorem IsExpanded.yields_expand (h : symbols.IsExpanded) : expand.Yields symbols 0 symbols := by
  unfold Stage.Yields Stage.run expand expandAll
  split
  · exact ⟨rfl, rfl⟩
  · next hsite =>
    rw [h.nextSite?_eq_none] at hsite
    cases hsite

end SymbolTree

namespace Program

variable {program placed linked : Program} {layout : List String}

/-- What is written, and the assertion for unused addresses, do not matter to the check of the
fetch sequence. -/
theorem checkedFetch_writeAll (program : Program) (writes : List (String × Write))
    (emptyAssertion : Option Assertion) :
    { program with symbols := program.symbols.writeAll writes, emptyAssertion }.checkedFetch =
      program.checkedFetch := by
  have hcheck : (program.symbols.writeAll writes).checkEntrypoint =
      program.symbols.checkEntrypoint := funext fun name =>
    SymbolTree.checkEntrypoint_congr (SymbolTree.isMacro_code?_writeAll writes program.symbols name)
  simp only [checkedFetch, hcheck]

/-! ## The second run -/

/-- What linking leaves: addresses and then the resolved steps are written, and all that linking
looks at is as it was before. -/
theorem exists_writes_of_link (h : link.Yields program layout linked) :
    ∃ fetch filled, linked.checkedFetch = .ok fetch ∧ layout = linked.symbols.layout fetch ∧
      (∀ name ∈ layout, linked.symbols.ResolvedAt name) ∧
      SymbolTree.stopOf linked.symbols.stepCount? 0 layout ≤ linked.length ∧
      linked.emptyAssertion = some filled ∧ filled.IsResolved ∧
      linked.symbols = program.symbols.writeAll
        (SymbolTree.placements linked.symbols.stepCount? 0 layout ++
          linked.symbols.stepWrites layout) := by
  obtain ⟨placed, hplace, hresolve⟩ := yields_link_iff.1 h
  obtain ⟨fetch, needed, _, hfetch, hlayout, hsymbols, hfits, rfl⟩ :=
    yields_place_iff_placeFrom.1 hplace
  obtain ⟨-, rfl, rfl⟩ := SymbolTree.yields_placeFrom_iff.1 hsymbols
  obtain ⟨symbols, hsequences, hempty⟩ := yields_resolve_sequences_iff.1 hresolve
  obtain ⟨empty, filled, -, hfilled, rfl⟩ := resolveEmpty_eq_ok_iff.1 hempty
  obtain ⟨hwrites, hresolved, hcounts⟩ := SymbolTree.writes_of_resolveSequences hsequences
  rw [SymbolTree.stepCount?_writeAll_placements] at hcounts
  have hsymbols : symbols = program.symbols.writeAll
      (SymbolTree.placements symbols.stepCount? 0 layout ++ symbols.stepWrites layout) := by
    rw [SymbolTree.writeAll_append, hcounts]
    exact hwrites
  refine ⟨fetch, filled, ?_, ?_, hresolved, ?_, rfl, hfilled.isResolved, hsymbols⟩
  · -- neither addresses nor steps matter to the checks and the order
    have hsame := checkedFetch_writeAll program
      (SymbolTree.placements symbols.stepCount? 0 layout ++ symbols.stepWrites layout) (some filled)
    rw [← hsymbols] at hsame
    exact hsame.trans hfetch
  · rw [hlayout]
    refine SymbolTree.layout_congr ?_ fetch
    dsimp only
    rw [hsymbols, SymbolTree.map_isPlaced_writeAll]
  · dsimp only
    rwa [hcounts]

/-- Once a program is linked, linking it again gives the same layout and changes nothing, and
expanding it makes no expansion and changes nothing. Nothing is asked of the program but that its
global names are different and have no dots, which storing symbols sees to (`Built.nodup_names`,
`Built.dotless`). Entrypoints may name sequences anywhere inside other symbols. -/
theorem link_again (hnodup : program.symbols.names.Nodup)
    (hdotless : ∀ name ∈ program.symbols.names, Dotless name)
    (h : link.Yields program layout linked) :
    link.Yields linked layout linked ∧ Program.expand.Yields linked 0 linked := by
  obtain ⟨fetch, filled, hfetch, hlayout, hresolved, hfits, hempty, hfilled, hsymbols⟩ :=
    exists_writes_of_link h
  constructor
  · -- the second run writes what the first one left, address by address and step by step
    have hreferences : ∀ name ∈ layout, ∀ steps, linked.symbols.steps? name = some steps →
        references steps = [] := fun name hname steps hsteps =>
      (hresolved name hname steps hsteps).references_eq_nil
    have hplace := yields_place_iff_placeFrom.2 ⟨fetch, _, _, hfetch, hlayout,
      SymbolTree.yields_placeFrom_iff.2 ⟨hreferences, rfl, rfl⟩, hfits, rfl⟩
    refine yields_link_iff.2 ⟨_, hplace, yields_resolve_sequences_iff.2 ⟨linked.symbols, ?_, ?_⟩⟩
    · -- these are the writes of the first run once more
      have hagain := SymbolTree.yields_resolveSequences_writeAll_placements hresolved
        linked.symbols.stepCount? 0
      have hsame := SymbolTree.writeAll_writeAll
        (SymbolTree.placements linked.symbols.stepCount? 0 layout ++
          linked.symbols.stepWrites layout) program.symbols
      rw [← hsymbols] at hsame
      rwa [hsame] at hagain
    · refine resolveEmpty_eq_ok_iff.2 ⟨filled, filled, hempty, hfilled.resolvesTo_self _, ?_⟩
      dsimp only
      rw [← hempty]
  · have hnames : linked.symbols.names = program.symbols.names := by
      rw [hsymbols, SymbolTree.names_writeAll]
    have hdone := SymbolTree.isExpanded_of_resolvedAt (hnames ▸ hnodup) (hnames ▸ hdotless)
      (hlayout ▸ hresolved)
    exact yields_expand.2 ⟨linked.symbols, hdone.yields_expand, rfl⟩

end Program

/-- A program that starts at a sequence inside another one. Its values are names: a global constant,
a label, and both sequences. -/
def startInside : Program where
  length := 4
  fetch := some "s.t"
  emptyAssertion := some { line := 1, signals := [⟨⟨"c", ⟨3, 0⟩, 0⟩, .symbol "k"⟩] }
  symbols := .ofEntries [
    ("k", .constant 5),
    ("s", .sequence
      { steps := [
          .assertion { line := 2, signals := [⟨⟨"c", ⟨3, 0⟩, 0⟩, .symbol "t"⟩] },
          .assertion { line := 3, signals := [⟨⟨"c", ⟨3, 0⟩, 0⟩, .symbol "here"⟩] }] }
      (.ofEntries [
        ("here", .label { offset := 1 }),
        ("t", .sequence
          { steps := [
              .assertion { line := 4, signals := [⟨⟨"c", ⟨3, 0⟩, 0⟩, .symbol "s.here"⟩] }] }
          .empty)]))]

/-- The program is placed with the inner sequence first, and linking it again changes nothing. -/
theorem Program.link_again_startInside : ∃ linked, link.Yields startInside ["s.t", "s"] linked ∧
    linked.symbols ≠ startInside.symbols ∧ link.Yields linked ["s.t", "s"] linked ∧
    Program.expand.Yields linked 0 linked := by
  have hlink : link.Yields startInside ["s.t", "s"] (link.run startInside).state :=
    ⟨by decide +kernel, rfl⟩
  refine ⟨_, hlink, by decide +kernel, link_again ?_ ?_ hlink⟩
  · decide +kernel
  · unfold Dotless
    decide +kernel

end ControlStore
