import ControlStore.Proofs.Layout.Progress

/-!
# Where resolution stops

What linking leaves when a name cannot be resolved. Sequences are resolved one after the other, and
each as a whole or not at all. So a run that fails stops in front of one sequence of the layout, or
behind all of them at the assertion for unused addresses (`Program.failsIn_resolve`). The sequences
before that place are resolved, and everything else is as placement left it
(`EntryStops`). Placement changes no steps, so the steps behind that place are still those that
linking started from (`Program.link_stops`).
-/

namespace ControlStore

/-! ## The place of the failure -/

/-- A failing resolution has resolved the sequences in front of the one that it stops at. -/
theorem failsIn_resolveSequences {names : List String} {symbols final : SymbolTree}
    {error : LinkError} (h : (resolveSequences names).FailsIn symbols error final) :
    ∃ done name rest, names = done ++ name :: rest ∧
      (resolveSequences done).Yields symbols () final ∧
      final.resolveSequence name = .error error := by
  induction names generalizing symbols with
  | nil => exact absurd h.1 Stage.fails_pure
  | cons name names ih =>
    rcases Stage.failsIn_bind.1 h with ⟨hget, -⟩ | ⟨_, _, hget, h⟩
    · exact absurd hget Stage.fails_get
    obtain ⟨rfl, rfl⟩ := Stage.yields_get.1 hget
    rcases Stage.failsIn_bind.1 h with hlift | ⟨resolved, _, hlift, h⟩
    · obtain ⟨hresolve, rfl⟩ := Stage.failsIn_liftM.1 hlift
      -- the name itself is refused, and nothing has been done
      exact ⟨[], name, names, rfl, Stage.yields_pure.2 ⟨rfl, rfl⟩, hresolve⟩
    · rcases Stage.failsIn_bind.1 h with ⟨hset, -⟩ | ⟨_, _, hset, h⟩
      · exact absurd hset Stage.fails_set
      obtain ⟨done, stopped, rest, rfl, hyields, hfails⟩ := ih h
      refine ⟨name :: done, stopped, rest, rfl, ?_, hfails⟩
      refine Stage.yields_bind.2 ⟨_, _, hget, ?_⟩
      refine Stage.yields_bind.2 ⟨_, _, hlift, ?_⟩
      exact Stage.yields_bind.2 ⟨_, _, hset, hyields⟩

namespace Program

/-- What is refused behind the first `i` sequences of the layout: the sequence there, or the
assertion for unused addresses if there is none. -/
def RefusedAt (program : Program) (layout : List String) (i : Nat) (error : LinkError) : Prop :=
  match layout[i]? with
  | some name => program.symbols.resolveSequence name = .error error
  | none => program.resolveEmpty = .error error

/-- A failing resolution stops behind some sequences of the layout, and has resolved these. -/
theorem failsIn_resolve {program final : Program} {layout : List String} {error : LinkError}
    (h : (resolve layout).FailsIn program error final) :
    ∃ i ≤ layout.length, ∃ symbols, final = { program with symbols } ∧
      (resolveSequences (layout.take i)).Yields program.symbols () symbols ∧
      final.RefusedAt layout i error := by
  rcases Stage.failsIn_bind.1 h with hsequences | ⟨_, _, hsequences, h⟩
  · obtain ⟨symbols, hsymbols, rfl⟩ := failsIn_onSymbols.1 hsequences
    obtain ⟨done, name, rest, rfl, hyields, hfails⟩ := failsIn_resolveSequences hsymbols
    refine ⟨done.length, by simp, symbols, rfl, by simpa using hyields, ?_⟩
    simpa [RefusedAt] using hfails
  · obtain ⟨symbols, hsymbols, rfl⟩ := yields_onSymbols.1 hsequences
    rcases Stage.failsIn_bind.1 h with ⟨hget, -⟩ | ⟨_, _, hget, h⟩
    · exact absurd hget Stage.fails_get
    obtain ⟨rfl, rfl⟩ := Stage.yields_get.1 hget
    rcases Stage.failsIn_bind.1 h with hlift | ⟨_, _, -, h⟩
    · obtain ⟨hempty, rfl⟩ := Stage.failsIn_liftM.1 hlift
      -- all sequences are resolved, and the empty assertion is refused
      refine ⟨layout.length, Nat.le_refl _, symbols, rfl, by rwa [List.take_length], ?_⟩
      simpa [RefusedAt] using hempty
    · exact absurd h.1 Stage.fails_set

end Program

/-! ## What is left -/

/-- A global symbol of a placed program when resolution has stopped behind the listed sequences:
these have resolved steps, and everything else is as it was placed. -/
inductive EntryStops (symbols : SymbolTree) (done : List String) :
    String × Symbol → String × Symbol → Prop
  | resolved {entry resolved : String × Symbol} (hdone : entry.1 ∈ done)
      (hentry : EntryResolves symbols entry resolved) : EntryStops symbols done entry resolved
  | kept {entry : String × Symbol} (hdone : entry.1 ∉ done) : EntryStops symbols done entry entry

/-- A program whose linking has stopped behind the first `i` sequences of its layout, in terms of
the program that linking started from and of what placement made of it. -/
structure Program.StoppedAt (expanded placed : Program) (layout : List String) (i : Nat)
    (final : Program) : Prop where
  /-- Only global symbols differ from the placed program. -/
  symbols : final = { placed with
    symbols := { placed.symbols with entries := final.symbols.entries } }
  /-- Of these, only sequences before the place have other steps. -/
  entries : List.Forall₂ (EntryStops placed.symbols (layout.take i)) placed.symbols.entries
    final.symbols.entries
  /-- All values in the sequences before the place are numbers. -/
  before : ∀ name ∈ layout.take i, ∃ code locals,
    (name, .sequence code locals) ∈ final.symbols.entries ∧
      ∀ step ∈ code.steps, ∃ a, step = .assertion a ∧ a.IsResolved
  /-- The other sequences have the steps that linking started from. -/
  behind : ∀ name ∈ layout.drop i, ∃ code locals code' locals',
    (name, .sequence code locals) ∈ expanded.symbols.entries ∧
      (name, .sequence code' locals') ∈ final.symbols.entries ∧ code'.steps = code.steps
  empty : final.emptyAssertion = expanded.emptyAssertion

namespace Program

/-- Resolving the first sequences of a layout leaves the others as they were placed. -/
theorem entryStops_of_resolveSequences {placed : Program} {layout done : List String}
    {symbols : SymbolTree} (hlink : placed.symbols.Linkable) (hnodup : done.Nodup)
    (hplaced : ∀ entry ∈ placed.symbols.entries, entry.1 ∈ layout ↔ entry.2.isPlaced = true)
    (hlayout : ∀ name ∈ layout, ∃ code locals,
      (name, .sequence code locals) ∈ placed.symbols.entries)
    (hdone : done ⊆ layout) (h : (resolveSequences done).Yields placed.symbols () symbols) :
    List.Forall₂ (EntryStops placed.symbols done) placed.symbols.entries symbols.entries ∧
      symbols.name = placed.symbols.name := by
  obtain ⟨steps, rfl, hsteps⟩ :=
    (yields_resolveSequences_iff hlink hnodup fun name hname => hlayout name (hdone hname)).1 h
  refine ⟨List.forall₂_map_right_iff.2 (List.forall₂_same.2 fun entry hentry => ?_), rfl⟩
  obtain ⟨name, symbol⟩ := entry
  by_cases hname : name ∈ done
  · -- a name that is done is a sequence with resolved steps; all others are as placement left them
    have hkind := (hplaced _ hentry).1 (hdone hname)
    obtain ⟨code, locals, rfl, hcode⟩ := isPlaced_eq_true_iff.1 hkind
    dsimp only
    rw [if_pos hname]
    exact .resolved hname (.sequence hcode (hsteps name hname code locals hentry))
  · dsimp only
    rw [if_neg hname]
    exact .kept hname

/-- A sequence that was placed has the steps that it had before. -/
theorem exists_steps_of_place {program placed : Program} {layout : List String}
    (hlink : program.symbols.Linkable) (h : place.Yields program layout placed) {name : String}
    (hname : name ∈ layout) : ∃ code locals code' locals',
      (name, .sequence code locals) ∈ program.symbols.entries ∧
        (name, .sequence code' locals') ∈ placed.symbols.entries ∧ code'.isMacro = false ∧
        code'.steps = code.steps := by
  obtain ⟨fetch, s, -, hmem, hkind, rfl, rfl, -⟩ := eq_of_place hlink h
  obtain ⟨symbol, hsymbol, hplaced⟩ := (SymbolTree.mem_layout_iff hmem hkind).1 hname
  obtain ⟨code, locals, rfl, hcode⟩ := isPlaced_eq_true_iff.1 hplaced
  exact ⟨code, locals, _, _, hsymbol,
    SymbolTree.mem_mapEntries_iff.2 ⟨_, hsymbol, if_pos hplaced⟩, hcode, rfl⟩

/-- Resolution that fails behind a placement stops at a place of the layout. -/
theorem stoppedAt_of_resolve {expanded placed final : Program} {layout : List String}
    {error : LinkError} (hlink : expanded.symbols.Linkable)
    (hplace : place.Yields expanded layout placed)
    (h : (resolve layout).FailsIn placed error final) :
    ∃ i ≤ layout.length, expanded.StoppedAt placed layout i final ∧
      final.RefusedAt layout i error := by
  obtain ⟨hlink', hnodup, hplaced, hlayout⟩ := mem_layout_of_place hlink hplace
  obtain ⟨i, hi, symbols, rfl, hyields, hrefused⟩ := failsIn_resolve h
  have hempty : placed.emptyAssertion = expanded.emptyAssertion := by
    obtain ⟨_, _, -, -, -, -, rfl, -⟩ := eq_of_place hlink hplace
    rfl
  obtain ⟨hentries, hname⟩ := entryStops_of_resolveSequences hlink'
    (hnodup.sublist (List.take_sublist i layout)) hplaced hlayout (List.take_subset i layout)
    hyields
  refine ⟨i, hi, ⟨?_, hentries, fun name hdone => ?_, fun name hbehind => ?_, hempty⟩, hrefused⟩
  · have hsymbols : symbols = { placed.symbols with entries := symbols.entries } :=
      SymbolTree.ext' hname rfl
    exact congrArg (fun symbols => { placed with symbols }) hsymbols
  · obtain ⟨_, _, code, locals, -, hmem, hkind, -⟩ :=
      exists_steps_of_place hlink hplace (List.mem_of_mem_take hdone)
    obtain ⟨resolved, hresolved, hstops⟩ := exists_of_forall₂_of_mem hentries.flip hmem
    cases hstops with
    | kept hnot => exact absurd hdone hnot
    | resolved _ hentry =>
      have hnumbers := hentry
      cases hentry with
      | kept hother => simp [Symbol.isPlaced, hkind] at hother
      | sequence hkind _ => exact ⟨_, _, hresolved, hnumbers.isResolved hkind⟩
  · obtain ⟨code, locals, code', locals', hold, hmem, -, hsteps⟩ :=
      exists_steps_of_place hlink hplace (List.mem_of_mem_drop hbehind)
    obtain ⟨left, hleft, hstops⟩ := exists_of_forall₂_of_mem hentries.flip hmem
    cases hstops with
    | kept _ => exact ⟨code, locals, code', locals', hold, hleft, hsteps⟩
    | resolved hdone _ =>
      -- a name stands at one place of the layout only
      have hsplit := hnodup
      rw [← List.take_append_drop i layout, List.nodup_append] at hsplit
      exact absurd rfl (hsplit.2.2 name hdone name hbehind)

/-- Linking that fails because of a name, or for want of an assertion for unused addresses, has
placed the program and stopped at a place of its layout. The sequences before that place are
resolved as a whole. The one at that place and all behind it, and the assertion for unused
addresses, have the steps and signals that they had before. Nothing but steps differs from the
placed program. -/
theorem link_stops {text : String} {program expanded final : Program} {n : Nat} {error : LinkError}
    (hread : program.ReadFrom text) (hexpand : Program.expand.Yields program n expanded)
    (hfails : link.FailsIn expanded error final)
    (herror : (∃ symbol line, error = .undefinedSymbol symbol line) ∨
      (∃ symbol line, error = .notAValue symbol line) ∨ error = .missingEmptyAssertion) :
    ∃ layout placed, place.Yields expanded layout placed ∧
      ∃ i ≤ layout.length, expanded.StoppedAt placed layout i final ∧
        final.RefusedAt layout i error := by
  have hlink := linkable_of_expand hread.wellFormed.symbols hexpand
  have hdone := isExpanded_of_expand hexpand
  rcases Stage.failsIn_bind.1 hfails with ⟨hplace, -⟩ | ⟨layout, placed, hplace, h⟩
  · -- placement is refused for other reasons
    rcases (fails_place_iff hlink hdone).1 hplace with hchecked | ⟨_, -, -, rfl⟩
    · have hconcern := concern_of_checkedFetch hchecked
      rcases herror with ⟨_, _, rfl⟩ | ⟨_, _, rfl⟩ | rfl <;> cases hconcern
    · simp at herror
  · rcases Stage.failsIn_bind.1 h with hresolve | ⟨_, _, -, h⟩
    · exact ⟨layout, placed, hplace, stoppedAt_of_resolve hlink hplace hresolve⟩
    · exact absurd h.1 Stage.fails_pure

end Program

/-- A text with a sequence that can be resolved, and behind it one whose last signal cannot. -/
def danglingText : String :=
  "config { controlwordwidth 6 microprogramlength 4 opwidth 1 bankmask 0 } " ++
  "control c 0 1:0 control d 0 3:2 const k 3 sequence s { assert { c: k } } " ++
  "sequence t { assert { c: k } assert { c: k, d: gone } } empty { c: k } entrypoints { fetch: s }"

/-- A name that is not there is reported with its line. -/
theorem compile_danglingText : (compile (.ok danglingText) false).result =
    .error (.link (.undefinedSymbol "gone" 1)) := by
  decide +kernel

/-- Linking the text stops at one of its sequences. -/
theorem Program.link_stops_danglingText : ∃ program n expanded final,
    program.ReadFrom danglingText ∧ Program.expand.Yields program n expanded ∧
      link.FailsIn expanded (.undefinedSymbol "gone" 1) final ∧
      ∃ layout placed, place.Yields expanded layout placed ∧
        ∃ i ≤ layout.length, expanded.StoppedAt placed layout i final ∧
          final.RefusedAt layout i (.undefinedSymbol "gone" 1) := by
  cases failsWith_of_compile compile_danglingText with
  | @link program expanded n _ hread hexpand hfails =>
    obtain ⟨final, hfails⟩ := hfails.exists_failsIn
    exact ⟨program, n, expanded, final, hread, hexpand, hfails,
      link_stops hread hexpand hfails (.inl ⟨_, _, rfl⟩)⟩

end ControlStore
