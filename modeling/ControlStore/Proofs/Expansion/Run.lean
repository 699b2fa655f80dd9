import ControlStore.Expansion
import ControlStore.Proofs.Expansion.Inlining
import ControlStore.Proofs.Program

/-!
# The run of an expansion

The loop of expansions, taken apart. `HostStep` is one expansion seen from its host: the first
reference is replaced by a copy of the macro's steps, and a scope joins the host's names. A
`HostRun` goes on until the host has no reference left, and an `EntriesRun` does so for one global
symbol after the other. `SymbolTree.entriesRun_of_expand` says that this is what expansion does.

References are resolved in the symbols as they stand during the run. They name the same macros as
in the symbols before the run (`Expanding`), since an expansion changes its host only and stores no
macro in it.
-/

namespace ControlStore

/-! ## Copies of a body -/

/-- The value paired with a name is the one at the position of the name. -/
theorem lookup_zip {β : Type} (names : List String) (values : List β) (name : String) :
    (names.zip values).lookup name = (names.idxOf? name).bind (values[·]?) := by
  induction names generalizing values with
  | nil => simp
  | cons first names ih =>
    cases values with
    | nil => simp
    | cons value values =>
      rw [List.zip_cons_cons, List.lookup_cons, List.idxOf?_cons, ih]
      by_cases h : name = first
      · simp [h]
      · have hne : first ≠ name := Ne.symm h
        cases names.idxOf? name <;> simp [beq_false_of_ne h, beq_false_of_ne hne]

/-- With enough arguments, values of an instance are those of its frame. -/
theorem MacroInstance.substitute_eq {inst : MacroInstance}
    (harity : inst.parameters.length ≤ inst.reference.arguments.length) (v : Value) :
    inst.substitute v = Frame.value (some inst) v := by
  cases v with
  | integer n => rfl
  | symbol name =>
    rw [substitute, Frame.value, lookup_zip]
    -- a parameter has an argument, since there are at least as many arguments
    cases hidx : inst.parameters.idxOf? name with
    | none => simp only [Option.bind_none, SymbolTree.contains_iff]
    | some i =>
      have hi : i < inst.reference.arguments.length :=
        Nat.lt_of_lt_of_le (List.idxOf?_eq_some_iff.1 hidx).1 harity
      simp [List.getElem?_eq_getElem hi]

/-- A copied step is the step in the frame of the instance. -/
theorem MacroInstance.eq_of_copyStep {inst : MacroInstance} {step copy : Step}
    (harity : inst.parameters.length ≤ inst.reference.arguments.length)
    (h : inst.copyStep step = .ok copy) : copy = Frame.step (some inst) step := by
  have hvalue : inst.substitute = Frame.value (some inst) := funext (substitute_eq harity)
  cases step with
  | assertion a =>
    rw [copyStep, copyAssertion, hvalue] at h
    exact (Except.ok.inj h).symm
  | reference r =>
    -- a nested reference is copied unless it leads back to a caller
    obtain ⟨nested, hnested, rfl⟩ := map_eq_ok_iff.1 h
    rw [copyReference, hvalue] at hnested
    split at hnested
    · cases hnested
    · split at hnested
      · cases hnested
        rfl
      · cases hnested

/-- Steps that are copied are the steps as the instance reads them. -/
theorem MacroInstance.eq_map_of_copySteps {inst : MacroInstance} {steps copies : List Step}
    (harity : inst.parameters.length ≤ inst.reference.arguments.length)
    (h : steps.mapM inst.copyStep = .ok copies) : copies = steps.map (Frame.step (some inst)) := by
  rw [mapM_eq_ok_iff] at h
  induction h with
  | nil => rfl
  | cons hstep _ ih => rw [List.map_cons, eq_of_copyStep harity hstep, ih]

/-! ## Steps and runs -/

/-- One expansion in a host, from its steps and names to those it has afterwards. -/
inductive HostStep (macros : SymbolTree) :
    List Step → SymbolTree → List Step → SymbolTree → Prop
  | splice {before after : List Step} {r : Reference} {code : Code}
      {scope locals locals' : SymbolTree} {inst : MacroInstance}
      (hbefore : references before = [])
      (hdef : macros.IsMacro r.symbol code scope)
      (harity : code.parameters.length ≤ r.arguments.length)
      (hinst : inst = ⟨r.scopePath locals, r, code.parameters, scope⟩)
      (hlocals :
        (locals.mapLabels (Label.makeRoom before.length
          (before ++ .reference r :: after).length code.steps.length)).insert?
            (.ofName inst.scope)
            (.scope (scope.mapLabels (Label.moveTo before.length code.steps.length))) =
          some locals') :
      HostStep macros (before ++ .reference r :: after) locals
        (before ++ code.steps.map (Frame.step (some inst)) ++ after) locals'

/-- A number of expansions in a host, until it has no reference left. -/
inductive HostRun (macros : SymbolTree) :
    Nat → List Step → SymbolTree → List Step → SymbolTree → Prop
  | done {steps : List Step} {locals : SymbolTree} (h : references steps = []) :
      HostRun macros 0 steps locals steps locals
  | step {n : Nat} {steps steps' final : List Step} {locals locals' names : SymbolTree}
      (hstep : HostStep macros steps locals steps' locals')
      (hrest : HostRun macros n steps' locals' final names) :
      HostRun macros (n + 1) steps locals final names

/-- A number of expansions in global symbols, until none has a reference left. -/
inductive EntriesRun (macros : SymbolTree) :
    Nat → List (String × Symbol) → List (String × Symbol) → Prop
  | nil : EntriesRun macros 0 [] []
  | kept {n : Nat} {entry : String × Symbol} {rest rest' : List (String × Symbol)}
      (hkind : entry.2.isPlaced = false) (hrest : EntriesRun macros n rest rest') :
      EntriesRun macros n (entry :: rest) (entry :: rest')
  | host {m n : Nat} {name : String} {code : Code} {locals locals' : SymbolTree}
      {steps : List Step} {rest rest' : List (String × Symbol)} (hkind : code.isMacro = false)
      (hrun : HostRun macros m code.steps locals steps locals')
      (hrest : EntriesRun macros n rest rest') :
      EntriesRun macros (m + n) ((name, .sequence code locals) :: rest)
        ((name, .sequence { code with steps } locals') :: rest')

/-- The symbols with code of their own are the sequences that are not macros. -/
theorem isPlaced_eq_true_iff {symbol : Symbol} :
    symbol.isPlaced = true ↔
      ∃ code locals, symbol = .sequence code locals ∧ code.isMacro = false := by
  cases symbol <;> simp [Symbol.isPlaced]

/-- An expansion in one of the symbols comes before a run of all of them. -/
theorem EntriesRun.prepend {macros : SymbolTree} {n : Nat} {name : String} {code : Code}
    {steps : List Step} {locals locals' : SymbolTree} {earlier later final : List (String × Symbol)}
    (hkind : code.isMacro = false) (hstep : HostStep macros code.steps locals steps locals')
    (hrun : EntriesRun macros n
      (earlier ++ (name, .sequence { code with steps } locals') :: later) final) :
    EntriesRun macros (n + 1) (earlier ++ (name, .sequence code locals) :: later) final := by
  -- the entries before the host are passed one by one; its expansion is the first of its own run
  induction earlier generalizing n final with
  | nil =>
    cases hrun with
    | kept hplaced hrest => simp [Symbol.isPlaced, hkind] at hplaced
    | host hkind' hhost hrest =>
      rw [Nat.add_right_comm]
      exact .host hkind (.step hstep hhost) hrest
  | cons entry earlier ih =>
    cases hrun with
    | kept hplaced hrest => exact .kept hplaced (ih hrest)
    | host hkind' hhost hrest =>
      rw [Nat.add_assoc]
      exact .host hkind' hhost (ih hrest)

/-! ## Cutting at the first reference -/

/-- A list that cannot be cut has no element to cut at. -/
theorem cutAtFirst?_eq_none {α β : Type} {f : α → Option β} {l : List α}
    (h : cutAtFirst? f l = none) : l.filterMap f = [] := by
  induction l with
  | nil => rfl
  | cons a as ih =>
    rw [cutAtFirst?] at h
    split at h
    · cases h
    · next hnone => rw [List.filterMap_cons, hnone, ih (Option.map_eq_none_iff.1 h)]

/-- What comes before the cut has no answer. -/
theorem filterMap_of_cutAtFirst? {α β : Type} {f : α → Option β} {l before after : List α} {b : β}
    (h : cutAtFirst? f l = some (before, b, after)) : before.filterMap f = [] := by
  induction l generalizing before with
  | nil => cases h
  | cons a as ih =>
    rw [cutAtFirst?] at h
    split at h
    · cases h
      rfl
    · next hnone =>
      obtain ⟨⟨p, q, r⟩, hcut, heq⟩ := Option.map_eq_some_iff.1 h
      cases heq
      rw [List.filterMap_cons, hnone, ih hcut]

/-- Where nothing can be expanded, the run is over. -/
theorem EntriesRun.of_nextSite?_eq_none {macros : SymbolTree} {entries : List (String × Symbol)}
    (h : cutAtFirst? Host.ofEntry? entries = none) : EntriesRun macros 0 entries entries := by
  -- no entry is a host, which is kept for the tail of the entries
  have hnone := List.filterMap_eq_nil_iff.1 (cutAtFirst?_eq_none h)
  clear h
  induction entries with
  | nil => exact .nil
  | cons entry rest ih =>
    obtain ⟨name, symbol⟩ := entry
    have hrest := ih fun e he => hnone e (List.mem_cons_of_mem _ he)
    by_cases hkind : symbol.isPlaced = true
    · obtain ⟨code, locals, rfl, hcode⟩ := isPlaced_eq_true_iff.1 hkind
      have hhost := hnone _ (List.mem_cons_self ..)
      simp only [Host.ofEntry?, hcode, Bool.false_eq_true, if_false,
        Option.map_eq_none_iff] at hhost
      exact .host hcode (.done (cutAtFirst?_eq_none hhost)) hrest
    · exact .kept (by simpa using hkind) hrest

/-! ## Macros during the run -/

/-- Symbols during the expansion of a program: their macros are those of the program, and no tree
inside them holds a macro. -/
structure Expanding (macros symbols : SymbolTree) : Prop where
  isMacro : ∀ name code locals, symbols.IsMacro name code locals → macros.IsMacro name code locals
  inner : ∀ entry ∈ symbols.entries, ∀ tree, entry.2.tree? = some tree → tree.macroBodies = []

/-- Labels have no macro among them. -/
theorem SymbolTree.OnlyLabels.macroBodies {tree : SymbolTree} {count : Nat}
    (h : tree.OnlyLabels count) : tree.macroBodies = [] := by
  rw [SymbolTree.macroBodies_def]
  have hlabel := h.label
  generalize tree.entries = entries at hlabel ⊢
  induction entries with
  | nil => rfl
  | cons entry rest ih =>
    obtain ⟨key, symbol⟩ := entry
    obtain ⟨offset, -, heq⟩ := hlabel _ (List.mem_cons_self ..)
    dsimp only at heq
    rw [entryBodies, heq, Symbol.macroBodies,
      ih fun e he => hlabel e (List.mem_cons_of_mem _ he), List.append_nil]

/-- Before the run no tree inside a symbol holds more than labels. -/
theorem SymbolTree.WellFormed.expanding {symbols : SymbolTree} (h : symbols.WellFormed) :
    Expanding symbols symbols := by
  refine ⟨fun _ _ _ hdef => hdef, ?_⟩
  rintro ⟨name, symbol⟩ hentry tree htree
  have hsymbol := h.symbol _ hentry
  cases symbol with
  | constant value => cases htree
  | label l => cases htree
  | scope locals => exact hsymbol.elim
  | sequence code locals =>
    cases htree
    exact hsymbol.labels.macroBodies

namespace Expanding

variable {macros symbols : SymbolTree}

/-- A macro that is found by a dotted name is a global symbol. -/
theorem isMacro_of_find? (h : Expanding macros symbols) {name : String} {code : Code}
    {locals : SymbolTree} (hfind : symbols.find? name = some (.sequence code locals))
    (hkind : code.isMacro = true) : symbols.IsMacro name code locals := by
  refine ⟨?_, hkind⟩
  rcases SymbolTree.mem_or_get?_of_find? hfind with
    hmem | ⟨entry, hentry, inner, path, -, htree, hget⟩
  · exact hmem
  · -- a macro inside another symbol
    have hbodies := h.inner entry hentry inner htree
    have hmem : code.steps ∈ inner.macroBodies := by
      refine SymbolTree.macroBodies_subset_of_get? hget ?_
      simp [Symbol.macroBodies, hkind]
    rw [hbodies] at hmem
    cases hmem

/-- A reference names a global symbol, and this is a macro with few enough parameters. -/
theorem isMacro_of_macroOf (h : Expanding macros symbols) {r : Reference} {code : Code}
    {locals : SymbolTree} (hof : symbols.macroOf r = .ok (code, locals)) :
    symbols.IsMacro r.symbol code locals ∧ code.parameters.length ≤ r.arguments.length := by
  obtain ⟨hfind, hkind, harity⟩ := SymbolTree.macroOf_eq_ok hof
  exact ⟨h.isMacro_of_find? hfind hkind, harity⟩

/-- An expansion is a step of its host. -/
theorem hostStep_of_expand (h : Expanding macros symbols) {site : Site}
    (hsite : symbols.nextSite? = some site) (hok : (site.expand symbols).result = .ok ()) :
    ∃ steps locals, HostStep macros site.host.code.steps site.host.locals steps locals ∧
      (site.expand symbols).state = site.rebuild symbols steps locals := by
  obtain ⟨-, -, hsteps⟩ := SymbolTree.entries_of_nextSite? hsite
  -- the host was cut at its first reference
  have hbefore : references site.host.before = [] := by
    obtain ⟨⟨earlier, host, later⟩, hcut, rfl⟩ := Option.map_eq_some_iff.1 hsite
    obtain ⟨⟨name, symbol⟩, -, hentry⟩ := eq_of_cutAtFirst? hcut
    cases symbol with
    | constant value => cases hentry
    | label l => cases hentry
    | scope locals => cases hentry
    | sequence code locals =>
      rw [Host.ofEntry?] at hentry
      split at hentry
      · cases hentry
      · obtain ⟨⟨before, r, after⟩, hfirst, rfl⟩ := Option.map_eq_some_iff.1 hentry
        exact filterMap_of_cutAtFirst? hfirst
  unfold Site.expand at hok ⊢
  split at hok
  · cases hok
  · next inst copies hinst =>
    unfold Site.instantiate at hinst
    obtain ⟨⟨code, scope⟩, hof, hrest⟩ := bind_eq_ok_iff.1 hinst
    obtain ⟨copies, hcopies, heq⟩ := bind_eq_ok_iff.1 hrest
    obtain ⟨rfl, rfl⟩ := Prod.mk.inj (pure_eq_ok_iff.1 heq)
    obtain ⟨hdef, harity⟩ := h.isMacro_of_macroOf hof
    have hmap := MacroInstance.eq_map_of_copySteps (by exact harity) hcopies
    dsimp only at hok ⊢
    split at hok
    · cases hok
    · next locals hlocals =>
      refine ⟨_, locals, ?_, rfl⟩
      rw [hmap, List.length_map] at hlocals
      rw [hsteps] at hlocals ⊢
      rw [hmap]
      exact .splice hbefore (h.isMacro _ _ _ hdef) harity rfl hlocals

/-- An expansion stores no macro, and changes none. -/
theorem expand (h : Expanding macros symbols) {site : Site}
    (hsite : symbols.nextSite? = some site) (hok : (site.expand symbols).result = .ok ()) :
    Expanding macros (site.expand symbols).state := by
  obtain ⟨hentries, hkind, -⟩ := SymbolTree.entries_of_nextSite? hsite
  obtain ⟨code, scope, inst, steps, locals, hof, -, -, hlocals, hstate⟩ := Site.expand_eq_ok hok
  obtain ⟨hdef, -⟩ := h.isMacro_of_macroOf hof
  rw [hstate]
  -- an entry of the new symbols is the host or was there before
  have hmem : ∀ entry ∈ (site.rebuild symbols (site.host.before ++ steps ++ site.host.after)
      locals).entries, entry ∈ symbols.entries ∨
        ∃ steps, entry = (site.host.name, .sequence { site.host.code with steps } locals) := by
    intro entry hentry
    rw [hentries]
    simp only [Site.rebuild, Host.toEntry, List.mem_append, List.mem_cons] at hentry ⊢
    rcases hentry with hentry | rfl | hentry
    · exact .inl (.inl hentry)
    · exact .inr ⟨_, rfl⟩
    · exact .inl (.inr (.inr hentry))
  refine ⟨?_, ?_⟩
  · intro name code' locals' hdef'
    rcases hmem _ hdef'.mem with hold | ⟨steps', heq⟩
    · exact h.isMacro _ _ _ ⟨hold, hdef'.isMacro⟩
    · cases heq
      have hnot := hdef'.isMacro
      simp [hkind] at hnot
  · intro entry hentry tree htree
    rcases hmem _ hentry with hold | ⟨steps', rfl⟩
    · exact h.inner _ hold tree htree
    · cases htree
      -- the labels of the host hold those it had and those of the macro, neither with a macro
      -- inside
      have hscope := h.inner _ hdef.mem scope rfl
      have hhost : site.host.locals.macroBodies = [] := by
        refine h.inner (site.host.name, .sequence site.host.code site.host.locals) ?_ _ rfl
        rw [hentries]
        exact List.mem_append_right _ (List.mem_cons_self ..)
      refine List.eq_nil_iff_forall_not_mem.2 fun body hbody => ?_
      have hbodies := hlocals body hbody
      rw [hscope, hhost] at hbodies
      rcases hbodies with hin | hin <;> cases hin

end Expanding

/-! ## The whole loop -/

/-- Expanding until nothing is left is a run of all global symbols. -/
theorem entriesRun_of_expandAll {macros symbols final : SymbolTree} {vocabulary : Vocabulary}
    {covers : vocabulary.Covers symbols} {n : Nat} (h : Expanding macros symbols)
    (hok : (expandAll vocabulary symbols covers).result = .ok n)
    (hfinal : (expandAll vocabulary symbols covers).state = final) :
    EntriesRun macros n symbols.entries final.entries ∧ final.name = symbols.name := by
  fun_induction expandAll vocabulary symbols covers generalizing n final with
  | case1 symbols covers hsite =>
    cases hok
    subst hfinal
    exact ⟨.of_nextSite?_eq_none (Option.map_eq_none_iff.1 hsite), rfl⟩
  | case2 symbols covers site hsite error hfirst => cases hok
  | case3 symbols covers site hsite first hfirst hweight =>
    rename_i rest ih
    -- the first expansion is put in front of the run that follows it
    obtain ⟨m, hm, rfl⟩ := map_eq_ok_iff.1 hok
    obtain ⟨hrun, hname⟩ := ih (h.expand hsite hfirst) hm hfinal
    obtain ⟨hentries, hkind, -⟩ := SymbolTree.entries_of_nextSite? hsite
    obtain ⟨steps, locals, hstep, hstate⟩ := h.hostStep_of_expand hsite hfirst
    rw [hstate] at hrun hname
    rw [hentries]
    exact ⟨.prepend hkind hstep hrun, hname⟩

/-- Expanding a program is expanding its symbols. -/
theorem Program.yields_expand {program expanded : Program} {n : Nat} :
    Program.expand.Yields program n expanded ↔
      ∃ final, SymbolTree.expand.Yields program.symbols n final ∧
        { program with symbols := final } = expanded := by
  rw [Program.expand, Stage.yields_bind, ← Program.yields_onSymbols]
  constructor
  · rintro ⟨count, middle, hexpand, hrest⟩
    split at hrest
    · obtain ⟨_, state, hnote, hpure⟩ := Stage.yields_bind.1 hrest
      obtain ⟨rfl, rfl⟩ := Stage.yields_pure.1 hpure
      rwa [← Stage.yields_note.1 hnote]
    · obtain ⟨rfl, rfl⟩ := Stage.yields_pure.1 hrest
      exact hexpand
  · intro hexpand
    refine ⟨n, expanded, hexpand, ?_⟩
    split
    · refine Stage.yields_bind.2 ⟨(), expanded, Stage.yields_note.2 rfl, ?_⟩
      exact Stage.yields_pure.2 ⟨rfl, rfl⟩
    · exact Stage.yields_pure.2 ⟨rfl, rfl⟩

/-- A program fails to expand with the error of its symbols. -/
theorem Program.fails_expand {program : Program} {error : ExpansionError} :
    Program.expand.Fails program error ↔ SymbolTree.expand.Fails program.symbols error := by
  rw [Program.expand, Stage.fails_bind, Program.fails_onSymbols, or_iff_left]
  rintro ⟨count, middle, -, hrest⟩
  split at hrest
  · rcases Stage.fails_bind.1 hrest with hnote | ⟨_, _, -, hpure⟩
    · exact Stage.fails_note hnote
    · exact Stage.fails_pure hpure
  · exact Stage.fails_pure hrest

/-- What expansion does to a program: a run of its global symbols, and nothing else. -/
theorem Program.entriesRun_of_expand {program expanded : Program} {n : Nat}
    (hsymbols : program.symbols.WellFormed) (h : Program.expand.Yields program n expanded) :
    ∃ final, expanded = { program with symbols := final } ∧ final.name = program.symbols.name ∧
      EntriesRun program.symbols n program.symbols.entries final.entries := by
  obtain ⟨final, ⟨hresult, rfl⟩, rfl⟩ := Program.yields_expand.1 h
  obtain ⟨hrun, hname⟩ := entriesRun_of_expandAll hsymbols.expanding hresult rfl
  exact ⟨_, rfl, hname, hrun⟩

end ControlStore
