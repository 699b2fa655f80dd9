import ControlStore.Proofs.Expansion.Termination
import ControlStore.Proofs.Symbol.Equality
import ControlStore.Proofs.Symbol.Update

/-!
# What a failed expansion leaves

An expansion looks up the macro, copies its steps, moves the labels of the host, stores the new
scope and then replaces the reference. It can fail at each of the first two and at the fourth.
`SymbolTree.expandIn` is the expansion in the sequence that a dotted name finds, whichever that is. It
agrees with the one that is made in the course of a whole expansion
(`SymbolTree.expandIn_eq_expand`).

Nothing has changed when the macro is missing or its steps cannot be copied. When there is no place
for the scope, the labels of the host have been moved, although the steps they mark have not
(`SymbolTree.Refused`). The loop adds nothing to this: what a failed expansion of a program leaves
is what its last expansion left.
-/

namespace ControlStore

namespace SymbolTree

variable {symbols : SymbolTree} {name : String} {error : ExpansionError}

/-- The sequence that a dotted name finds, cut at its first macro reference. It may lie inside
another symbol, and it may be a macro. -/
def hostAt? (symbols : SymbolTree) (name : String) : Option Host :=
  match symbols.find? name with
  | some (.sequence code locals) =>
    (cutAtFirst? Step.reference? code.steps).map fun (before, reference, after) =>
      { name, code, locals, before, reference, after }
  | _ => none

/-- Expands the first macro reference of the sequence that a dotted name finds, if it has one. -/
def expandIn (symbols : SymbolTree) (name : String) : Outcome ExpansionError SymbolTree Unit :=
  match symbols.hostAt? name with
  | none => { log := [], result := .ok (), state := symbols }
  | some host =>
    let site : Site := { earlier := [], host, later := [] }
    let replaced (steps : List Step) (locals : SymbolTree) : SymbolTree :=
      symbols.adjust (.ofName name) fun _ => .sequence { host.code with steps } locals
    match site.instantiate symbols with
    | .error error => { log := [], result := .error error, state := symbols }
    | .ok (inst, steps) =>
      let position := host.before.length
      let moved := host.locals.mapLabels
        (Label.makeRoom position host.code.steps.length steps.length)
      let scope := inst.locals.mapLabels (Label.moveTo position steps.length)
      match moved.insert? (.ofName inst.scope) (.scope scope) with
      | none =>
        { log := []
          result := .error (.scope inst.scope inst.reference.line)
          state := replaced host.code.steps moved }
      | some locals =>
        { log := [site.notice inst.scope steps.length]
          result := .ok ()
          state := replaced (host.before ++ steps ++ host.after) locals }

/-- The host of the next expansion is what its name finds. -/
theorem hostAt?_of_nextSite? {site : Site} (hnodup : symbols.names.Nodup)
    (hdotless : ∀ name ∈ symbols.names, Dotless name) (hsite : symbols.nextSite? = some site) :
    symbols.hostAt? site.host.name = some site.host := by
  obtain ⟨⟨earlier, host, later⟩, hcut, rfl⟩ := Option.map_eq_some_iff.1 hsite
  obtain ⟨entry, hentries, hentry⟩ := eq_of_cutAtFirst? hcut
  obtain ⟨rfl, hkind, -⟩ := Host.eq_of_ofEntry? hentry
  have hmem : (host.name, .sequence host.code host.locals) ∈ symbols.entries :=
    hentries ▸ List.mem_append_right _ (List.mem_cons_self ..)
  rw [hostAt?, find?_eq_of_mem hnodup hdotless hmem]
  simpa [Host.ofEntry?, hkind] using hentry

/-- Replacing the entry of a name by hand is adjusting it. -/
theorem adjust_ofName_eq {earlier later : List (String × Symbol)} {symbol other : Symbol}
    (hnodup : symbols.names.Nodup) (hdotless : Dotless name)
    (hentries : symbols.entries = earlier ++ (name, symbol) :: later) :
    symbols.adjust (.ofName name) (fun _ => other) =
      { symbols with entries := earlier ++ (name, other) :: later } := by
  rw [names, hentries, List.map_append, List.map_cons, List.nodup_append] at hnodup
  have hearlier : name ∉ earlier.map Prod.fst := fun hmem =>
    hnodup.2.2 name hmem name (List.mem_cons_self ..) rfl
  rw [Path.ofName_of_dotless hdotless, adjust, hentries, adjustEntry_append_of_not_mem hearlier,
    adjustEntry, if_pos rfl]

/-- Looking the host up by its name, the expansion is the one at the next site. -/
theorem expandIn_eq_expand {site : Site} (hnodup : symbols.names.Nodup)
    (hdotless : ∀ name ∈ symbols.names, Dotless name) (hsite : symbols.nextSite? = some site) :
    symbols.expandIn site.host.name = site.expand symbols := by
  obtain ⟨hentries, -, -⟩ := entries_of_nextSite? hsite
  have hname : Dotless site.host.name := hdotless _ (by simp [names, hentries])
  rw [expandIn, hostAt?_of_nextSite? hnodup hdotless hsite, Site.expand]
  simp only [adjust_ofName_eq hnodup hname hentries, Site.rebuild, Host.toEntry]
  rfl

/-- What a failed expansion in the sequence of the given name leaves. -/
inductive Refused (symbols : SymbolTree) (name : String) : ExpansionError → SymbolTree → Prop
  /-- The symbols are as they were, unless the scope could not be stored. -/
  | untouched {error : ExpansionError} (h : ∀ path line, error ≠ .scope path line) :
      Refused symbols name error symbols
  /-- The host has no tree to store the scope in. Its labels behind the reference have moved by the
  steps of the macro, and nothing else has changed. -/
  | moved {host : Host} {code : Code} {locals : SymbolTree} {path : String}
      (hhost : symbols.hostAt? name = some host)
      (hbody : symbols.macroOf host.reference = .ok (code, locals))
      (hpath : path = host.reference.scopePath host.locals)
      (hmissing : ∃ outer inner, path = outer ++ "." ++ inner ∧
        (host.locals.find? outer).bind Symbol.tree? = none) :
      Refused symbols name (.scope path host.reference.line)
        (symbols.adjust (.ofName name) fun _ => .sequence host.code
          (host.locals.mapLabels
            (Label.makeRoom host.before.length host.code.steps.length code.steps.length)))

end SymbolTree

/-! ## The exits of an expansion -/

/-- Looking for a macro never fails for want of a scope. -/
theorem SymbolTree.macroOf_ne_scope {symbols : SymbolTree} {reference : Reference}
    {error : ExpansionError} (h : symbols.macroOf reference = .error error) (path : String)
    (line : Nat) : error ≠ .scope path line := by
  rintro rfl
  unfold macroOf at h
  split at h
  · split at h
    · cases h
    · split at h <;> cases h
  · cases h

/-- Copying a step never fails for want of a scope. -/
theorem MacroInstance.copyStep_ne_scope {inst : MacroInstance} {step : Step}
    {error : ExpansionError} (h : inst.copyStep step = .error error) (path : String) (line : Nat) :
    error ≠ .scope path line := by
  rintro rfl
  cases step with
  | assertion a => cases h
  | reference r =>
    have hcopy := map_eq_error_iff.1 h
    unfold copyReference at hcopy
    dsimp only at hcopy
    split at hcopy
    · cases hcopy
    · split at hcopy <;> cases hcopy

namespace Site

variable {site : Site} {symbols : SymbolTree}

/-- Only the storing of a scope fails for want of a place for it. -/
theorem instantiate_ne_scope {error : ExpansionError}
    (h : site.instantiate symbols = .error error) (path : String) (line : Nat) :
    error ≠ .scope path line := by
  unfold instantiate at h
  rcases bind_eq_error_iff.1 h with hbody | ⟨⟨code, scope⟩, -, hcopies⟩
  · exact SymbolTree.macroOf_ne_scope hbody path line
  · rcases bind_eq_error_iff.1 hcopies with hcopies | ⟨_, -, hpure⟩
    · obtain ⟨step, -, hstep⟩ := exists_of_mapM_eq_error hcopies
      exact MacroInstance.copyStep_ne_scope hstep path line
    · cases hpure

/-- The instance at a site is one of the macro that the reference names, and has as many steps. -/
theorem instantiate_eq_ok {inst : MacroInstance} {steps : List Step}
    (h : site.instantiate symbols = .ok (inst, steps)) :
    ∃ code, symbols.macroOf site.host.reference = .ok (code, inst.locals) ∧
      inst.scope = site.host.reference.scopePath site.host.locals ∧
      inst.reference = site.host.reference ∧ steps.length = code.steps.length := by
  unfold instantiate at h
  obtain ⟨⟨code, scope⟩, hbody, hrest⟩ := bind_eq_ok_iff.1 h
  obtain ⟨copies, hcopies, heq⟩ := bind_eq_ok_iff.1 hrest
  obtain ⟨rfl, rfl⟩ := Prod.mk.inj (pure_eq_ok_iff.1 heq)
  exact ⟨code, hbody, rfl, rfl, (mapM_eq_ok_iff.1 hcopies).length_eq.symm⟩

end Site

namespace SymbolTree

variable {symbols : SymbolTree} {name : String} {error : ExpansionError}

/-- A sequence whose expansion fails is refused: it is untouched, or its labels were moved and the
scope of the instance had no place. -/
theorem refused_of_expandIn (h : (symbols.expandIn name).result = .error error) :
    symbols.Refused name error (symbols.expandIn name).state := by
  unfold expandIn at h ⊢
  split at h
  · cases h
  · next host hhost =>
    dsimp only at h ⊢
    split at h
    · next error' hinst =>
      cases h
      exact .untouched (Site.instantiate_ne_scope hinst)
    · next inst steps hinst =>
      obtain ⟨code, hbody, hscope, hreference, hlength⟩ := Site.instantiate_eq_ok hinst
      split at h
      · next hrefused =>
        cases h
        rw [hreference, hlength]
        refine .moved hhost hbody hscope ?_
        -- the insertion failed, so some outer part of the path leads nowhere
        obtain ⟨outer, inner, hpath, hmissing⟩ := insert?_eq_none_iff.1 hrefused
        rw [find?_mapLabels] at hmissing
        refine ⟨outer, inner, hpath, ?_⟩
        -- moving labels makes no tree and removes none
        cases hfound : host.locals.find? outer with
        | none => rfl
        | some found =>
          rw [hfound, Option.map_some, Option.bind_some, Symbol.tree?_mapLabels,
            Option.map_eq_none_iff] at hmissing
          exact hmissing
      · cases h

/-- The loop ends with what a failed expansion leaves of the symbols it has come to. -/
theorem exists_expandIn_of_expand {final : SymbolTree} (hbuilt : symbols.Built)
    (h : SymbolTree.expand.FailsIn symbols error final) :
    ∃ n middle name, ExpandsIn n symbols middle ∧
      (middle.expandIn name).result = .error error ∧ (middle.expandIn name).state = final := by
  obtain ⟨hfails, rfl⟩ := h
  rcases expandAll_run _ _ (Vocabulary.covers_ofSymbols symbols) with
    ⟨n, hok, -, -⟩ | ⟨n, middle, site, error', hrun, hsite, herror, hlast, hstate⟩
  · cases hfails.symm.trans hok
  · cases hfails.symm.trans hlast
    -- expansions keep the global names, so the host is still found under its own
    have hnodup := hrun.names_eq ▸ hbuilt.nodup_names
    have hdotless := hrun.names_eq ▸ hbuilt.dotless
    refine ⟨n, middle, site.host.name, hrun, ?_⟩
    rw [expandIn_eq_expand hnodup hdotless hsite]
    exact ⟨herror, hstate.symm⟩

end SymbolTree

namespace Program

/-- A program fails to expand as its symbols do, and keeps the rest of itself. -/
theorem failsIn_expand {program final : Program} {error : ExpansionError} :
    Program.expand.FailsIn program error final ↔
      ∃ symbols, SymbolTree.expand.FailsIn program.symbols error symbols ∧
        { program with symbols } = final := by
  rw [Program.expand, Stage.failsIn_bind, failsIn_onSymbols, or_iff_left]
  rintro ⟨count, middle, -, hrest, -⟩
  split at hrest
  · rcases Stage.fails_bind.1 hrest with hnote | ⟨_, _, -, hpure⟩
    · exact Stage.fails_note hnote
    · exact Stage.fails_pure hpure
  · exact Stage.fails_pure hrest

/-- A failed expansion in any sequence of a program leaves the program as it was, unless there is no
place for the scope, where it has moved the labels of the sequence. When the expansion of the whole
program fails, that is what is left of the program that its last successful expansion gave. -/
theorem refused_of_expand_fails {program : Program} (hbuilt : program.symbols.Built) :
    (∀ name error, (program.symbols.expandIn name).result = .error error →
      program.symbols.Refused name error (program.symbols.expandIn name).state) ∧
    ∀ error final, Program.expand.FailsIn program error final →
      ∃ n middle name, SymbolTree.ExpandsIn n program.symbols middle ∧
        (middle.expandIn name).result = .error error ∧
        middle.Refused name error final.symbols ∧
        final = { program with symbols := final.symbols } := by
  refine ⟨fun name error => SymbolTree.refused_of_expandIn, fun error final hfails => ?_⟩
  obtain ⟨symbols, hexpand, rfl⟩ := failsIn_expand.1 hfails
  obtain ⟨n, middle, name, hrun, herror, rfl⟩ :=
    SymbolTree.exists_expandIn_of_expand hbuilt hexpand
  exact ⟨n, middle, name, hrun, herror, SymbolTree.refused_of_expandIn herror, rfl⟩

/-- A sequence with a reference to a macro of two steps that has a parent which is no name of the
sequence, and a label behind the reference. -/
def straySymbols : SymbolTree :=
  .ofEntries
    [("m", .sequence
       { steps := [.assertion { line := 1 }, .assertion { line := 1 }], isMacro := true } .empty),
     ("s", .sequence
       { steps := [.reference { line := 1, symbol := "m", parent := "gone" }] }
       (.ofEntries [("l", .label { offset := 1 })]))]

/-- The symbols with a stray parent can be built by adding entries. -/
theorem built_straySymbols : straySymbols.Built := by
  have hlabel : ∀ l, (SymbolTree.ofEntries [("l", .label l)]).Built := by
    intro l
    refine SymbolTree.built_ofEntries ?_
    simp [Symbol.tree?]
  refine SymbolTree.built_ofEntries ?_
  simp [Symbol.tree?, SymbolTree.built_empty, hlabel]

/-- A reference below a scope that is not there is refused for its scope. -/
theorem expandIn_straySymbols :
    (straySymbols.expandIn "s").result = .error (.scope "gone._m_0" 1) := by
  decide +kernel

/-- The expansion in the sequence fails, but its label has moved by a step. -/
theorem straySymbols_refuted :
    straySymbols.Built ∧ (straySymbols.expandIn "s").result = .error (.scope "gone._m_0" 1) ∧
      straySymbols.find? "s.l" = some (.label { offset := 1 }) ∧
      (straySymbols.expandIn "s").state.find? "s.l" = some (.label { offset := 2 }) ∧
      (straySymbols.expandIn "s").state ≠ straySymbols := by
  refine ⟨built_straySymbols, expandIn_straySymbols, by decide +kernel, by decide +kernel, ?_⟩
  decide +kernel

/-- What the reference without a place for its scope leaves. -/
theorem refused_of_expand_fails_straySymbols :
    straySymbols.Built ∧
      straySymbols.Refused "s" (.scope "gone._m_0" 1) (straySymbols.expandIn "s").state ∧
      ∀ error final, Program.expand.FailsIn { symbols := straySymbols } error final →
        ∃ n middle name, SymbolTree.ExpandsIn n straySymbols middle ∧
          (middle.expandIn name).result = .error error ∧
          middle.Refused name error final.symbols ∧
          final = { symbols := final.symbols } := by
  have h := @refused_of_expand_fails { symbols := straySymbols } built_straySymbols
  exact ⟨built_straySymbols, h.1 "s" _ expandIn_straySymbols, h.2⟩

end Program

end ControlStore
