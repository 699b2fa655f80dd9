import Mathlib.Data.List.Chain
import ControlStore.Proofs.Expansion.Meaning
import ControlStore.Proofs.Expansion.Termination

/-!
# When expansion fails

Which macros call which others is a graph on their names, and it can be read off the text.
`SymbolTree.Calls` is that graph, `SymbolTree.Reaches` says which references an expansion can come
to, and `SymbolTree.Expandable` is the condition on them: each one names a macro and has enough
arguments, and no macro leads back to itself.

Expansion itself knows nothing about the graph. It looks at the chain of callers that each copied
reference brings along. `Tracks` is what a run keeps about these references: each of them is a copy
of a reference that can be reached, its chain is a path in the graph, and the scope in which it
belongs is there. So every error of a run has its reason in the text
(`Program.justified_of_fails`), and a run that succeeds leaves no cycle behind, since each of its
expansion trees is finite (`SymbolTree.Unfolds`).
-/

namespace ControlStore

/-! ## The call graph -/

namespace SymbolTree

/-- The body of the macro with the given name has the reference. -/
def Refers (symbols : SymbolTree) (name : String) (r : Reference) : Prop :=
  ∃ code locals, symbols.IsMacro name code locals ∧ r ∈ references code.steps

/-- The body of the first macro has a reference to the second one. -/
def Calls (symbols : SymbolTree) (caller callee : String) : Prop :=
  ∃ r, symbols.Refers caller r ∧ r.symbol = callee

/-- The references of sequences, and those of the macros that such references lead to. -/
inductive Reaches (symbols : SymbolTree) : Reference → Prop
  | sequence {name : String} {code : Code} {locals : SymbolTree} {r : Reference}
      (hmem : (name, .sequence code locals) ∈ symbols.entries) (hkind : code.isMacro = false)
      (hr : r ∈ references code.steps) : Reaches symbols r
  | body {r nested : Reference} (hr : Reaches symbols r)
      (hnested : symbols.Refers r.symbol nested) : Reaches symbols nested

/-- Every reference that can be reached names a macro with few enough parameters, and no macro that
it names leads back to itself. -/
structure Expandable (symbols : SymbolTree) : Prop where
  defined : ∀ r, symbols.Reaches r → ∃ code locals, symbols.IsMacro r.symbol code locals ∧
    code.parameters.length ≤ r.arguments.length
  acyclic : ∀ r, symbols.Reaches r → ¬Relation.TransGen symbols.Calls r.symbol r.symbol

/-! ## Finite trees have no cycles -/

/-- The reference names a macro, and so do the references in its body, down to bodies that have
none. -/
inductive Unfolds (symbols : SymbolTree) : Reference → Prop
  | intro {r : Reference} {code : Code} {locals : SymbolTree}
      (hdef : symbols.IsMacro r.symbol code locals)
      (harity : code.parameters.length ≤ r.arguments.length)
      (hbody : ∀ nested ∈ references code.steps, Unfolds symbols nested) : Unfolds symbols r

variable {symbols : SymbolTree}

/-- Distinct names: a name stands for at most one macro. -/
theorem IsMacro.unique {name : String} {code code' : Code} {locals locals' : SymbolTree}
    (hnodup : symbols.names.Nodup) (h : symbols.IsMacro name code locals)
    (h' : symbols.IsMacro name code' locals') : code = code' ∧ locals = locals' := by
  have hentry := entry_unique hnodup h.mem h'.mem
  cases hentry
  exact ⟨rfl, rfl⟩

namespace Unfolds

variable {r nested : Reference}

/-- A macro that unfolds refers only to macros that unfold. -/
theorem of_refers (hnodup : symbols.names.Nodup) (h : symbols.Unfolds r)
    (hnested : symbols.Refers r.symbol nested) : symbols.Unfolds nested := by
  obtain ⟨code, locals, hdef, hmem⟩ := hnested
  cases h with
  | intro hdef' _ hbody =>
    obtain ⟨rfl, rfl⟩ := hdef.unique hnodup hdef'
    exact hbody nested hmem

/-- There is no infinite chain of calls from a reference that unfolds. -/
theorem acc (hnodup : symbols.names.Nodup) (h : symbols.Unfolds r) :
    Acc (Function.swap symbols.Calls) r.symbol := by
  induction h with
  | intro hdef _ _ ih =>
    refine Acc.intro _ ?_
    rintro _ ⟨nested, ⟨code, locals, hdef', hmem⟩, rfl⟩
    obtain ⟨rfl, rfl⟩ := hdef'.unique hnodup hdef
    exact ih nested hmem

/-- The calls of a macro that unfolds never lead back to it. -/
theorem acyclic (hnodup : symbols.names.Nodup) (h : symbols.Unfolds r) :
    ¬Relation.TransGen symbols.Calls r.symbol r.symbol := by
  intro hcycle
  have hacc := (h.acc hnodup).transGen
  rw [← Relation.transGen_swap] at hcycle
  generalize r.symbol = name at hacc hcycle
  induction hacc with
  | intro name _ ih => exact ih name hcycle hcycle

end Unfolds

/-- If all references of sequences unfold, the program is expandable. -/
theorem expandable_of_unfolds (hnodup : symbols.names.Nodup)
    (h : ∀ name code locals, (name, .sequence code locals) ∈ symbols.entries →
      code.isMacro = false → ∀ r ∈ references code.steps, symbols.Unfolds r) :
    symbols.Expandable := by
  -- induction on how the reference is reached, from a sequence through the bodies of macros
  have hreached : ∀ r, symbols.Reaches r → symbols.Unfolds r := by
    intro r hr
    induction hr with
    | sequence hmem hkind hr => exact h _ _ _ hmem hkind _ hr
    | body _ hnested ih => exact ih.of_refers hnodup hnested
  refine ⟨fun r hr => ?_, fun r hr => (hreached r hr).acyclic hnodup⟩
  cases hreached r hr with
  | intro hdef harity _ => exact ⟨_, _, hdef, harity⟩

end SymbolTree

/-- What is inlined names macros all the way down. -/
theorem Inlines.unfolds {symbols : SymbolTree} {frame : Frame} {taken : List String}
    {steps : List Step} {inl : Inlining} (h : Inlines symbols frame taken steps inl) :
    ∀ r ∈ references steps, symbols.Unfolds r := by
  induction h with
  | done => exact fun r hr => absurd hr List.not_mem_nil
  | word _ ih => exact ih
  | block hdef harity _ _ _ _ ihbody ihrest =>
    exact List.forall_mem_cons.2 ⟨.intro hdef harity ihbody, ihrest⟩

/-- A program whose expansion succeeds is expandable. -/
theorem Program.expandable_of_expand {program expanded : Program} {n : Nat}
    (hsymbols : program.symbols.WellFormed) (h : Program.expand.Yields program n expanded) :
    program.symbols.Expandable := by
  obtain ⟨trees, htrees, -, -⟩ := Program.eq_of_expand hsymbols h
  refine SymbolTree.expandable_of_unfolds hsymbols.nodup ?_
  intro name code locals hmem hkind
  exact (htrees name code locals hmem hkind).unfolds

/-! ## References during a run -/

/-- The reference stands for one that is written, with the same macro and as many arguments. -/
structure Reference.Copies (r written : Reference) : Prop where
  symbol : r.symbol = written.symbol
  line : r.line = written.line
  arguments : r.arguments.length = written.arguments.length

/-- What is known about a reference of a host that has not been expanded yet. -/
structure Pending (macros locals : SymbolTree) (r : Reference) : Prop where
  written : ∃ written, macros.Reaches written ∧ r.Copies written
  /-- The scope of the expansion that it comes from. -/
  scope : ∃ tree, locals.descend (.ofScope r.parent) = some tree
  chain : (r.callers ++ [r.symbol]).IsChain macros.Calls

/-- A pending reference stays pending when an instance is put into the labels of its host. -/
theorem Pending.splice {macros locals : SymbolTree} {r : Reference} (h : Pending macros locals r)
    (path : Path) (name key : String) (start total count : Nat) (labels : List (String × Symbol)) :
    Pending macros (locals.splice path name key start total count labels) r := by
  obtain ⟨tree, htree⟩ := h.scope
  refine ⟨h.written, ?_, h.chain⟩
  exact SymbolTree.exists_descend_extend (SymbolTree.descend_mapLabels_of_eq htree _) _ _

/-- The references of the copied steps are the copies of the references of the steps. -/
theorem references_map_step (frame : Frame) (steps : List Step) :
    references (steps.map frame.step) = (references steps).map frame.reference := by
  induction steps with
  | nil => rfl
  | cons step steps ih =>
    cases step with
    | assertion a => exact ih
    | reference r => exact congrArg (frame.reference r :: ·) ih

/-- A copy of a reference in the body of a macro has the macro as its last caller. -/
theorem Pending.copy {macros locals locals' tree : SymbolTree} {inst : MacroInstance}
    {nested : Reference} (h : Pending macros locals inst.reference)
    (hnested : macros.Refers inst.reference.symbol nested)
    (hscope : locals'.descend (.ofScope inst.scope) = some tree) :
    Pending macros locals' (Frame.reference (some inst) nested) := by
  obtain ⟨written, hreached, hcopies⟩ := h.written
  -- the copy stands for the written reference; its chain is that of the instance and one more call
  refine ⟨⟨nested, hreached.body (hcopies.symbol ▸ hnested), ?_⟩, ⟨tree, hscope⟩, ?_⟩
  · exact ⟨rfl, rfl, Frame.length_arguments_reference _ nested⟩
  · refine h.chain.append (List.isChain_singleton nested.symbol) ?_
    simp only [List.getLast?_concat, List.head?_cons, Option.mem_some_iff]
    rintro _ rfl _ rfl
    exact ⟨nested, hnested, rfl⟩

/-- The scope of the expansion is stored in the scope that the reference comes from. -/
theorem Pending.insert?_scope {macros locals scope : SymbolTree} {r : Reference} {code : Code}
    (hmacros : macros.WellFormed) (h : Pending macros locals r)
    (hdef : macros.IsMacro r.symbol code scope) (start total : Nat) :
    ∃ tree, locals.descend (.ofScope r.parent) = some tree ∧
      r.scopePath locals = qualify r.parent (r.scopeKey tree.names) ∧
      (locals.mapLabels (Label.makeRoom start total code.steps.length)).insert?
          (.ofName (r.scopePath locals))
          (.scope (scope.mapLabels (Label.moveTo start code.steps.length))) =
        some (locals.splice (.ofScope r.parent) tree.name (r.scopeKey tree.names) start total
          code.steps.length scope.entries) := by
  obtain ⟨tree, htree⟩ := h.scope
  obtain ⟨hcode, hdotless⟩ := hmacros.isWritten hdef
  have hpath := Reference.scopePath_eq hdotless htree
  refine ⟨tree, htree, hpath, ?_⟩
  rw [hpath, Path.ofName_qualify _ (Reference.dotless_scopeKey hdotless _)]
  exact SymbolTree.insert?_eq_splice hcode.labels htree (r.scopeKey_not_mem _)

/-- The references that an expansion puts into its host are pending there, and those behind them
still are. -/
theorem HostStep.pending {macros locals locals' : SymbolTree} {steps steps' : List Step}
    (hmacros : macros.WellFormed) (h : HostStep macros steps locals steps' locals')
    (hpending : ∀ r ∈ references steps, Pending macros locals r) :
    ∀ r ∈ references steps', Pending macros locals' r := by
  cases h with
  | @splice before after r code scope _ _ inst hbefore hdef harity hinst hlocals =>
    have hr : Pending macros locals r :=
      hpending r (by simp [references_append, references_reference_cons])
    have hreference : inst.reference = r := by rw [hinst]
    have hscope : inst.scope = r.scopePath locals := by rw [hinst]
    obtain ⟨tree, htree, hpath, hstored⟩ := hr.insert?_scope hmacros hdef before.length
      (before ++ .reference r :: after).length
    rw [hscope, hstored, Option.some.injEq] at hlocals
    subst hlocals
    intro r' hr'
    rw [references_append, references_append, hbefore, List.nil_append, List.mem_append] at hr'
    -- the reference comes from the copied body, or stood behind the expanded one
    rcases hr' with hr' | hr'
    · rw [references_map_step] at hr'
      obtain ⟨nested, hnested, rfl⟩ := List.mem_map.1 hr'
      have hkey : Path.ofScope inst.scope = .ofScope r.parent ++ [r.scopeKey tree.names] := by
        rw [hscope, hpath, Path.ofScope_qualify _
          (Reference.dotless_scopeKey (hmacros.isWritten hdef).2 _) (r.scopeKey_ne_empty _)]
      have hinner := SymbolTree.descend_splice before.length
        (before ++ .reference r :: after).length code.steps.length scope.entries tree.name htree
        (r.scopeKey_not_mem _)
      rw [← hkey] at hinner
      exact Pending.copy (hreference ▸ hr) ⟨code, scope, hreference ▸ hdef, hnested⟩ hinner
    · have hafter : r' ∈ references (before ++ .reference r :: after) := by
        simp [references_append, references_reference_cons, hr']
      exact (hpending r' hafter).splice _ _ _ _ _ _ _

/-- Symbols during a run, and the macros of the program that is expanded. -/
structure Tracks (macros symbols : SymbolTree) : Prop where
  expanding : Expanding macros symbols
  names : symbols.names = macros.names
  isMacro : ∀ name code locals, macros.IsMacro name code locals → symbols.IsMacro name code locals
  pending : ∀ name code locals, (name, .sequence code locals) ∈ symbols.entries →
    code.isMacro = false → ∀ r ∈ references code.steps, Pending macros locals r

namespace Tracks

variable {macros symbols : SymbolTree}

/-- Before the run all references are as they are written. -/
theorem start (hmacros : macros.WellFormed) : Tracks macros macros := by
  refine ⟨hmacros.expanding, rfl, fun _ _ _ h => h, ?_⟩
  intro name code locals hmem hkind r hr
  obtain ⟨hparent, hcallers⟩ := (hmacros.symbol _ hmem).references r hr
  refine ⟨⟨r, .sequence hmem hkind hr, rfl, rfl, rfl⟩, ?_, ?_⟩
  · exact ⟨locals, by rw [hparent]; rfl⟩
  · rw [hcallers]
    exact List.isChain_singleton _

/-- A pass changes its host only, and leaves the references there pending. -/
theorem expandsTo (hmacros : macros.WellFormed) (h : Tracks macros symbols) {next : SymbolTree}
    (hpass : symbols.ExpandsTo next) : Tracks macros next := by
  have hnames := hpass.names_eq
  obtain ⟨site, hsite, hok, rfl⟩ := hpass
  obtain ⟨hentries, hkind, -⟩ := SymbolTree.entries_of_nextSite? hsite
  obtain ⟨steps, locals, hstep, hstate⟩ := h.expanding.hostStep_of_expand hsite hok
  have hhost : (site.host.name, .sequence site.host.code site.host.locals) ∈ symbols.entries := by
    rw [hentries]
    exact List.mem_append_right _ (List.mem_cons_self ..)
  -- macros are kept since the host is not one; references are pending in the host by its step and
  -- in the other sequences as before
  refine ⟨h.expanding.expand hsite hok, hnames.trans h.names, ?_, ?_⟩
  · intro name code scope hdef
    have hold := h.isMacro name code scope hdef
    refine ⟨?_, hold.isMacro⟩
    have hmem := hold.mem
    rw [hentries, List.mem_append, List.mem_cons] at hmem
    rw [hstate, Site.rebuild, List.mem_append, List.mem_cons]
    rcases hmem with hmem | heq | hmem
    · exact .inl hmem
    · cases heq
      rw [hold.isMacro] at hkind
      cases hkind
    · exact .inr (.inr hmem)
  · intro name code scope hmem hcode
    rw [hstate, Site.rebuild, List.mem_append, List.mem_cons] at hmem
    have hother : (name, .sequence code scope) ∈ site.earlier ++ site.later →
        (name, .sequence code scope) ∈ symbols.entries := by
      intro hmem
      rw [hentries, List.mem_append, List.mem_cons]
      exact (List.mem_append.1 hmem).imp_right .inr
    rcases hmem with hmem | heq | hmem
    · exact h.pending name code scope (hother (List.mem_append_left _ hmem)) hcode
    · cases heq
      exact hstep.pending hmacros (h.pending _ _ _ hhost hkind)
    · exact h.pending name code scope (hother (List.mem_append_right _ hmem)) hcode

/-- The references of a program are tracked over any number of expansions. -/
theorem expandsIn (hmacros : macros.WellFormed) (h : Tracks macros symbols) {n : Nat}
    {final : SymbolTree} (hrun : SymbolTree.ExpandsIn n symbols final) : Tracks macros final := by
  induction hrun with
  | refl symbols => exact h
  | head hfirst _ ih => exact ih (h.expandsTo hmacros hfirst)

end Tracks

/-! ## Reasons for errors -/

/-- The reason that the text of a program has for an error: a reference that can be reached, and
what is wrong with the macro that it names. -/
def ExpansionError.Justified (symbols : SymbolTree) : ExpansionError → Prop
  | .undefinedMacro name line | .notAMacro name line =>
    ∃ r, symbols.Reaches r ∧ r.symbol = name ∧ r.line = line ∧
      ∀ code locals, ¬symbols.IsMacro name code locals
  | .argumentCount name line given expected =>
    ∃ r code locals, symbols.Reaches r ∧ r.symbol = name ∧ r.line = line ∧
      symbols.IsMacro name code locals ∧ r.arguments.length = given ∧
      code.parameters.length = expected ∧ given < expected
  | .selfReference name line =>
    ∃ r, symbols.Reaches r ∧ r.symbol = name ∧ r.line = line ∧ symbols.Refers name r
  | .recursiveExpansion cycle line =>
    ∃ r inner, symbols.Reaches r ∧ r.line = line ∧ cycle = r.symbol :: inner ++ [r.symbol] ∧
      cycle.IsChain symbols.Calls
  | .scope _ _ => False

/-- A path of calls from a macro back to itself is a cycle. -/
theorem SymbolTree.transGen_of_isChain {symbols : SymbolTree} {name : String} {inner : List String}
    (h : (name :: inner ++ [name]).IsChain symbols.Calls) :
    Relation.TransGen symbols.Calls name name := by
  obtain ⟨hpath, -, hlast⟩ := List.isChain_append.1 h
  have hcalls := hlast _ (List.getLast_mem_getLast? (List.cons_ne_nil name inner)) name rfl
  exact .tail' (List.relationReflTransGen_of_exists_isChain_cons inner hpath rfl) hcalls

/-- A program with a reason for an error is not expandable. -/
theorem ExpansionError.Justified.not_expandable {symbols : SymbolTree} {error : ExpansionError}
    (hnodup : symbols.names.Nodup) (h : error.Justified symbols) : ¬symbols.Expandable := by
  intro hexpandable
  -- three of the errors contradict that a reached reference has its macro, two that the calls have
  -- no cycle
  have hundefined : ∀ r, symbols.Reaches r →
      ¬∀ code locals, ¬symbols.IsMacro r.symbol code locals := by
    intro r hr hnone
    obtain ⟨code, locals, hdef, -⟩ := hexpandable.defined r hr
    exact hnone code locals hdef
  cases error with
  | undefinedMacro name line =>
    obtain ⟨r, hr, rfl, -, hnone⟩ := h
    exact hundefined r hr hnone
  | notAMacro name line =>
    obtain ⟨r, hr, rfl, -, hnone⟩ := h
    exact hundefined r hr hnone
  | argumentCount name line given expected =>
    obtain ⟨r, code, locals, hr, rfl, -, hdef, rfl, rfl, hlt⟩ := h
    obtain ⟨code', locals', hdef', harity⟩ := hexpandable.defined r hr
    obtain ⟨rfl, rfl⟩ := hdef.unique hnodup hdef'
    omega
  | selfReference name line =>
    obtain ⟨r, hr, rfl, -, hrefers⟩ := h
    exact hexpandable.acyclic r hr (.single ⟨r, hrefers, rfl⟩)
  | recursiveExpansion cycle line =>
    obtain ⟨r, inner, hr, -, rfl, hchain⟩ := h
    exact hexpandable.acyclic r hr (SymbolTree.transGen_of_isChain hchain)
  | scope path line => exact h

namespace Tracks

variable {macros symbols : SymbolTree} {error : ExpansionError}

/-- A macro that cannot be resolved is missing, or takes too many parameters. -/
theorem justified_of_macroOf (hmacros : macros.WellFormed) (h : Tracks macros symbols)
    {locals : SymbolTree} {r : Reference} (hr : Pending macros locals r)
    (herror : symbols.macroOf r = .error error) : error.Justified macros := by
  obtain ⟨written, hreached, hcopies⟩ := hr.written
  -- a macro of the first program is still found under its name
  have hfind : ∀ code scope, macros.IsMacro r.symbol code scope →
      symbols.find? r.symbol = some (.sequence code scope) := by
    intro code scope hdef
    refine SymbolTree.find?_eq_of_mem ?_ ?_ (h.isMacro _ _ _ hdef).mem
    · rw [h.names]
      exact hmacros.nodup
    · rw [h.names]
      exact hmacros.dotless
  unfold SymbolTree.macroOf at herror
  split at herror
  · next code scope hfound =>
    split at herror
    · next hkind =>
      cases herror
      refine ⟨written, hreached, hcopies.symbol.symm, hcopies.line.symm, ?_⟩
      intro code' scope' hdef
      rw [hfind _ _ hdef] at hfound
      cases hfound
      simp [hdef.isMacro] at hkind
    · next hkind =>
      have hdef := h.expanding.isMacro_of_find? hfound (by simpa using hkind)
      split at herror
      · next hlt =>
        cases herror
        exact ⟨written, code, scope, hreached, hcopies.symbol.symm, hcopies.line.symm,
          h.expanding.isMacro _ _ _ hdef, hcopies.arguments.symm, rfl, hlt⟩
      · cases herror
  · next hother =>
    cases herror
    refine ⟨written, hreached, hcopies.symbol.symm, hcopies.line.symm, ?_⟩
    intro code scope hdef
    exact hother code scope (hfind _ _ hdef)

/-- A reference is refused in a copy of a body only if it closes a cycle. -/
theorem justified_of_copyReference {locals : SymbolTree} {inst : MacroInstance}
    {nested : Reference} (h : Pending macros locals inst.reference)
    (hnested : macros.Refers inst.reference.symbol nested)
    (herror : inst.copyReference nested = .error error) : error.Justified macros := by
  obtain ⟨written, hreached, hcopies⟩ := h.written
  have hreaches : macros.Reaches nested := hreached.body (hcopies.symbol ▸ hnested)
  unfold MacroInstance.copyReference at herror
  dsimp only at herror
  split at herror
  · next hself =>
    cases herror
    exact ⟨nested, hreaches, hself, rfl, hnested⟩
  · split at herror
    · cases herror
    · next chain hne =>
      cases herror
      -- the chain is the part of the callers from the nested macro on
      generalize hchain : inst.reference.callers.dropWhile (· ≠ nested.symbol) = chain at hne ⊢
      obtain ⟨first, inner, rfl⟩ := List.exists_cons_of_ne_nil hne
      have hfirst : first = nested.symbol := by
        have hnot := List.head?_dropWhile_not (· ≠ nested.symbol) inst.reference.callers
        rw [hchain] at hnot
        simpa using hnot
      -- the chain of callers is a chain of calls, and so is its end
      have hsuffix : first :: inner ++ [inst.reference.symbol] <:+
          inst.reference.callers ++ [inst.reference.symbol] := by
        rw [← hchain]
        exact (List.suffix_append_inj_of_length_eq rfl).2 ⟨List.dropWhile_suffix _, rfl⟩
      have hcalls : ((first :: inner ++ [inst.reference.symbol]) ++ [nested.symbol]).IsChain
          macros.Calls := by
        refine (h.chain.suffix hsuffix).append (List.isChain_singleton _) ?_
        simp only [List.getLast?_concat, List.head?_cons, Option.mem_some_iff]
        rintro _ rfl _ rfl
        exact ⟨nested, hnested, rfl⟩
      subst hfirst
      refine ⟨nested, inner ++ [inst.reference.symbol], hreaches, rfl, ?_, ?_⟩
      · simp
      · simpa using hcalls

/-- Whenever an expansion fails, there is a reason for its error. -/
theorem justified_of_expand (hmacros : macros.WellFormed) (h : Tracks macros symbols) {site : Site}
    (hsite : symbols.nextSite? = some site)
    (herror : (site.expand symbols).result = .error error) : error.Justified macros := by
  obtain ⟨hentries, hkind, hsteps⟩ := SymbolTree.entries_of_nextSite? hsite
  have hhost : (site.host.name, .sequence site.host.code site.host.locals) ∈ symbols.entries := by
    rw [hentries]
    exact List.mem_append_right _ (List.mem_cons_self ..)
  have hr : Pending macros site.host.locals site.host.reference := by
    refine h.pending _ _ _ hhost hkind _ ?_
    rw [hsteps, references_append, references_reference_cons]
    exact List.mem_append_right _ (List.mem_cons_self ..)
  unfold Site.expand at herror
  split at herror
  · next error' hinst =>
    cases herror
    unfold Site.instantiate at hinst
    rcases bind_eq_error_iff.1 hinst with hof | ⟨⟨code, scope⟩, hof, hcopies⟩
    · -- either the macro is not found, or one of its references cannot be copied
      exact h.justified_of_macroOf hmacros hr hof
    · obtain ⟨hdef, -⟩ := h.expanding.isMacro_of_macroOf hof
      rcases bind_eq_error_iff.1 hcopies with hfails | ⟨_, -, hpure⟩
      · obtain ⟨step, hstep, hfails⟩ := exists_of_mapM_eq_error hfails
        cases step with
        | assertion a => cases hfails
        | reference nested =>
          refine justified_of_copyReference hr ?_ (map_eq_error_iff.1 hfails)
          exact ⟨code, scope, h.expanding.isMacro _ _ _ hdef,
            List.mem_filterMap.2 ⟨_, hstep, rfl⟩⟩
      · cases hpure
  · next inst steps hinst =>
    unfold Site.instantiate at hinst
    obtain ⟨⟨code, scope⟩, hof, hrest⟩ := bind_eq_ok_iff.1 hinst
    obtain ⟨copies, hcopies, heq⟩ := bind_eq_ok_iff.1 hrest
    obtain ⟨rfl, rfl⟩ := Prod.mk.inj (pure_eq_ok_iff.1 heq)
    obtain ⟨hdef, -⟩ := h.expanding.isMacro_of_macroOf hof
    have hlength : copies.length = code.steps.length :=
      (mapM_eq_ok_iff.1 hcopies).length_eq.symm
    -- there is a place for the scope
    obtain ⟨tree, -, -, hstored⟩ := hr.insert?_scope hmacros (h.expanding.isMacro _ _ _ hdef)
      site.host.before.length site.host.code.steps.length
    dsimp only at herror
    rw [hlength, hstored] at herror
    cases herror

end Tracks

/-- Whenever the expansion of a program fails, there is a reason for its error in the text. -/
theorem Program.justified_of_fails {program : Program} {error : ExpansionError}
    (hsymbols : program.symbols.WellFormed) (h : Program.expand.Fails program error) :
    error.Justified program.symbols := by
  rw [Program.fails_expand] at h
  rcases expandAll_run _ _ (Vocabulary.covers_ofSymbols program.symbols) with
    ⟨n, hok, -, -⟩ | ⟨n, middle, site, error', hrun, hsite, herror, hfails, -⟩
  · have hresult := h.symm.trans hok
    cases hresult
  · have hresult := h.symm.trans hfails
    cases hresult
    have htracks := (Tracks.start hsymbols).expandsIn hsymbols hrun
    exact htracks.justified_of_expand hsymbols hsite herror

/-- Expansion fails exactly when it should: it succeeds if and only if every reference that can be
reached names a macro and has enough arguments, and no macro that can be reached leads back to
itself. A self-reference that is reported stands in the body of the macro, and a cycle that is
reported starts and ends with the same macro and follows references in the bodies of macros. -/
theorem Program.expand_iff_expandable {text : String} {program : Program}
    (hread : program.ReadFrom text) :
    ((∃ n expanded, Program.expand.Yields program n expanded) ↔ program.symbols.Expandable) ∧
    (∀ name line, Program.expand.Fails program (.selfReference name line) →
      ∃ r, program.symbols.Refers name r ∧ r.symbol = name ∧ r.line = line) ∧
    ∀ cycle line, Program.expand.Fails program (.recursiveExpansion cycle line) →
      (∃ name inner, cycle = name :: inner ++ [name]) ∧ cycle.IsChain program.symbols.Calls := by
  have hsymbols := hread.wellFormed.symbols
  refine ⟨⟨?_, fun hexpandable => ?_⟩, ?_, ?_⟩
  · rintro ⟨n, expanded, hexpand⟩
    exact Program.expandable_of_expand hsymbols hexpand
  · rcases Stage.yields_or_fails Program.expand program with hyields | ⟨error, hfails⟩
    · exact hyields
    · -- a run that fails has its reason in the call graph, which an expandable program excludes
      have hreason := Program.justified_of_fails hsymbols hfails
      exact absurd hexpandable (hreason.not_expandable hsymbols.nodup)
  · intro name line hfails
    obtain ⟨r, -, hname, hline, hrefers⟩ := Program.justified_of_fails hsymbols hfails
    exact ⟨r, hrefers, hname, hline⟩
  · intro cycle line hfails
    obtain ⟨r, inner, -, -, hcycle, hchain⟩ := Program.justified_of_fails hsymbols hfails
    exact ⟨⟨r.symbol, inner, hcycle⟩, hchain⟩

/-- A text with two macros that call each other. -/
def cyclicText : String :=
  "config { controlwordwidth 3 microprogramlength 1 opwidth 1 bankmask 0 } " ++
  "macro ping() { pong() } macro pong() { ping() } sequence s { ping() }"

/-- Two macros that call each other are reported with the whole cycle. -/
theorem compile_cyclicText : (compile (.ok cyclicText) false).result =
    .error (.expansion (.recursiveExpansion ["ping", "pong", "ping"] 1)) := by
  decide +kernel

/-- The sample text is expandable. The text with a cycle is not, and the cycle is reported. -/
theorem Program.expand_iff_expandable_cyclicText :
    (∃ program : Program, program.ReadFrom sampleText ∧ program.symbols.Expandable) ∧
    ∃ program : Program, program.ReadFrom cyclicText ∧ ¬program.symbols.Expandable ∧
      ["ping", "pong", "ping"].IsChain program.symbols.Calls := by
  refine ⟨?_, ?_⟩
  · obtain ⟨image, hcompile, -⟩ := exists_image_sampleText
    obtain ⟨c, -⟩ := compile_eq_ok_iff.1 hcompile
    exact ⟨c.program, c.readFrom,
      (Program.expand_iff_expandable c.readFrom).1.1 ⟨c.count, c.expanded, c.expands⟩⟩
  · cases failsWith_of_compile compile_cyclicText with
    | @expansion program _ hread hfails =>
      obtain ⟨hiff, -, hcycle⟩ := Program.expand_iff_expandable hread
      refine ⟨program, hread, fun hexpandable => ?_, (hcycle _ _ hfails).2⟩
      obtain ⟨n, expanded, hyields⟩ := hiff.2 hexpandable
      exact hyields.not_fails _ hfails

end ControlStore
