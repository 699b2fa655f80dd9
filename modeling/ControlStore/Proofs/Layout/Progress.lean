import ControlStore.Proofs.Expansion.Termination
import ControlStore.Proofs.Layout.Link

/-!
# Linking of expanded programs

Placement and resolution both refuse macro references. In a program that has been expanded they meet
none: placing sequences cannot fail (`not_fails_placeFrom`), and resolving them fails only because
of a name in an assertion (`concern_of_resolveSequences`). So linking may fail for many reasons, but
never because of a macro that was not expanded (`Program.ne_unexpandedMacro_of_link`).

A program is placed exactly if its entrypoints are sequences and its words fit
(`Program.yields_place_iff`). What an error of linking is about tells the part that it comes from
(`LinkError.concern`), so a program whose words do not fit is refused for that before any name is
looked up (`Program.fails_link_overflow_iff`).
-/

namespace ControlStore

/-! ## Expanded symbols -/

/-- A code without a first reference has none. -/
theorem Code.firstReference?_eq_none_iff {code : Code} :
    code.firstReference? = none ↔ references code.steps = [] := by
  rw [firstReference?, List.findSome?_eq_none_iff, references, List.filterMap_eq_nil_iff]

namespace SymbolTree

variable {symbols : SymbolTree}

/-- Changes that bring no references into sequences keep symbols expanded. -/
theorem IsExpanded.mapEntries (h : symbols.IsExpanded) {f : String → Symbol → Symbol}
    (hf : ∀ name s code locals, f name s = .sequence code locals → ∃ old names,
      s = .sequence old names ∧ old.isMacro = code.isMacro ∧
        (references old.steps = [] → references code.steps = [])) :
    (symbols.mapEntries f).IsExpanded := by
  intro name code locals hmem hkind
  obtain ⟨s, hs, heq⟩ := mem_mapEntries_iff.1 hmem
  obtain ⟨old, names, rfl, hold, hsteps⟩ := hf name s code locals heq
  exact hsteps (h name old names hs (hold.trans hkind))

/-- Addresses leave symbols expanded. -/
theorem IsExpanded.placeAt (h : symbols.IsExpanded) (p : String → Symbol → Bool)
    (address : String → Nat) :
    (symbols.mapEntries fun name s =>
      if p name s then s.placeAt (address name) else s).IsExpanded := by
  refine h.mapEntries fun name s code locals heq => ?_
  split at heq
  · cases s with
    | sequence old names =>
      cases heq
      exact ⟨old, names, rfl, rfl, fun hsteps => hsteps⟩
    | constant value => cases heq
    | label l => cases heq
    | scope names => cases heq
  · exact ⟨code, locals, heq, rfl, fun hsteps => hsteps⟩

/-- Resolved steps leave symbols expanded. -/
theorem IsExpanded.withSteps (h : symbols.IsExpanded) (names : List String)
    {steps : String → List Step} (hsteps : ∀ name, references (steps name) = []) :
    (symbols.withSteps names steps).IsExpanded := by
  refine h.mapEntries fun name s code locals heq => ?_
  split at heq
  · cases s with
    | sequence old inner =>
      cases heq
      exact ⟨old, _, rfl, rfl, fun _ => hsteps name⟩
    | constant value => cases heq
    | label l => cases heq
    | scope inner => cases heq
  · exact ⟨code, locals, heq, rfl, fun hold => hold⟩

/-- Every name of the list is that of a sequence. -/
def Lists (symbols : SymbolTree) (names : List String) : Prop :=
  ∀ name ∈ names, ∃ code locals, (name, .sequence code locals) ∈ symbols.entries ∧
    code.isMacro = false

/-- The layout lists sequences. -/
theorem lists_layout {fetch : String} {s : Symbol} (hfetch : (fetch, s) ∈ symbols.entries)
    (hkind : s.isPlaced = true) : symbols.Lists (symbols.layout fetch) := by
  intro name hlisted
  obtain ⟨symbol, hmem, hplaced⟩ := (mem_layout_iff hfetch hkind).1 hlisted
  obtain ⟨code, locals, rfl, hcode⟩ := isPlaced_eq_true_iff.1 hplaced
  exact ⟨code, locals, hmem, hcode⟩

/-- Changes that keep which symbols are sequences keep the list. -/
theorem Lists.mapEntries {names : List String} (h : symbols.Lists names)
    {f : String → Symbol → Symbol} (hf : ∀ name s, (f name s).isPlaced = s.isPlaced) :
    (symbols.mapEntries f).Lists names := by
  intro name hname
  obtain ⟨code, locals, hmem, hkind⟩ := h name hname
  have hplaced : (f name (.sequence code locals)).isPlaced = true := by
    rw [hf, isPlaced_eq_true_iff]
    exact ⟨code, locals, rfl, hkind⟩
  obtain ⟨code', locals', heq, hcode'⟩ := isPlaced_eq_true_iff.1 hplaced
  exact ⟨code', locals', mem_mapEntries_iff.2 ⟨_, hmem, heq⟩, hcode'⟩

/-- Placing sequences keeps them sequences. -/
theorem Lists.placeAt {names : List String} (h : symbols.Lists names)
    (p : String → Symbol → Bool) (address : String → Nat) :
    (symbols.mapEntries fun name s =>
      if p name s then s.placeAt (address name) else s).Lists names := by
  refine h.mapEntries fun name s => ?_
  split
  · exact s.isPlaced_placeAt _
  · rfl

/-- Giving sequences other steps keeps them sequences. -/
theorem Lists.withSteps {names : List String} (h : symbols.Lists names) (listed : List String)
    (steps : String → List Step) : (symbols.withSteps listed steps).Lists names := by
  refine h.mapEntries fun name s => ?_
  split
  · cases s <;> rfl
  · rfl

end SymbolTree

/-! ## Placement -/

/-- Where nothing is left to expand, all sequences are placed. -/
theorem not_fails_placeFrom {names : List String} {symbols : SymbolTree} {address : Nat}
    {error : LinkError} (hlink : symbols.Linkable) (hdone : symbols.IsExpanded)
    (hnames : symbols.Lists names) : ¬(placeFrom address names).Fails symbols error := by
  induction names generalizing symbols address with
  | nil => exact Stage.fails_pure
  | cons name names ih =>
    obtain ⟨code, locals, hmem, hkind⟩ := hnames name (List.mem_cons_self ..)
    have hfirst : code.firstReference? = none :=
      Code.firstReference?_eq_none_iff.2 (hdone name code locals hmem hkind)
    intro h
    rcases Stage.fails_bind.1 h with hget | ⟨_, _, hget, h⟩
    · exact Stage.fails_get hget
    obtain ⟨rfl, rfl⟩ := Stage.yields_get.1 hget
    -- there is nothing to refuse, so the failure is that of the names behind this one
    simp only [hlink.find?_eq_sequence_iff.2 hmem, hfirst] at h
    rcases Stage.fails_bind.1 h with hmodify | ⟨_, _, hmodify, h⟩
    · exact Stage.fails_modify hmodify
    rcases Stage.fails_bind.1 h with hnote | ⟨_, _, hnote, h⟩
    · exact Stage.fails_note hnote
    rw [← Stage.yields_note.1 hnote, ← Stage.yields_modify.1 hmodify,
      SymbolTree.adjust_eq_mapEntries hlink.nodup
        (hlink.dotless name (List.mem_map_of_mem hmem))] at h
    refine ih (hlink.placeAt name address) ?_ ?_ h
    · simpa using hdone.placeAt (fun other _ => other = name) fun _ => address
    · have hrest : symbols.Lists names := fun other hother =>
        hnames other (List.mem_cons_of_mem _ hother)
      simpa using hrest.placeAt (fun other _ => other = name) fun _ => address

/-! ## Resolution -/

/-- What an error of linking is about. -/
inductive LinkConcern where
  | entrypoint
  | room
  | reference
  | name
  | filling
  deriving DecidableEq

def LinkError.concern : LinkError → LinkConcern
  | .missingFetch | .notASequence _ | .macroEntrypoint _ => .entrypoint
  | .overflow .. => .room
  | .unexpandedMacro _ => .reference
  | .undefinedSymbol _ _ | .notAValue _ _ => .name
  | .missingEmptyAssertion => .filling

/-- An assertion is refused because of a name in it, and for no other reason. -/
theorem Assertion.concern_of_resolve {scopes : List SymbolTree} {a : Assertion}
    {error : LinkError} (h : a.resolve scopes = .error error) : error.concern = .name := by
  obtain ⟨signal, -, hsignal⟩ := exists_of_mapM_eq_error (map_eq_error_iff.1 h)
  -- a number resolves to itself, so it is a name that fails
  have hvalue := map_eq_error_iff.1 hsignal
  cases hv : signal.value with
  | integer value => rw [hv] at hvalue; cases hvalue
  | symbol name =>
    rw [hv] at hvalue
    have hname := map_eq_error_iff.1 hvalue
    unfold resolveName at hname
    split at hname
    · cases hname
      rfl
    · split at hname
      · cases hname
      · cases hname
        rfl

/-- Among steps without references only a name can fail to resolve. -/
theorem Step.concern_of_resolve {scopes : List SymbolTree} {steps : List Step}
    (hsteps : references steps = []) {step : Step} (hstep : step ∈ steps) {error : LinkError}
    (h : step.resolve scopes = .error error) : error.concern = .name := by
  cases step with
  | assertion a => exact Assertion.concern_of_resolve (map_eq_error_iff.1 h)
  | reference r =>
    have hr : r ∈ references steps := List.mem_filterMap.2 ⟨_, hstep, rfl⟩
    rw [hsteps] at hr
    cases hr

/-- Resolved steps are assertions. -/
theorem references_of_resolvesTo {lookup : Lookup} {steps resolved : List Step}
    (h : List.Forall₂ (Step.ResolvesTo lookup) steps resolved) : references resolved = [] := by
  induction h with
  | nil => rfl
  | cons hstep _ ih =>
    cases hstep with
    | assertion _ => exact ih

/-- Where nothing is left to expand, sequences fail to be resolved only because of names. -/
theorem concern_of_resolveSequences {names : List String} {symbols : SymbolTree}
    {error : LinkError} (hlink : symbols.Linkable) (hdone : symbols.IsExpanded)
    (hnames : symbols.Lists names) (h : (resolveSequences names).Fails symbols error) :
    error.concern = .name := by
  induction names generalizing symbols with
  | nil => exact absurd h Stage.fails_pure
  | cons name names ih =>
    obtain ⟨code, locals, hmem, hkind⟩ := hnames name (List.mem_cons_self ..)
    rcases Stage.fails_bind.1 h with hget | ⟨_, _, hget, h⟩
    · exact absurd hget Stage.fails_get
    obtain ⟨rfl, rfl⟩ := Stage.yields_get.1 hget
    rcases Stage.fails_bind.1 h with hlift | ⟨resolved, _, hlift, h⟩
    · -- a step of this sequence cannot be resolved
      have hresolve := Stage.fails_liftM.1 hlift
      rw [SymbolTree.resolveSequence, hlink.find?_eq_sequence_iff.2 hmem] at hresolve
      obtain ⟨step, hstep, hfails⟩ := exists_of_mapM_eq_error (map_eq_error_iff.1 hresolve)
      exact Step.concern_of_resolve (hdone name code locals hmem hkind) hstep hfails
    · obtain ⟨hresolve, rfl⟩ := Stage.yields_liftM.1 hlift
      obtain ⟨steps, hsteps, rfl⟩ := (SymbolTree.resolveSequence_eq_ok_iff hlink hmem).1 hresolve
      rcases Stage.fails_bind.1 h with hset | ⟨_, _, hset, h⟩
      · exact absurd hset Stage.fails_set
      rw [← Stage.yields_set.1 hset] at h
      refine ih (hlink.mapSteps (exists_mapSteps_of_withSteps _ _)) ?_ ?_ h
      · exact hdone.withSteps [name] fun _ => references_of_resolvesTo hsteps
      · have hrest : symbols.Lists names := fun other hother =>
          hnames other (List.mem_cons_of_mem _ hother)
        exact hrest.withSteps [name] _

/-! ## Whole programs -/

namespace Program

variable {program : Program} {error : LinkError}

/-- The fetch sequence is refused for reasons of its own. -/
theorem concern_of_checkedFetch (h : program.checkedFetch = .error error) :
    error.concern = .entrypoint := by
  -- the fetch sequence and the interrupt sequence are checked alike
  have hcheck : ∀ name, program.symbols.checkEntrypoint name = .error error →
      error.concern = .entrypoint := by
    intro name hname
    unfold SymbolTree.checkEntrypoint at hname
    split at hname
    · split at hname
      · cases hname
        rfl
      · cases hname
    · cases hname
      rfl
  unfold checkedFetch at h
  split at h
  · cases h
    rfl
  · next fetch _ =>
    rcases bind_eq_error_iff.1 h with hfetch | ⟨_, -, h⟩
    · exact hcheck fetch hfetch
    rcases bind_eq_error_iff.1 h with hinterrupt | ⟨_, -, h⟩
    · cases hname : program.interrupt with
      | none => rw [hname] at hinterrupt; cases hinterrupt
      | some name => rw [hname] at hinterrupt; exact hcheck name hinterrupt
    · cases h

/-- Once the entrypoints are checked, all sequences of an expanded program get their addresses. -/
theorem exists_yields_placeFrom (hlink : program.symbols.Linkable)
    (hdone : program.symbols.IsExpanded) {fetch : String}
    (hchecked : program.checkedFetch = .ok fetch) :
    ∃ symbols, (placeFrom 0 (program.symbols.layout fetch)).Yields program.symbols
      ((program.symbols.layout fetch).map program.symbols.wordCount).sum symbols := by
  obtain ⟨-, s, hmem, hkind⟩ := mem_of_checkedFetch hlink hchecked
  have hlists := SymbolTree.lists_layout hmem hkind
  rcases Stage.yields_or_fails (placeFrom 0 (program.symbols.layout fetch)) program.symbols with
    ⟨needed, symbols, hplace⟩ | ⟨error, hfails⟩
  · have hnames : ∀ name ∈ program.symbols.layout fetch, ∃ code locals,
        (name, Symbol.sequence code locals) ∈ program.symbols.entries := fun name hname =>
      (hlists name hname).imp fun _ => Exists.imp fun _ => And.left
    obtain ⟨hneeded, -⟩ := placeFrom_eq hlink (SymbolTree.nodup_layout hlink.nodup) hnames hplace
    rw [Nat.zero_add] at hneeded
    exact ⟨symbols, hneeded ▸ hplace⟩
  · exact absurd hfails (not_fails_placeFrom hlink hdone hlists)

/-- An expanded program is placed if its entrypoints are sequences and its words fit. -/
theorem yields_place_iff {placed : Program} {layout : List String}
    (hlink : program.symbols.Linkable) (hdone : program.symbols.IsExpanded) :
    place.Yields program layout placed ↔ ∃ fetch, program.checkedFetch = .ok fetch ∧
      layout = program.symbols.layout fetch ∧
      (layout.map program.symbols.wordCount).sum ≤ program.length ∧
      placed = { program with symbols := program.symbols.placeIn layout } := by
  constructor
  · intro h
    obtain ⟨fetch, s, hfetch, -, -, hlayout, hplaced, hfits⟩ := eq_of_place hlink h
    obtain ⟨checked, _, _, hchecked, -⟩ := yields_place_iff_placeFrom.1 h
    obtain ⟨hsame, -⟩ := mem_of_checkedFetch hlink hchecked
    cases hfetch.symm.trans hsame
    exact ⟨fetch, hchecked, hlayout, hfits, hplaced⟩
  · rintro ⟨fetch, hchecked, rfl, hfits, rfl⟩
    -- it is enough that placement succeeds, since it can only leave what is claimed
    suffices h : ∃ placed, place.Yields program (program.symbols.layout fetch) placed by
      obtain ⟨placed, h⟩ := h
      obtain ⟨_, _, -, -, -, -, rfl, -⟩ := eq_of_place hlink h
      exact h
    obtain ⟨symbols, hplace⟩ := exists_yields_placeFrom hlink hdone hchecked
    exact ⟨{ program with symbols }, yields_place_iff_placeFrom.2
      ⟨fetch, _, symbols, hchecked, rfl, hplace, hfits, rfl⟩⟩

/-- An expanded program is not placed if its entrypoints are refused or its words do not fit. -/
theorem fails_place_iff (hlink : program.symbols.Linkable) (hdone : program.symbols.IsExpanded) :
    place.Fails program error ↔ program.checkedFetch = .error error ∨
      ∃ fetch, program.checkedFetch = .ok fetch ∧
        let needed := ((program.symbols.layout fetch).map program.symbols.wordCount).sum
        program.length < needed ∧
          error = .overflow needed program.length (needed - program.length) := by
  constructor
  · intro h
    rcases Stage.fails_bind.1 h with hget | ⟨_, _, hget, h⟩
    · exact absurd hget Stage.fails_get
    obtain ⟨rfl, rfl⟩ := Stage.yields_get.1 hget
    rcases Stage.fails_bind.1 h with hchecked | ⟨fetch, _, hchecked, h⟩
    · exact .inl (Stage.fails_liftM.1 hchecked)
    obtain ⟨hfetch, rfl⟩ := Stage.yields_liftM.1 hchecked
    obtain ⟨symbols, hplace⟩ := exists_yields_placeFrom hlink hdone hfetch
    rcases Stage.fails_bind.1 h with hfails | ⟨needed, _, hyields, h⟩
    · exact absurd (fails_onSymbols.1 hfails) (hplace.not_fails _)
    obtain ⟨_, hsymbols, rfl⟩ := yields_onSymbols.1 hyields
    obtain ⟨rfl, rfl⟩ := hplace.unique hsymbols
    dsimp only at h
    split at h
    · next hfull =>
      rcases Stage.fails_bind.1 h with hfails | ⟨_, _, hnever, -⟩
      · exact .inr ⟨fetch, hfetch, hfull, (Stage.fails_fail.1 hfails).symm⟩
      · exact absurd hnever Stage.yields_fail
    · exact absurd h Stage.fails_pure
  · rintro (hfails | ⟨fetch, hfetch, hfull, rfl⟩)
    · refine Stage.fails_bind.2 (.inr ⟨_, _, Stage.yields_get.2 ⟨rfl, rfl⟩, ?_⟩)
      exact Stage.fails_bind.2 (.inl (Stage.fails_liftM.2 hfails))
    · obtain ⟨symbols, hplace⟩ := exists_yields_placeFrom hlink hdone hfetch
      refine Stage.fails_bind.2 (.inr ⟨_, _, Stage.yields_get.2 ⟨rfl, rfl⟩, ?_⟩)
      refine Stage.fails_bind.2 (.inr ⟨_, _, Stage.yields_liftM.2 ⟨hfetch, rfl⟩, ?_⟩)
      refine Stage.fails_bind.2 (.inr ⟨_, _, yields_onSymbols.2 ⟨_, hplace, rfl⟩, ?_⟩)
      rw [if_pos hfull]
      exact Stage.fails_bind.2 (.inl (Stage.fails_fail.2 rfl))

/-- Resolution fails because of a name, or because there is nothing to fill the store with. -/
theorem concern_of_resolve {layout : List String} (hlink : program.symbols.Linkable)
    (hdone : program.symbols.IsExpanded) (hlayout : program.symbols.Lists layout)
    (h : (resolve layout).Fails program error) :
    error.concern = .name ∨ error.concern = .filling := by
  rcases Stage.fails_bind.1 h with hsequences | ⟨_, _, -, h⟩
  · rw [fails_onSymbols] at hsequences
    exact .inl (concern_of_resolveSequences hlink hdone hlayout hsequences)
  rcases Stage.fails_bind.1 h with hget | ⟨_, _, -, h⟩
  · exact absurd hget Stage.fails_get
  rcases Stage.fails_bind.1 h with hlift | ⟨_, _, -, h⟩
  · -- the sequences are resolved, so it is the empty assertion: missing, or with a name that fails
    have hempty := Stage.fails_liftM.1 hlift
    unfold resolveEmpty at hempty
    split at hempty
    · cases hempty
      exact .inr rfl
    · exact .inl (Assertion.concern_of_resolve (map_eq_error_iff.1 hempty))
  · exact absurd h Stage.fails_set

/-- Linking an expanded program fails where it is placed, or else because of a name or because there
is nothing to fill the store with. -/
theorem fails_place_of_link (hlink : program.symbols.Linkable)
    (hdone : program.symbols.IsExpanded) (h : link.Fails program error) :
    place.Fails program error ∨ error.concern = .name ∨ error.concern = .filling := by
  rcases Stage.fails_bind.1 h with hplace | ⟨layout, placed, hplace, h⟩
  · exact .inl hplace
  obtain ⟨fetch, s, -, hmem, hkind, rfl, rfl, -⟩ := eq_of_place hlink hplace
  rcases Stage.fails_bind.1 h with hresolve | ⟨_, _, -, h⟩
  · refine .inr (concern_of_resolve (hlink.placeIn _) ?_ ?_ hresolve)
    · exact hdone.placeAt (fun _ s => s.isPlaced) _
    · exact (SymbolTree.lists_layout hmem hkind).placeAt (fun _ s => s.isPlaced) _
  · exact absurd h Stage.fails_pure

/-- Linking an expanded program never meets a macro that was not expanded. -/
theorem ne_unexpandedMacro_of_link (hlink : program.symbols.Linkable)
    (hdone : program.symbols.IsExpanded) (h : link.Fails program error) (line : Nat) :
    error ≠ .unexpandedMacro line := by
  rintro rfl
  rcases fails_place_of_link hlink hdone h with hplace | hname | hfilling
  · rcases (fails_place_iff hlink hdone).1 hplace with hchecked | ⟨_, -, -, hoverflow⟩
    · cases concern_of_checkedFetch hchecked
    · cases hoverflow
  · cases hname
  · cases hfilling

/-- A program is refused for want of room exactly if its entrypoints are sequences and its words do
not fit, whatever else is wrong with it. -/
theorem fails_link_overflow_iff (hlink : program.symbols.Linkable)
    (hdone : program.symbols.IsExpanded) {needed available excess : Nat} :
    link.Fails program (.overflow needed available excess) ↔ ∃ fetch,
      program.checkedFetch = .ok fetch ∧
        needed = ((program.symbols.layout fetch).map program.symbols.wordCount).sum ∧
        available = program.length ∧ excess = needed - available ∧ 0 < excess := by
  constructor
  · intro h
    rcases fails_place_of_link hlink hdone h with hplace | hname | hfilling
    · rcases (fails_place_iff hlink hdone).1 hplace with hchecked | ⟨fetch, hfetch, hfull, heq⟩
      · cases concern_of_checkedFetch hchecked
      · cases heq
        exact ⟨fetch, hfetch, rfl, rfl, rfl, Nat.sub_pos_of_lt hfull⟩
    · cases hname
    · cases hfilling
  · rintro ⟨fetch, hfetch, rfl, rfl, rfl, hexcess⟩
    have hfull := Nat.lt_of_sub_pos hexcess
    exact Stage.fails_bind.2 (.inl ((fails_place_iff hlink hdone).2
      (.inr ⟨fetch, hfetch, hfull, rfl⟩)))

end Program

end ControlStore
