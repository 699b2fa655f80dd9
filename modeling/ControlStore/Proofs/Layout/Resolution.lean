import ControlStore.Layout.Resolution
import ControlStore.Proofs.Layout.Placement

/-!
# Resolved symbols

What resolution makes of the assertions of a placed program. `Value.ResolvesTo` says what a value
becomes when names are looked up in a given way, and signals, assertions and steps follow.

Sequences are resolved one after the other in the symbols that the earlier ones left. Resolving
changes only steps, and what a name stands for does not depend on steps
(`SymbolTree.resolve_find?_mapSteps`). So every sequence is resolved as if it were the only one
(`yields_resolveSequences_iff`).
-/

namespace ControlStore

/-- How names are looked up: each is bound to a symbol, or to none. -/
abbrev Lookup := String → Option Symbol

/-- A value becomes a number: it is one, or its name is bound to a symbol that stands for one. -/
inductive Value.ResolvesTo (lookup : Lookup) : Value → Value → Prop
  | integer (value : Int) : ResolvesTo lookup (.integer value) (.integer value)
  | symbol {name : String} {found : Symbol} {value : Int} (hfound : lookup name = some found)
      (hvalue : found.resolve = some value) :
      ResolvesTo lookup (.symbol name) (.integer value)

/-- A signal keeps its control, and its value becomes a number. -/
structure Signal.ResolvesTo (lookup : Lookup) (signal resolved : Signal) : Prop where
  control : resolved.control = signal.control
  value : signal.value.ResolvesTo lookup resolved.value

/-- An assertion keeps its line, its bank and its signals, and their values become numbers. -/
structure Assertion.ResolvesTo (lookup : Lookup) (assertion resolved : Assertion) : Prop where
  line : resolved.line = assertion.line
  bank : resolved.bank = assertion.bank
  signals : List.Forall₂ (Signal.ResolvesTo lookup) assertion.signals resolved.signals

/-- A step is an assertion, and so it stays. -/
inductive Step.ResolvesTo (lookup : Lookup) : Step → Step → Prop
  | assertion {a b : Assertion} (h : a.ResolvesTo lookup b) :
      ResolvesTo lookup (.assertion a) (.assertion b)

/-- Names in a sequence are looked up among its own first, then among the global ones. -/
def lookupIn (locals symbols : SymbolTree) : Lookup := fun name =>
  (locals.find? name).or (symbols.find? name)

/-! ## What resolution computes -/

section Spec

variable {scopes : List SymbolTree} {lookup : Lookup}

/-- A value resolves through the scopes as it does through their lookup. -/
theorem Value.resolve_eq_ok_iff (hlookup : ∀ name, scopes.findSome? (·.find? name) = lookup name)
    {line : Nat} {v w : Value} : v.resolve scopes line = .ok w ↔ v.ResolvesTo lookup w := by
  cases v with
  | integer n =>
    constructor
    · intro h
      cases h
      exact .integer n
    · intro h
      cases h
      rfl
  | symbol name =>
    rw [resolve, map_eq_ok_iff]
    constructor
    · rintro ⟨value, h, rfl⟩
      -- the name is found and stands for a number, or there is an error
      unfold resolveName at h
      rw [hlookup] at h
      split at h
      · cases h
      · next found hfound =>
        split at h
        · next hvalue =>
          cases h
          exact .symbol hfound hvalue
        · cases h
    · intro h
      cases h with
      | symbol hfound hvalue =>
        refine ⟨_, ?_, rfl⟩
        simp [resolveName, hlookup, hfound, hvalue]

/-- A signal resolves as its value does. -/
theorem Signal.resolve_eq_ok_iff (hlookup : ∀ name, scopes.findSome? (·.find? name) = lookup name)
    {line : Nat} {s t : Signal} : s.resolve scopes line = .ok t ↔ s.ResolvesTo lookup t := by
  rw [resolve, map_eq_ok_iff]
  constructor
  · rintro ⟨value, h, rfl⟩
    exact ⟨rfl, (Value.resolve_eq_ok_iff hlookup).1 h⟩
  · rintro ⟨hcontrol, hvalue⟩
    refine ⟨t.value, (Value.resolve_eq_ok_iff hlookup).2 hvalue, ?_⟩
    rw [← hcontrol]

/-- An assertion resolves signal by signal. -/
theorem Assertion.resolve_eq_ok_iff
    (hlookup : ∀ name, scopes.findSome? (·.find? name) = lookup name) {a b : Assertion} :
    a.resolve scopes = .ok b ↔ a.ResolvesTo lookup b := by
  rw [resolve, map_eq_ok_iff]
  simp only [mapM_eq_ok_iff, Signal.resolve_eq_ok_iff hlookup]
  constructor
  · rintro ⟨signals, h, rfl⟩
    exact ⟨rfl, rfl, h⟩
  · rintro ⟨hline, hbank, hsignals⟩
    refine ⟨b.signals, hsignals, ?_⟩
    rw [← hline, ← hbank]

/-- A step resolves if it is an assertion that does. -/
theorem Step.resolve_eq_ok_iff (hlookup : ∀ name, scopes.findSome? (·.find? name) = lookup name)
    {s t : Step} : s.resolve scopes = .ok t ↔ s.ResolvesTo lookup t := by
  cases s with
  | reference r =>
    constructor
    · intro h
      cases h
    · intro h
      cases h
  | assertion a =>
    rw [resolve, map_eq_ok_iff]
    constructor
    · rintro ⟨b, h, rfl⟩
      exact .assertion ((Assertion.resolve_eq_ok_iff hlookup).1 h)
    · intro h
      cases h with
      | assertion h => exact ⟨_, (Assertion.resolve_eq_ok_iff hlookup).2 h, rfl⟩

/-- The steps of a sequence are resolved one by one. -/
theorem mapM_resolve_eq_ok_iff {locals symbols : SymbolTree} {steps resolved : List Step} :
    steps.mapM (Step.resolve [locals, symbols]) = .ok resolved ↔
      List.Forall₂ (Step.ResolvesTo (lookupIn locals symbols)) steps resolved := by
  have hlookup : ∀ name, [locals, symbols].findSome? (·.find? name) =
      lookupIn locals symbols name := by
    intro name
    simp only [lookupIn, List.findSome?_cons, List.findSome?_nil]
    cases locals.find? name <;> cases symbols.find? name <;> rfl
  rw [mapM_eq_ok_iff]
  simp only [Step.resolve_eq_ok_iff hlookup]

end Spec

/-! ## What resolution does not change -/

/-- All that is found in the first way of looking up is found in the second, and stands for the same
number. -/
def Lookup.Within (lookup lookup' : Lookup) : Prop :=
  ∀ name found, lookup name = some found →
    ∃ found', lookup' name = some found' ∧ found'.resolve = found.resolve

/-- Names that stand for the same numbers resolve alike. -/
theorem Lookup.Within.of_map_eq {lookup lookup' : Lookup}
    (h : ∀ name, (lookup name).map Symbol.resolve = (lookup' name).map Symbol.resolve) :
    lookup.Within lookup' := by
  intro name found hfound
  have hsame := h name
  rw [hfound, Option.map_some, eq_comm] at hsame
  exact Option.map_eq_some_iff.1 hsame

/-- Values resolve alike where all names in them are found alike. -/
theorem Value.ResolvesTo.mono {lookup lookup' : Lookup} (h : lookup.Within lookup') {v w : Value}
    (hv : v.ResolvesTo lookup w) : v.ResolvesTo lookup' w := by
  cases hv with
  | integer value => exact .integer value
  | symbol hfound hvalue =>
    obtain ⟨found', hfound', hsame⟩ := h _ _ hfound
    exact .symbol hfound' (hsame.trans hvalue)

/-- An assertion resolves in the same way where names stand for the same and for more. -/
theorem Assertion.ResolvesTo.mono {lookup lookup' : Lookup} (h : lookup.Within lookup')
    {a b : Assertion} (ha : a.ResolvesTo lookup b) : a.ResolvesTo lookup' b := by
  refine ⟨ha.line, ha.bank, ha.signals.imp fun signal resolved hsignal => ?_⟩
  exact ⟨hsignal.control, hsignal.value.mono h⟩

/-- A step resolves in the same way where names stand for the same and for more. -/
theorem Step.ResolvesTo.mono {lookup lookup' : Lookup} (h : lookup.Within lookup') {s t : Step}
    (hs : s.ResolvesTo lookup t) : s.ResolvesTo lookup' t := by
  cases hs with
  | assertion ha => exact .assertion (ha.mono h)

namespace Symbol

theorem resolve_mapSteps (f : List Step → List Step) (s : Symbol) :
    (s.mapSteps f).resolve = s.resolve := by
  cases s <;> rfl

theorem tree?_mapSteps (f : List Step → List Step) (s : Symbol) :
    (s.mapSteps f).tree? = s.tree? := by
  cases s <;> rfl

end Symbol

/-- What a name stands for does not depend on the steps of sequences. -/
theorem SymbolTree.resolve_find?_mapSteps {symbols : SymbolTree} {f : String → Symbol → Symbol}
    (h : ∀ name s, ∃ g, f name s = s.mapSteps g) (name : String) :
    ((symbols.mapEntries f).find? name).map Symbol.resolve =
      (symbols.find? name).map Symbol.resolve := by
  rw [find?, find?]
  cases hpath : Path.ofName name with
  | nil => exact absurd hpath (Path.ofName_ne_nil _)
  | cons first path =>
    by_cases hrest : path = []
    · subst hrest
      rw [get?, get?, local?_mapEntries, Option.map_map]
      refine Option.map_congr fun s _ => ?_
      obtain ⟨g, hg⟩ := h first s
      rw [Function.comp, hg, Symbol.resolve_mapSteps]
    · rw [get?_cons hrest, get?_cons hrest, local?_mapEntries]
      cases symbols.local? first with
      | none => rfl
      | some s =>
        obtain ⟨g, hg⟩ := h first s
        rw [Option.map_some, Option.bind_some, Option.bind_some, hg, Symbol.tree?_mapSteps]

/-- Names stand for the same numbers, whatever the steps of the sequences. -/
theorem lookupIn_mapSteps {symbols : SymbolTree} {f : String → Symbol → Symbol}
    (h : ∀ name s, ∃ g, f name s = s.mapSteps g) (locals : SymbolTree) (name : String) :
    (lookupIn locals (symbols.mapEntries f) name).map Symbol.resolve =
      (lookupIn locals symbols name).map Symbol.resolve := by
  rw [lookupIn, lookupIn]
  cases locals.find? name with
  | none => simpa using SymbolTree.resolve_find?_mapSteps h name
  | some s => rfl

/-- Changing steps leaves the symbols fit for linking. -/
theorem SymbolTree.Linkable.mapSteps {symbols : SymbolTree} (hlink : symbols.Linkable)
    {f : String → Symbol → Symbol} (h : ∀ name s, ∃ g, f name s = s.mapSteps g) :
    (symbols.mapEntries f).Linkable := by
  refine hlink.mapEntries fun entry hentry tree htree => ?_
  obtain ⟨g, hg⟩ := h entry.1 entry.2
  rw [hg, Symbol.tree?_mapSteps] at htree
  exact hlink.inner entry hentry tree htree

/-! ## Sequences one after the other -/

/-- The symbols with the steps of the listed sequences replaced. -/
def SymbolTree.withSteps (names : List String) (steps : String → List Step)
    (symbols : SymbolTree) : SymbolTree :=
  symbols.mapEntries fun name s => if name ∈ names then s.mapSteps fun _ => steps name else s

/-- Giving steps to the listed sequences changes steps only. -/
theorem exists_mapSteps_of_withSteps (names : List String) (steps : String → List Step)
    (name : String) (s : Symbol) :
    ∃ g, (if name ∈ names then s.mapSteps fun _ => steps name else s) = s.mapSteps g := by
  by_cases h : name ∈ names
  · exact ⟨fun _ => steps name, if_pos h⟩
  · refine ⟨fun old => old, (if_neg h).trans ?_⟩
    cases s <;> rfl

/-- Resolving a sequence replaces its steps. -/
theorem SymbolTree.resolveSequence_eq_ok_iff {symbols resolved : SymbolTree}
    (hlink : symbols.Linkable) {name : String} {code : Code} {locals : SymbolTree}
    (hmem : (name, .sequence code locals) ∈ symbols.entries) :
    symbols.resolveSequence name = .ok resolved ↔
      ∃ steps, List.Forall₂ (Step.ResolvesTo (lookupIn locals symbols)) code.steps steps ∧
        resolved = symbols.withSteps [name] fun _ => steps := by
  have hname := hlink.dotless name (List.mem_map_of_mem hmem)
  rw [resolveSequence, hlink.find?_eq_sequence_iff.2 hmem]
  simp only [map_eq_ok_iff, mapM_resolve_eq_ok_iff, adjust_eq_mapEntries hlink.nodup hname,
    withSteps, List.mem_singleton, @eq_comm _ resolved]

/-- A name is resolved and the others follow, in the symbols that it leaves. -/
theorem yields_resolveSequences_cons_iff {symbols final : SymbolTree} {name : String}
    {names : List String} : (resolveSequences (name :: names)).Yields symbols () final ↔
      ∃ middle, symbols.resolveSequence name = .ok middle ∧
        (resolveSequences names).Yields middle () final := by
  constructor
  · intro h
    obtain ⟨_, _, hget, h⟩ := Stage.yields_bind.1 h
    obtain ⟨rfl, rfl⟩ := Stage.yields_get.1 hget
    obtain ⟨middle, _, hlift, h⟩ := Stage.yields_bind.1 h
    obtain ⟨hresolve, rfl⟩ := Stage.yields_liftM.1 hlift
    obtain ⟨_, _, hset, h⟩ := Stage.yields_bind.1 h
    rw [← Stage.yields_set.1 hset] at h
    exact ⟨middle, hresolve, h⟩
  · rintro ⟨middle, hresolve, h⟩
    refine Stage.yields_bind.2 ⟨_, _, Stage.yields_get.2 ⟨rfl, rfl⟩, ?_⟩
    refine Stage.yields_bind.2 ⟨_, _, Stage.yields_liftM.2 ⟨hresolve, rfl⟩, ?_⟩
    exact Stage.yields_bind.2 ⟨⟨⟩, _, Stage.yields_set.2 rfl, h⟩

/-- A sequence is resolved and the others follow, in the symbols that it leaves. -/
theorem yields_resolveSequences_cons {symbols final : SymbolTree} (hlink : symbols.Linkable)
    {name : String} {names : List String} {code : Code} {locals : SymbolTree}
    (hmem : (name, .sequence code locals) ∈ symbols.entries) :
    (resolveSequences (name :: names)).Yields symbols () final ↔
      ∃ steps, List.Forall₂ (Step.ResolvesTo (lookupIn locals symbols)) code.steps steps ∧
        (resolveSequences names).Yields (symbols.withSteps [name] fun _ => steps) () final := by
  rw [yields_resolveSequences_cons_iff]
  constructor
  · rintro ⟨middle, hresolve, h⟩
    obtain ⟨steps, hsteps, rfl⟩ := (SymbolTree.resolveSequence_eq_ok_iff hlink hmem).1 hresolve
    exact ⟨steps, hsteps, h⟩
  · rintro ⟨steps, hsteps, h⟩
    exact ⟨_, (SymbolTree.resolveSequence_eq_ok_iff hlink hmem).2 ⟨steps, hsteps, rfl⟩, h⟩

/-- Steps of some sequences are replaced all at once, or first those of one and then those of the
others. -/
theorem SymbolTree.withSteps_withSteps {symbols : SymbolTree} {name : String} {names : List String}
    (hname : name ∉ names) (own : List Step) (steps : String → List Step) :
    (symbols.withSteps [name] fun _ => own).withSteps names steps =
      symbols.withSteps (name :: names) fun other => if other = name then own else steps other := by
  rw [withSteps, withSteps, withSteps, mapEntries_mapEntries]
  refine mapEntries_congr fun entry _ => ?_
  by_cases heq : entry.1 = name
  · simp [heq, hname]
  · simp [heq]

/-- Each sequence is resolved in the symbols as they were before the first one. -/
theorem yields_resolveSequences_iff {names : List String} {symbols final : SymbolTree}
    (hlink : symbols.Linkable) (hnodup : names.Nodup)
    (hnames : ∀ name ∈ names, ∃ code locals, (name, .sequence code locals) ∈ symbols.entries) :
    (resolveSequences names).Yields symbols () final ↔
      ∃ steps, final = symbols.withSteps names steps ∧
        ∀ name ∈ names, ∀ code locals, (name, .sequence code locals) ∈ symbols.entries →
          List.Forall₂ (Step.ResolvesTo (lookupIn locals symbols)) code.steps (steps name) := by
  induction names generalizing symbols with
  | nil =>
    have hsame : ∀ steps, symbols.withSteps [] steps = symbols := fun steps =>
      SymbolTree.ext' rfl (by simp [SymbolTree.withSteps, SymbolTree.mapEntries])
    simp [resolveSequences, hsame, eq_comm]
  | cons name names ih =>
    rw [List.nodup_cons] at hnodup
    obtain ⟨code, locals, hmem⟩ := hnames name (List.mem_cons_self ..)
    rw [yields_resolveSequences_cons hlink hmem]
    -- later sequences are still as they were, and names stand for the same numbers
    have hne : ∀ later ∈ names, later ≠ name := fun later hlater heq => hnodup.1 (heq ▸ hlater)
    have hlater : ∀ own, ∀ later ∈ names, ∀ s,
        (later, s) ∈ (symbols.withSteps [name] fun _ => own).entries ↔
          (later, s) ∈ symbols.entries := by
      intro own later hmem' s
      rw [SymbolTree.withSteps, SymbolTree.mem_mapEntries_iff]
      simp [hne later hmem']
    have hkept := fun own : List Step => exists_mapSteps_of_withSteps [name] fun _ => own
    have hnames' : ∀ own, ∀ later ∈ names, ∃ code locals, (later, Symbol.sequence code locals) ∈
        (symbols.withSteps [name] fun _ => own).entries := by
      intro own later hmem'
      obtain ⟨code', locals', hlisted⟩ := hnames later (List.mem_cons_of_mem _ hmem')
      exact ⟨code', locals', (hlater own later hmem' _).2 hlisted⟩
    constructor
    · rintro ⟨own, hown, h⟩
      obtain ⟨steps, rfl, hsteps⟩ :=
        (ih (hlink.mapSteps (hkept own)) hnodup.2 (hnames' own)).1 h
      refine ⟨_, SymbolTree.withSteps_withSteps hnodup.1 own steps, ?_⟩
      intro other hother code' locals' hmem'
      rcases List.mem_cons.1 hother with rfl | hother
      · cases entry_unique hlink.nodup hmem hmem'
        simpa using hown
      · simp only [if_neg (hne other hother)]
        apply (hsteps other hother code' locals' ((hlater own other hother _).2 hmem')).imp
        exact fun s t hst => hst.mono (.of_map_eq (lookupIn_mapSteps (hkept own) locals'))
    · rintro ⟨steps, rfl, hsteps⟩
      refine ⟨steps name, hsteps name (List.mem_cons_self ..) code locals hmem, ?_⟩
      refine (ih (hlink.mapSteps (hkept _)) hnodup.2 (hnames' _)).2 ⟨steps, ?_, ?_⟩
      · refine .trans ?_ (SymbolTree.withSteps_withSteps hnodup.1 _ _).symm
        refine SymbolTree.mapEntries_congr fun entry _ => ?_
        by_cases heq : entry.1 = name
        · simp [heq]
        · simp [heq]
      · intro other hother code' locals' hmem'
        apply (hsteps other (List.mem_cons_of_mem _ hother) code' locals'
          ((hlater _ other hother _).1 hmem')).imp
        refine fun s t hst => hst.mono (.of_map_eq fun x => ?_)
        exact (lookupIn_mapSteps (hkept _) locals' x).symm

/-! ## The whole program -/

namespace Program

/-- The empty assertion is resolved among the global names, if there is one. -/
theorem resolveEmpty_eq_ok_iff {program resolved : Program} :
    program.resolveEmpty = .ok resolved ↔
      ∃ empty filled, program.emptyAssertion = some empty ∧
        empty.ResolvesTo program.symbols.find? filled ∧
        resolved = { program with emptyAssertion := some filled } := by
  have hresolves : ∀ {empty filled : Assertion}, empty.resolve [program.symbols] = .ok filled ↔
      empty.ResolvesTo program.symbols.find? filled := by
    refine Assertion.resolve_eq_ok_iff fun name => ?_
    rw [List.findSome?_cons, List.findSome?_nil]
    cases program.symbols.find? name <;> rfl
  unfold resolveEmpty
  cases program.emptyAssertion with
  | none => simp
  | some empty => simp [hresolves, @eq_comm _ resolved]

/-- Resolution is that of the sequences in the layout, and then that of the assertion for unused
addresses. -/
theorem yields_resolve_sequences_iff {program linked : Program} {layout : List String} :
    (resolve layout).Yields program () linked ↔
      ∃ symbols, (resolveSequences layout).Yields program.symbols () symbols ∧
        { program with symbols }.resolveEmpty = .ok linked := by
  constructor
  · intro h
    obtain ⟨_, _, hsequences, h⟩ := Stage.yields_bind.1 h
    obtain ⟨symbols, hsymbols, rfl⟩ := yields_onSymbols.1 hsequences
    obtain ⟨_, _, hget, h⟩ := Stage.yields_bind.1 h
    obtain ⟨rfl, rfl⟩ := Stage.yields_get.1 hget
    obtain ⟨resolved, _, hlift, h⟩ := Stage.yields_bind.1 h
    obtain ⟨hempty, rfl⟩ := Stage.yields_liftM.1 hlift
    obtain rfl := Stage.yields_set.1 h
    exact ⟨symbols, hsymbols, hempty⟩
  · rintro ⟨symbols, hsymbols, hempty⟩
    refine Stage.yields_bind.2 ⟨_, _, yields_onSymbols.2 ⟨_, hsymbols, rfl⟩, ?_⟩
    refine Stage.yields_bind.2 ⟨_, _, Stage.yields_get.2 ⟨rfl, rfl⟩, ?_⟩
    exact Stage.yields_bind.2 ⟨_, _, Stage.yields_liftM.2 ⟨hempty, rfl⟩, Stage.yields_set.2 rfl⟩

/-- Linking is placing and then resolving. -/
theorem yields_link_iff {program linked : Program} {layout : List String} :
    link.Yields program layout linked ↔
      ∃ placed, place.Yields program layout placed ∧ (resolve layout).Yields placed () linked := by
  constructor
  · intro h
    obtain ⟨_, placed, hplace, h⟩ := Stage.yields_bind.1 h
    obtain ⟨_, _, hresolve, h⟩ := Stage.yields_bind.1 h
    obtain ⟨rfl, rfl⟩ := Stage.yields_pure.1 h
    exact ⟨placed, hplace, hresolve⟩
  · rintro ⟨placed, hplace, hresolve⟩
    refine Stage.yields_bind.2 ⟨_, _, hplace, ?_⟩
    exact Stage.yields_bind.2 ⟨⟨⟩, _, hresolve, Stage.yields_pure.2 ⟨rfl, rfl⟩⟩

/-- What resolution leaves: each sequence has resolved steps, the assertion for unused addresses is
resolved, and nothing else is changed. -/
theorem yields_resolve_iff {program linked : Program} {layout : List String}
    (hlink : program.symbols.Linkable) (hnodup : layout.Nodup)
    (hlayout : ∀ name ∈ layout, ∃ code locals,
      (name, .sequence code locals) ∈ program.symbols.entries) :
    (resolve layout).Yields program () linked ↔
      ∃ steps empty filled, program.emptyAssertion = some empty ∧
        empty.ResolvesTo program.symbols.find? filled ∧
        linked = { program with
          symbols := program.symbols.withSteps layout steps
          emptyAssertion := some filled } ∧
        ∀ name ∈ layout, ∀ code locals, (name, .sequence code locals) ∈ program.symbols.entries →
          List.Forall₂ (Step.ResolvesTo (lookupIn locals program.symbols)) code.steps
            (steps name) := by
  -- names stand for the same numbers whether the steps are resolved or not
  have hkept : ∀ steps name,
      ((program.symbols.withSteps layout steps).find? name).map Symbol.resolve =
        (program.symbols.find? name).map Symbol.resolve := fun steps =>
    SymbolTree.resolve_find?_mapSteps (exists_mapSteps_of_withSteps layout steps)
  rw [yields_resolve_sequences_iff]
  constructor
  · rintro ⟨symbols, hsymbols, hempty⟩
    obtain ⟨steps, rfl, hsteps⟩ := (yields_resolveSequences_iff hlink hnodup hlayout).1 hsymbols
    obtain ⟨empty, filled, hdefined, hfilled, rfl⟩ := resolveEmpty_eq_ok_iff.1 hempty
    exact ⟨steps, empty, filled, hdefined, hfilled.mono (.of_map_eq (hkept steps)), rfl, hsteps⟩
  · rintro ⟨steps, empty, filled, hdefined, hfilled, rfl, hsteps⟩
    refine ⟨_, (yields_resolveSequences_iff hlink hnodup hlayout).2 ⟨steps, rfl, hsteps⟩, ?_⟩
    refine resolveEmpty_eq_ok_iff.2 ⟨empty, filled, hdefined, ?_, rfl⟩
    exact hfilled.mono (.of_map_eq fun name => (hkept steps name).symm)

end Program

end ControlStore
