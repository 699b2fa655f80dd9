import ControlStore.Proofs.Layout.Progress

/-!
# When linking succeeds

What an expanded program needs to be linked, in terms of the program itself and not of the addresses
that linking gives: sequences for its entrypoints (`Program.HasEntrypoints`), room for the words of
all its sequences, and names in its assertions that stand for numbers (`Program.IsComplete`).

Names are looked up in symbols that have been placed. Placement changes the numbers that they stand
for, but not whether they stand for one (`SymbolTree.stands_find?_placeIn`), so it is enough to look
at the symbols as expansion left them.

The last result, `Program.link_iff_isComplete`, also says when the words do not fit. Names that
stand for nothing are not met in that case.
-/

namespace ControlStore

/-! ## Entrypoints -/

/-- A name may be entered exactly if it is a sequence. -/
theorem SymbolTree.Linkable.checkEntrypoint_eq_ok_iff {symbols : SymbolTree}
    (hlink : symbols.Linkable) {name : String} :
    symbols.checkEntrypoint name = .ok () ↔ symbols.IsSequence name := by
  constructor
  · intro h
    unfold checkEntrypoint at h
    split at h
    · next code locals hfind =>
      split at h
      · cases h
      · next hkind =>
        exact ⟨code, locals, hlink.find?_eq_sequence_iff.1 hfind, by simpa using hkind⟩
    · cases h
  · rintro ⟨code, locals, hmem, hkind⟩
    simp [checkEntrypoint, hlink.find?_eq_sequence_iff.2 hmem, hkind]

/-- A fetch entrypoint is set, and each entrypoint that is set names a sequence. -/
structure Program.HasEntrypoints (program : Program) : Prop where
  fetch : ∃ name, program.fetch = some name ∧ program.symbols.IsSequence name
  interrupt : ∀ name, program.interrupt = some name → program.symbols.IsSequence name

/-- The checks of the fetch and the interrupt sequence pass exactly if both are sequences. -/
theorem Program.checkedFetch_eq_ok_iff {program : Program} (hlink : program.symbols.Linkable)
    {fetch : String} :
    program.checkedFetch = .ok fetch ↔ program.fetch = some fetch ∧ program.HasEntrypoints := by
  have hinterrupt : program.interrupt.forM program.symbols.checkEntrypoint = .ok () ↔
      ∀ name, program.interrupt = some name → program.symbols.IsSequence name := by
    cases program.interrupt with
    | none =>
      refine iff_of_true rfl fun name hname => ?_
      cases hname
    | some name =>
      rw [Option.forM, hlink.checkEntrypoint_eq_ok_iff]
      simp
  unfold checkedFetch
  cases hfetch : program.fetch with
  | none => simp
  | some name =>
    simp only [bind_eq_ok_iff, hlink.checkEntrypoint_eq_ok_iff, hinterrupt, pure_eq_ok_iff,
      Option.some.injEq]
    constructor
    · rintro ⟨_, hname, _, hother, rfl⟩
      exact ⟨rfl, ⟨name, hfetch, hname⟩, hother⟩
    · rintro ⟨rfl, ⟨_, hsame, hname⟩, hother⟩
      cases hfetch.symm.trans hsame
      exact ⟨(), hname, (), hother, rfl⟩

/-! ## Names that stand for numbers -/

/-- The value is a number, or a name that is found and stands for one. -/
def Value.Resolvable (lookup : Lookup) : Value → Prop
  | .integer _ => True
  | .symbol name => ∃ found value, lookup name = some found ∧ found.resolve = some value

/-- All values of the assertion are numbers, or names that stand for numbers. -/
def Assertion.Resolvable (lookup : Lookup) (assertion : Assertion) : Prop :=
  ∀ signal ∈ assertion.signals, signal.value.Resolvable lookup

section Resolvable

variable {lookup : Lookup}

/-- A value resolves to something exactly if it is a number or its name stands for one. -/
theorem Value.exists_resolvesTo_iff {v : Value} :
    (∃ w, v.ResolvesTo lookup w) ↔ v.Resolvable lookup := by
  cases v with
  | integer value => exact iff_of_true ⟨_, .integer value⟩ trivial
  | symbol name =>
    constructor
    · rintro ⟨_, h⟩
      cases h with
      | symbol hfound hvalue => exact ⟨_, _, hfound, hvalue⟩
    · rintro ⟨found, value, hfound, hvalue⟩
      exact ⟨_, .symbol hfound hvalue⟩

/-- An assertion resolves to something exactly if all its values do. -/
theorem Assertion.exists_resolvesTo_iff {a : Assertion} :
    (∃ b, a.ResolvesTo lookup b) ↔ a.Resolvable lookup := by
  have hsignals : (∃ signals, List.Forall₂ (Signal.ResolvesTo lookup) a.signals signals) ↔
      a.Resolvable lookup := by
    rw [exists_forall₂_iff, Resolvable]
    refine forall₂_congr fun signal _ => ?_
    rw [← Value.exists_resolvesTo_iff]
    constructor
    · rintro ⟨resolved, h⟩
      exact ⟨_, h.value⟩
    · rintro ⟨value, h⟩
      exact ⟨{ signal with value }, rfl, h⟩
  rw [← hsignals]
  constructor
  · rintro ⟨b, h⟩
    exact ⟨_, h.signals⟩
  · rintro ⟨signals, h⟩
    exact ⟨{ a with signals }, rfl, rfl, h⟩

/-- Steps without references are resolved if their assertions are. -/
theorem exists_forall₂_resolvesTo_iff {steps : List Step} (hsteps : references steps = []) :
    (∃ resolved, List.Forall₂ (Step.ResolvesTo lookup) steps resolved) ↔
      ∀ a, .assertion a ∈ steps → a.Resolvable lookup := by
  rw [exists_forall₂_iff]
  constructor
  · intro h a ha
    obtain ⟨_, hresolves⟩ := h _ ha
    cases hresolves with
    | assertion hresolves => exact Assertion.exists_resolvesTo_iff.1 ⟨_, hresolves⟩
  · intro h step hstep
    cases step with
    | assertion a =>
      obtain ⟨b, hb⟩ := Assertion.exists_resolvesTo_iff.2 (h a hstep)
      exact ⟨_, .assertion hb⟩
    | reference r =>
      -- a reference is excluded, as it would never resolve
      have hr : r ∈ references steps := List.mem_filterMap.2 ⟨_, hstep, rfl⟩
      rw [hsteps] at hr
      cases hr

end Resolvable

/-! ## Placement keeps what stands for a number -/

/-- Does the symbol stand for a number? Which number it is may depend on placement. -/
def Symbol.stands (s : Symbol) : Bool := s.resolve.isSome

theorem Symbol.stands_placeAt (address : Nat) (s : Symbol) :
    (s.placeAt address).stands = s.stands := by
  cases s with
  | sequence code locals => cases hkind : code.isMacro <;> simp [stands, placeAt, resolve, hkind]
  | constant value => rfl
  | label l => rfl
  | scope locals => rfl

theorem Symbol.stands_mapLabels (move : Label → Label) (s : Symbol) :
    (s.mapLabels move).stands = s.stands := by
  cases s <;> simp [stands, mapLabels, resolve]

/-- The same names stand for numbers in both ways of looking up. -/
def Lookup.SameStanding (lookup lookup' : Lookup) : Prop :=
  ∀ name, (lookup' name).map Symbol.stands = (lookup name).map Symbol.stands

section SameStanding

variable {lookup lookup' : Lookup}

/-- Whether a value can be resolved depends on which names stand for numbers. -/
theorem Value.resolvable_iff_of_sameStanding (h : lookup.SameStanding lookup') {v : Value} :
    v.Resolvable lookup' ↔ v.Resolvable lookup := by
  have hstands : ∀ (l : Lookup) (name : String), (Value.symbol name).Resolvable l ↔
      (l name).map Symbol.stands = some true := by
    intro l name
    simp only [Resolvable, Option.map_eq_some_iff, Symbol.stands, Option.isSome_iff_exists]
    exact exists_congr fun found => exists_and_left
  cases v with
  | integer value => exact Iff.rfl
  | symbol name => rw [hstands, hstands, h name]

/-- Whether an assertion can be resolved depends on which names stand for numbers. -/
theorem Assertion.resolvable_iff_of_sameStanding (h : lookup.SameStanding lookup')
    {a : Assertion} : a.Resolvable lookup' ↔ a.Resolvable lookup :=
  forall₂_congr fun _ _ => Value.resolvable_iff_of_sameStanding h

end SameStanding

namespace SymbolTree

/-- The same names stand for numbers where labels are moved. -/
theorem stands_find?_mapLabels (move : Label → Label) (tree : SymbolTree) (name : String) :
    ((tree.mapLabels move).find? name).map Symbol.stands =
      (tree.find? name).map Symbol.stands := by
  rw [find?_mapLabels, Option.map_map]
  exact Option.map_congr fun s _ => s.stands_mapLabels move

/-- Names stand for numbers before placement if they do behind it. -/
theorem stands_find?_placeIn (layout : List String) (symbols : SymbolTree) (name : String) :
    ((symbols.placeIn layout).find? name).map Symbol.stands =
      (symbols.find? name).map Symbol.stands := by
  rw [placeIn, find?, find?]
  cases hpath : Path.ofName name with
  | nil => exact absurd hpath (Path.ofName_ne_nil _)
  | cons first path =>
    by_cases hrest : path = []
    · subst hrest
      rw [get?, get?, local?_mapEntries, Option.map_map]
      refine Option.map_congr fun s _ => ?_
      dsimp only [Function.comp]
      split
      · exact s.stands_placeAt _
      · rfl
    · rw [get?_cons hrest, get?_cons hrest, local?_mapEntries]
      cases symbols.local? first with
      | none => rfl
      | some s =>
        rw [Option.map_some, Option.bind_some, Option.bind_some]
        split
        · next hkind =>
          obtain ⟨code, locals, rfl, -⟩ := isPlaced_eq_true_iff.1 hkind
          -- the path goes on among the labels of this sequence
          simp only [Symbol.placeAt, Symbol.tree?, Option.bind_some, get?_mapLabels,
            Option.map_map]
          exact Option.map_congr fun inner _ => inner.stands_mapLabels _
        · rfl

/-- The same global names stand for numbers before and after placement. -/
theorem sameStanding_placeIn (layout : List String) (symbols : SymbolTree) :
    Lookup.SameStanding symbols.find? (symbols.placeIn layout).find? :=
  symbols.stands_find?_placeIn layout

/-- Names in a sequence stand for numbers before placement if they do behind it. -/
theorem sameStanding_lookupIn_placeIn (layout : List String) (symbols locals : SymbolTree)
    (address : Nat) :
    Lookup.SameStanding (lookupIn locals symbols)
      (lookupIn (locals.basedAt address) (symbols.placeIn layout)) := by
  intro name
  have hlocal : ((locals.basedAt address).find? name).map Symbol.stands =
      (locals.find? name).map Symbol.stands := stands_find?_mapLabels _ _ _
  rw [lookupIn, lookupIn, Option.map_or, Option.map_or, hlocal, stands_find?_placeIn]

end SymbolTree

/-! ## Programs that can be linked -/

/-- The names in all assertions stand for numbers. In a sequence they are looked up among its own
names first and then globally, in the assertion for unused addresses globally only. -/
structure Program.IsResolvable (program : Program) : Prop where
  sequence : ∀ name code locals, (name, .sequence code locals) ∈ program.symbols.entries →
    code.isMacro = false → ∀ a, .assertion a ∈ code.steps →
      a.Resolvable (lookupIn locals program.symbols)
  empty : ∃ empty, program.emptyAssertion = some empty ∧
    empty.Resolvable program.symbols.find?

/-- The program has all that linking asks for: its entrypoints name sequences, its words fit into
the store, and its names stand for numbers. -/
structure Program.IsComplete (program : Program) : Prop extends program.HasEntrypoints,
    program.IsResolvable where
  room : program.symbols.totalWords ≤ program.length

namespace Program

/-- Resolution succeeds where every sequence, and the assertion for unused addresses, can be
resolved on its own. -/
theorem exists_yields_resolve_iff {program : Program} {layout : List String}
    (hlink : program.symbols.Linkable) (hnodup : layout.Nodup)
    (hlayout : ∀ name ∈ layout, ∃ code locals,
      (name, .sequence code locals) ∈ program.symbols.entries) :
    (∃ linked, (resolve layout).Yields program () linked) ↔
      (∀ name ∈ layout, ∀ code locals, (name, .sequence code locals) ∈ program.symbols.entries →
        ∃ steps, List.Forall₂ (Step.ResolvesTo (lookupIn locals program.symbols)) code.steps
          steps) ∧
      ∃ empty filled, program.emptyAssertion = some empty ∧
        empty.ResolvesTo program.symbols.find? filled := by
  constructor
  · rintro ⟨linked, h⟩
    obtain ⟨steps, empty, filled, hempty, hfilled, -, hsteps⟩ :=
      (yields_resolve_iff hlink hnodup hlayout).1 h
    exact ⟨fun name hname code locals hmem => ⟨_, hsteps name hname code locals hmem⟩, empty,
      filled, hempty, hfilled⟩
  · rintro ⟨hsteps, empty, filled, hempty, hfilled⟩
    -- a name of the layout has one sequence, so the steps can be chosen by the name
    have hchoice : ∀ name, ∃ steps, name ∈ layout → ∀ code locals,
        (name, .sequence code locals) ∈ program.symbols.entries →
        List.Forall₂ (Step.ResolvesTo (lookupIn locals program.symbols)) code.steps steps := by
      intro name
      by_cases hname : name ∈ layout
      · obtain ⟨code, locals, hmem⟩ := hlayout name hname
        obtain ⟨steps, hresolves⟩ := hsteps name hname code locals hmem
        refine ⟨steps, fun _ code' locals' hmem' => ?_⟩
        cases entry_unique hlink.nodup hmem hmem'
        exact hresolves
      · exact ⟨[], fun hlisted => absurd hlisted hname⟩
    choose steps hchosen using hchoice
    exact ⟨_, (yields_resolve_iff hlink hnodup hlayout).2
      ⟨steps, empty, filled, hempty, hfilled, rfl, hchosen⟩⟩

/-- A placed program is resolved if its names stood for numbers before. -/
theorem exists_yields_resolve_placeIn_iff {program : Program} {layout : List String}
    (hlink : program.symbols.Linkable) (hdone : program.symbols.IsExpanded)
    (hnodup : layout.Nodup)
    (hlayout : ∀ name, name ∈ layout ↔ program.symbols.IsSequence name) :
    (∃ linked, (resolve layout).Yields
        { program with symbols := program.symbols.placeIn layout } () linked) ↔
      program.IsResolvable := by
  -- a sequence of the layout, at its address
  have hplaced : ∀ {name code locals}, (name, .sequence code locals) ∈ program.symbols.entries →
      code.isMacro = false → let address := program.symbols.addressIn layout name
      (name, .sequence { code with address } (locals.basedAt address)) ∈
        (program.symbols.placeIn layout).entries := by
    intro name code locals hmem hkind
    refine SymbolTree.mem_mapEntries_iff.2 ⟨_, hmem, if_pos ?_⟩
    simp [Symbol.isPlaced, hkind]
  have hsteps : ∀ {name code locals}, (name, .sequence code locals) ∈ program.symbols.entries →
      code.isMacro = false → let address := program.symbols.addressIn layout name
      ((∃ steps, List.Forall₂ (Step.ResolvesTo (lookupIn (locals.basedAt address)
          (program.symbols.placeIn layout))) code.steps steps) ↔
        ∀ a, .assertion a ∈ code.steps → a.Resolvable (lookupIn locals program.symbols)) := by
    intro name code locals hmem hkind address
    rw [exists_forall₂_resolvesTo_iff (hdone name code locals hmem hkind)]
    exact forall₂_congr fun a _ => Assertion.resolvable_iff_of_sameStanding
      (SymbolTree.sameStanding_lookupIn_placeIn layout program.symbols locals address)
  have hempty : ∀ empty : Assertion,
      (∃ filled, empty.ResolvesTo (program.symbols.placeIn layout).find? filled) ↔
        empty.Resolvable program.symbols.find? := fun empty =>
    Assertion.exists_resolvesTo_iff.trans (Assertion.resolvable_iff_of_sameStanding
      (SymbolTree.sameStanding_placeIn layout program.symbols))
  rw [exists_yields_resolve_iff (hlink.placeIn layout) hnodup fun name hname => by
    obtain ⟨code, locals, hmem, hkind⟩ := (hlayout name).1 hname
    exact ⟨_, _, hplaced hmem hkind⟩]
  simp only [exists_and_left, hempty]
  constructor
  · rintro ⟨hresolved, hfilled⟩
    refine ⟨fun name code locals hmem hkind => (hsteps hmem hkind).1 ?_, hfilled⟩
    have hlisted := (hlayout name).2 ⟨code, locals, hmem, hkind⟩
    have hcode := hresolved name hlisted _ _ (hplaced hmem hkind)
    exact hcode
  · intro h
    refine ⟨fun name hname code' locals' hmem' => ?_, h.empty⟩
    obtain ⟨code, locals, hmem, hkind⟩ := (hlayout name).1 hname
    cases entry_unique (hlink.placeIn layout).nodup (hplaced hmem hkind) hmem'
    exact (hsteps hmem hkind).2 (h.sequence name code locals hmem hkind)

/-- The layout behind a checked fetch sequence: what is in it, and how many words. -/
theorem layout_of_checkedFetch {program : Program} (hlink : program.symbols.Linkable)
    {fetch : String} (h : program.checkedFetch = .ok fetch) :
    (∀ name, name ∈ program.symbols.layout fetch ↔ program.symbols.IsSequence name) ∧
      ((program.symbols.layout fetch).map program.symbols.wordCount).sum =
        program.symbols.totalWords := by
  obtain ⟨-, s, hmem, hkind⟩ := mem_of_checkedFetch hlink h
  refine ⟨fun name => ?_, SymbolTree.sum_wordCount_layout hlink.nodup hmem hkind⟩
  rw [SymbolTree.mem_layout_iff hmem hkind, SymbolTree.isSequence_iff]

/-- An expanded program links exactly if it is complete. -/
theorem exists_yields_link_iff {program : Program} (hlink : program.symbols.Linkable)
    (hdone : program.symbols.IsExpanded) :
    (∃ layout linked, link.Yields program layout linked) ↔ program.IsComplete := by
  constructor
  · rintro ⟨layout, linked, h⟩
    obtain ⟨placed, hplace, hresolve⟩ := yields_link_iff.1 h
    obtain ⟨fetch, hchecked, rfl, hroom, rfl⟩ := (yields_place_iff hlink hdone).1 hplace
    obtain ⟨hlayout, hwords⟩ := layout_of_checkedFetch hlink hchecked
    have hresolvable := (exists_yields_resolve_placeIn_iff hlink hdone
      (SymbolTree.nodup_layout hlink.nodup) hlayout).1 ⟨linked, hresolve⟩
    exact ⟨((checkedFetch_eq_ok_iff hlink).1 hchecked).2, hresolvable, hwords ▸ hroom⟩
  · intro h
    obtain ⟨fetch, hfetch, -⟩ := h.fetch
    have hchecked := (checkedFetch_eq_ok_iff hlink).2 ⟨hfetch, h.toHasEntrypoints⟩
    obtain ⟨hlayout, hwords⟩ := layout_of_checkedFetch hlink hchecked
    obtain ⟨linked, hresolve⟩ := (exists_yields_resolve_placeIn_iff hlink hdone
      (SymbolTree.nodup_layout hlink.nodup) hlayout).2 h.toIsResolvable
    have hplace := (yields_place_iff hlink hdone).2
      ⟨fetch, hchecked, rfl, hwords.trans_le h.room, rfl⟩
    exact ⟨program.symbols.layout fetch, linked, yields_link_iff.2 ⟨_, hplace, hresolve⟩⟩

/-- An expanded program is linked exactly if it is complete. It is refused for want of room exactly
if its entrypoints name sequences and the words of all its sequences do not fit, and the error says
how many words these are, how many there is room for, and how many are too many. So a program that
does not fit is refused for that, whatever its names stand for. -/
theorem link_iff_isComplete {text : String} {program expanded : Program} {n : Nat}
    (hread : program.ReadFrom text) (hexpand : Program.expand.Yields program n expanded) :
    ((∃ layout linked, link.Yields expanded layout linked) ↔ expanded.IsComplete) ∧
    ∀ needed available excess, link.Fails expanded (.overflow needed available excess) ↔
      expanded.HasEntrypoints ∧ needed = expanded.symbols.totalWords ∧
        available = expanded.length ∧ excess = needed - available ∧ 0 < excess := by
  have hlink := linkable_of_expand hread.wellFormed.symbols hexpand
  have hdone := isExpanded_of_expand hexpand
  refine ⟨exists_yields_link_iff hlink hdone, fun needed available excess => ?_⟩
  rw [fails_link_overflow_iff hlink hdone]
  constructor
  · rintro ⟨fetch, hchecked, hneeded, hrest⟩
    rw [(layout_of_checkedFetch hlink hchecked).2] at hneeded
    exact ⟨((checkedFetch_eq_ok_iff hlink).1 hchecked).2, hneeded, hrest⟩
  · rintro ⟨hentrypoints, hneeded, hrest⟩
    obtain ⟨fetch, hfetch, -⟩ := hentrypoints.fetch
    have hchecked := (checkedFetch_eq_ok_iff hlink).2 ⟨hfetch, hentrypoints⟩
    refine ⟨fetch, hchecked, ?_, hrest⟩
    rw [(layout_of_checkedFetch hlink hchecked).2, hneeded]

end Program

/-- Two words for a store of one, with a name that stands for nothing and without an assertion for
unused addresses. -/
def crowdedText : String :=
  "config { controlwordwidth 4 microprogramlength 1 opwidth 1 bankmask 0 } control c 0 2:0 " ++
  "sequence s { assert { c: nothing } assert { c: 1 } } entrypoints { fetch: s }"

/-- Two words in a store of one are one too many. -/
theorem compile_crowdedText :
    (compile (.ok crowdedText) false).result = .error (.link (.overflow 2 1 1)) := by
  decide +kernel

/-- The sample text is linked, so it is complete. The crowded text is refused for its words, so it
has entrypoints, and it is not complete. -/
theorem Program.link_iff_isComplete_crowdedText :
    (∃ program n expanded, program.ReadFrom sampleText ∧
      Program.expand.Yields program n expanded ∧ expanded.IsComplete) ∧
    ∃ program n expanded, program.ReadFrom crowdedText ∧
      Program.expand.Yields program n expanded ∧ expanded.HasEntrypoints ∧
      expanded.symbols.totalWords = 2 ∧ expanded.length = 1 ∧ ¬expanded.IsComplete := by
  constructor
  · obtain ⟨image, hcompile, -⟩ := exists_image_sampleText
    obtain ⟨c, -⟩ := compile_eq_ok_iff.1 hcompile
    obtain ⟨hlinks, -⟩ := Program.link_iff_isComplete c.readFrom c.expands
    exact ⟨c.program, c.count, c.expanded, c.readFrom, c.expands,
      hlinks.1 ⟨c.layout, c.linked, c.links⟩⟩
  · cases failsWith_of_compile compile_crowdedText with
    | @link program expanded n _ hread hexpand hfails =>
      obtain ⟨hlinks, hoverflow⟩ := Program.link_iff_isComplete hread hexpand
      obtain ⟨hentrypoints, hneeded, havailable, -⟩ := (hoverflow 2 1 1).1 hfails
      refine ⟨program, n, expanded, hread, hexpand, hentrypoints, hneeded.symm, havailable.symm,
        fun hcomplete => ?_⟩
      obtain ⟨_, _, hyields⟩ := hlinks.2 hcomplete
      exact hyields.not_fails _ hfails

end ControlStore
