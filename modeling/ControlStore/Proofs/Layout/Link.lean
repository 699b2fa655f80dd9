import ControlStore.Proofs.Compilation
import ControlStore.Proofs.Expansion.Blocks
import ControlStore.Proofs.Layout.Resolution

/-!
# Linked programs

Placement and resolution together, for programs that were read and expanded. Expansion leaves
symbols that can be linked (`Program.linkable_of_expand`), so that `Program.eq_of_link` describes
the linked program by the addresses of its layout and by the resolved steps of its sequences.
`Compilation.keepsKind` compares the linked program with the one that was read: the global names are
the same, and all that is not a sequence is as it was.
-/

namespace ControlStore

/-! ## Expanded programs can be linked -/

namespace SymbolTree

/-- Entries without sequences can be joined. -/
theorem sequenceless_append {name : String} {entries added : List (String × Symbol)}
    (h : (⟨name, entries⟩ : SymbolTree).Sequenceless)
    (hadded : (⟨name, added⟩ : SymbolTree).Sequenceless) :
    (⟨name, entries ++ added⟩ : SymbolTree).Sequenceless := by
  intro code locals hholds
  obtain ⟨entry, hentry, hsymbol⟩ := holds_iff.1 hholds
  rcases List.mem_append.1 hentry with hentry | hentry
  · exact h code locals (holds_iff.2 ⟨entry, hentry, hsymbol⟩)
  · exact hadded code locals (holds_iff.2 ⟨entry, hentry, hsymbol⟩)

/-- Labels have no sequence among them. -/
theorem OnlyLabels.sequenceless {tree : SymbolTree} {count : Nat} (h : tree.OnlyLabels count) :
    tree.Sequenceless := by
  intro code locals hholds
  obtain ⟨entry, hentry, hsymbol⟩ := holds_iff.1 hholds
  obtain ⟨offset, -, heq⟩ := h.label entry hentry
  rcases hsymbol with hsymbol | ⟨inner, hinner, -⟩
  · rw [heq] at hsymbol
    cases hsymbol
  · rw [heq] at hinner
    cases hinner

/-- Moved labels have no sequence among them. -/
theorem OnlyLabels.sequenceless_mapLabelEntries {tree : SymbolTree} {count : Nat}
    (h : tree.OnlyLabels count) (name : String) (move : Label → Label) :
    (⟨name, mapLabelEntries move tree.entries⟩ : SymbolTree).Sequenceless := by
  intro code locals hholds
  refine h.sequenceless.mapLabels move code locals (holds_iff.2 ?_)
  rw [mapLabels_entries, ← mapLabelEntries_eq_map]
  exact holds_iff.1 hholds

end SymbolTree

/-- The scopes of blocks hold no sequences. -/
theorem Inlines.sequenceless_scopes {macros : SymbolTree} (hmacros : macros.WellFormed)
    {frame : Frame} {taken : List String} {steps : List Step} {inl : Inlining}
    (h : Inlines macros frame taken steps inl) (tree name : String) (start : Nat) :
    (⟨tree, inl.scopes name start⟩ : SymbolTree).Sequenceless := by
  induction h generalizing tree name start with
  | done =>
    intro code locals hholds
    obtain ⟨entry, hentry, -⟩ := SymbolTree.holds_iff.1 hholds
    cases hentry
  | word hrest ih => exact ih tree name (start + 1)
  | @block frame taken r rest code locals inst key body inl hdef harity hkey hinst hbody hrest
      ihbody ihrest =>
    intro code' locals' hholds
    obtain ⟨entry, hentry, hsymbol⟩ := SymbolTree.holds_iff.1 hholds
    rcases List.mem_cons.1 hentry with rfl | hentry
    · rcases hsymbol with hsymbol | ⟨inner, hinner, hsymbol⟩
      · cases hsymbol
      · cases hinner
        -- the scope of a block holds the labels of its macro and the scopes of its body
        have hlabels := (hmacros.isWritten hdef).1.labels
        rw [hinst] at hsymbol
        exact SymbolTree.sequenceless_append (hlabels.sequenceless_mapLabelEntries _ _)
          (ihbody _ _ _) code' locals' hsymbol
    · exact ihrest tree name _ code' locals' (SymbolTree.holds_iff.2 ⟨entry, hentry, hsymbol⟩)

/-- After expansion, sequences are bound globally only. -/
theorem SymbolTree.WellFormed.linkable {symbols : SymbolTree} (h : symbols.WellFormed)
    {trees : String → Inlining} (htrees : TreesOf symbols trees symbols.entries) :
    (⟨symbols.name, symbols.entries.map (expandEntry trees)⟩ : SymbolTree).Linkable := by
  -- names are kept by expansion, and the names of a sequence are labels and scopes of labels
  have hnames : (⟨symbols.name, symbols.entries.map (expandEntry trees)⟩ : SymbolTree).names =
      symbols.names := by
    simp [names, Function.comp_def, expandEntry_fst]
  refine ⟨hnames ▸ h.nodup, hnames ▸ h.dotless, ?_⟩
  intro entry hentry tree htree
  obtain ⟨⟨name, symbol⟩, hold, rfl⟩ := List.mem_map.1 hentry
  have hsymbol := h.symbol _ hold
  cases symbol with
  | constant value => cases htree
  | label l => exact hsymbol.elim
  | scope locals => exact hsymbol.elim
  | sequence code locals =>
    have hlabels : locals.OnlyLabels code.steps.length := hsymbol.labels
    rw [expandEntry] at htree
    split at htree
    · cases htree
      exact hlabels.sequenceless
    · next hkind =>
      cases htree
      exact sequenceless_append (hlabels.sequenceless_mapLabelEntries _ _)
        ((htrees name code locals hold (by simpa using hkind)).sequenceless_scopes h _ _ _)

/-- What expansion yields can be linked. -/
theorem Program.linkable_of_expand {program expanded : Program} {n : Nat}
    (hsymbols : program.symbols.WellFormed) (h : Program.expand.Yields program n expanded) :
    expanded.symbols.Linkable := by
  obtain ⟨trees, htrees, -, rfl⟩ := Program.eq_of_expand hsymbols h
  exact hsymbols.linkable htrees

/-! ## Placement and resolution -/

/-- What resolution makes of a global symbol: a sequence has resolved steps, and anything else stays
as it is. -/
inductive EntryResolves (symbols : SymbolTree) : String × Symbol → String × Symbol → Prop
  | kept {entry : String × Symbol} (hkind : entry.2.isPlaced = false) :
      EntryResolves symbols entry entry
  | sequence {name : String} {code : Code} {locals : SymbolTree} {steps : List Step}
      (hkind : code.isMacro = false)
      (hsteps : List.Forall₂ (Step.ResolvesTo (lookupIn locals symbols)) code.steps steps) :
      EntryResolves symbols (name, .sequence code locals)
        (name, .sequence { code with steps } locals)

namespace Program

/-- A placed program has the sequences of its layout, each under its name. -/
theorem mem_layout_of_place {program placed : Program} {layout : List String}
    (hlink : program.symbols.Linkable) (h : place.Yields program layout placed) :
    placed.symbols.Linkable ∧ layout.Nodup ∧
      (∀ entry ∈ placed.symbols.entries, (entry.1 ∈ layout ↔ entry.2.isPlaced = true)) ∧
      ∀ name ∈ layout, ∃ code locals, (name, .sequence code locals) ∈ placed.symbols.entries := by
  obtain ⟨fetch, s, -, hmem, hkind, rfl, rfl, -⟩ := eq_of_place hlink h
  refine ⟨hlink.placeIn _, SymbolTree.nodup_layout hlink.nodup, ?_, ?_⟩
  · rintro ⟨name, symbol⟩ hentry
    obtain ⟨old, hold, rfl⟩ := SymbolTree.mem_mapEntries_iff.1 hentry
    rw [SymbolTree.mem_layout_iff_isPlaced hlink.nodup hmem hkind hold]
    dsimp only
    split
    · rw [old.isPlaced_placeAt]
    · rfl
  · intro name hlisted
    obtain ⟨old, hold, hplaced⟩ := (SymbolTree.mem_layout_iff hmem hkind).1 hlisted
    obtain ⟨code, locals, rfl, -⟩ := isPlaced_eq_true_iff.1 hplaced
    exact ⟨_, _, SymbolTree.mem_mapEntries_iff.2 ⟨_, hold, if_pos hplaced⟩⟩

/-- A linked program is a placed one in which every symbol is resolved. -/
theorem eq_of_link {program linked : Program} {layout : List String}
    (hlink : program.symbols.Linkable) (h : link.Yields program layout linked) :
    ∃ placed steps empty filled, place.Yields program layout placed ∧
      placed.emptyAssertion = some empty ∧ empty.ResolvesTo placed.symbols.find? filled ∧
      linked = { placed with
        symbols := placed.symbols.withSteps layout steps
        emptyAssertion := some filled } ∧
      List.Forall₂ (EntryResolves placed.symbols) placed.symbols.entries
        linked.symbols.entries := by
  obtain ⟨placed, hplace, hresolve⟩ := yields_link_iff.1 h
  obtain ⟨hlink', hnodup, hlayout, hsequences⟩ := mem_layout_of_place hlink hplace
  obtain ⟨steps, empty, filled, hempty, hfilled, rfl, hsteps⟩ :=
    (yields_resolve_iff hlink' hnodup hsequences).1 hresolve
  refine ⟨placed, steps, empty, filled, hplace, hempty, hfilled, rfl, ?_⟩
  refine List.forall₂_map_right_iff.2 (List.forall₂_same.2 fun entry hentry => ?_)
  obtain ⟨name, symbol⟩ := entry
  by_cases hkind : symbol.isPlaced = true
  · obtain ⟨code, locals, rfl, hcode⟩ := isPlaced_eq_true_iff.1 hkind
    have hlisted := (hlayout _ hentry).2 hkind
    dsimp only
    rw [if_pos hlisted]
    exact .sequence hcode (hsteps name hlisted code locals hentry)
  · -- what is not listed is no sequence, and stays as it was
    have hlisted : name ∉ layout := fun hlisted => hkind ((hlayout _ hentry).1 hlisted)
    dsimp only
    rw [if_neg hlisted]
    exact .kept (by simpa using hkind)

end Program

/-! ## What a linked program is -/

/-- The names of a sequence once it has an address. -/
def SymbolTree.basedAt (address : Nat) (names : SymbolTree) : SymbolTree :=
  names.mapLabels fun label => { label with base := address }

/-- Resolving an entry keeps its name and the number of its words. -/
theorem EntryResolves.wordCount_eq {symbols : SymbolTree} {entry resolved : String × Symbol}
    (h : EntryResolves symbols entry resolved) :
    resolved.1 = entry.1 ∧ resolved.2.wordCount = entry.2.wordCount := by
  cases h with
  | kept _ => exact ⟨rfl, rfl⟩
  | sequence _ hsteps => exact ⟨rfl, hsteps.length_eq.symm⟩

/-- Resolution keeps the number of words of every symbol. -/
theorem SymbolTree.wordCount_eq_of_resolves {symbols placed linked : SymbolTree}
    (h : List.Forall₂ (EntryResolves symbols) placed.entries linked.entries) :
    linked.wordCount = placed.wordCount := by
  funext name
  rw [wordCount, wordCount, local?, local?]
  generalize placed.entries = entries at h
  generalize linked.entries = resolved at h
  induction h with
  | nil => rfl
  | cons hfirst _ ih =>
    obtain ⟨hname, hcount⟩ := hfirst.wordCount_eq
    rw [List.lookup_cons, List.lookup_cons, hname]
    split
    · simp [hcount]
    · exact ih

/-- What linking makes of an expanded program whose sequences are laid out in the given order. -/
structure Program.LinksTo (expanded : Program) (layout : List String) (linked : Program) :
    Prop where
  linkable : linked.symbols.Linkable
  wordCount : linked.symbols.wordCount = expanded.symbols.wordCount
  length : linked.length = expanded.length
  wordWidth : linked.wordWidth = expanded.wordWidth
  order : ∃ fetch s, expanded.fetch = some fetch ∧ (fetch, s) ∈ expanded.symbols.entries ∧
    s.isPlaced = true ∧ layout = expanded.symbols.layout fetch
  /-- All words fit into the store. -/
  fits : (layout.map expanded.symbols.wordCount).sum ≤ expanded.length
  /-- A sequence is at the address behind the ones before it, and so are its labels. Its symbols are
  resolved. -/
  sequence : ∀ name code locals, (name, .sequence code locals) ∈ expanded.symbols.entries →
    code.isMacro = false → ∃ steps,
      let address := expanded.symbols.addressIn layout name
      (name, .sequence { code with address, steps } (locals.basedAt address)) ∈
        linked.symbols.entries ∧
      List.Forall₂ (Step.ResolvesTo (lookupIn (locals.basedAt address) linked.symbols))
        code.steps steps
  empty : ∃ empty filled, expanded.emptyAssertion = some empty ∧
    linked.emptyAssertion = some filled ∧ empty.ResolvesTo linked.symbols.find? filled

/-- Linking yields a program that is linked: laid out in order, placed, and resolved. -/
theorem Program.linksTo_of_link {expanded linked : Program} {layout : List String}
    (hlink : expanded.symbols.Linkable) (h : link.Yields expanded layout linked) :
    expanded.LinksTo layout linked := by
  obtain ⟨placed, steps, empty, filled, hplace, hempty, hfilled, rfl, hentries⟩ :=
    eq_of_link hlink h
  obtain ⟨fetch, s, hfetch, hmem, hkind, hlayout, rfl, hfits⟩ := eq_of_place hlink hplace
  -- names stand for the same numbers before and after resolution
  have hkept := exists_mapSteps_of_withSteps layout steps
  refine ⟨(hlink.placeIn layout).mapSteps hkept, ?_, rfl, rfl,
    ⟨fetch, s, hfetch, hmem, hkind, hlayout⟩, hfits, ?_, ⟨empty, filled, hempty, rfl, ?_⟩⟩
  · rw [SymbolTree.wordCount_eq_of_resolves hentries]
    refine SymbolTree.wordCount_mapEntries fun name s => ?_
    split
    · exact s.wordCount_placeAt _
    · rfl
  · intro name code locals hcode hsequence
    have hplaced : (name, (Symbol.sequence code locals).placeAt
        (expanded.symbols.addressIn layout name)) ∈
          (expanded.symbols.placeIn layout).entries := by
      refine SymbolTree.mem_mapEntries_iff.2 ⟨_, hcode, if_pos ?_⟩
      simp [Symbol.isPlaced, hsequence]
    obtain ⟨resolved, hresolved, hentry⟩ := exists_of_forall₂_of_mem hentries.flip hplaced
    cases hentry with
    | kept hother => simp [Symbol.isPlaced, Symbol.placeAt, hsequence] at hother
    | sequence _ hsteps =>
      refine ⟨_, hresolved, hsteps.imp fun step step' hstep => hstep.mono ?_⟩
      exact .of_map_eq fun x => (lookupIn_mapSteps hkept _ x).symm
  · exact hfilled.mono
      (.of_map_eq fun x => (SymbolTree.resolve_find?_mapSteps hkept x).symm)

/-- The expanded program of a compilation can be linked. -/
theorem Compilation.linkable {text : String} (c : Compilation text) :
    c.expanded.symbols.Linkable :=
  Program.linkable_of_expand c.readFrom.wellFormed.symbols c.expands

/-- Every compilation links its expanded program. -/
theorem Compilation.linksTo {text : String} (c : Compilation text) :
    c.expanded.LinksTo c.layout c.linked :=
  Program.linksTo_of_link c.linkable c.links

/-! ## Global symbols from reading to linking -/

/-- The name is that of a sequence, and not of a macro. -/
def SymbolTree.IsSequence (symbols : SymbolTree) (name : String) : Prop :=
  ∃ code locals, (name, .sequence code locals) ∈ symbols.entries ∧ code.isMacro = false

/-- A global symbol in front of expansion, and behind linking: it has its name, it is a sequence or
it is none, and only sequences are changed. -/
structure KeepsKind (entry linked : String × Symbol) : Prop where
  name : linked.1 = entry.1
  isPlaced : linked.2.isPlaced = entry.2.isPlaced
  kept : entry.2.isPlaced = false → linked = entry

/-- Resolving an entry keeps its name and kind, and the whole of it if it is no sequence. -/
theorem EntryResolves.keepsKind {symbols : SymbolTree} {entry resolved : String × Symbol}
    (h : EntryResolves symbols entry resolved) : KeepsKind entry resolved := by
  cases h with
  | kept _ => exact ⟨rfl, rfl, fun _ => rfl⟩
  | sequence hkind _ =>
    refine ⟨rfl, rfl, fun hother => ?_⟩
    simp [Symbol.isPlaced, hkind] at hother

namespace Compilation

variable {text : String} (c : Compilation text)

/-- From the text to the linked program, entries keep their names and kinds, and are kept whole
unless they are sequences. -/
theorem keepsKind : List.Forall₂ KeepsKind c.program.symbols.entries c.linked.symbols.entries := by
  obtain ⟨trees, -, -, hexpanded⟩ :=
    Program.eq_of_expand c.readFrom.wellFormed.symbols c.expands
  obtain ⟨placed, -, -, -, hplace, -, -, -, hentries⟩ := Program.eq_of_link c.linkable c.links
  obtain ⟨fetch, s, -, -, -, -, rfl, -⟩ := Program.eq_of_place c.linkable hplace
  rw [hexpanded, SymbolTree.placeIn, SymbolTree.mapEntries, List.forall₂_map_left_iff,
    List.forall₂_map_left_iff] at hentries
  refine hentries.imp fun entry linked hentry => ?_
  have hkind := isPlaced_expandEntry trees entry
  refine ⟨?_, ?_, fun hother => ?_⟩
  · rw [hentry.keepsKind.name, expandEntry_fst]
  · rw [hentry.keepsKind.isPlaced, ← hkind]
    dsimp only
    split
    · exact Symbol.isPlaced_placeAt _ _
    · rfl
  · rw [expandEntry_of_not_isPlaced hother] at hentry
    simp only [hother] at hentry
    exact hentry.keepsKind.kept hother

/-- What is not a sequence is linked as it was read. -/
theorem mem_linked_iff {name : String} {symbol : Symbol} (hkind : symbol.isPlaced = false) :
    (name, symbol) ∈ c.linked.symbols.entries ↔ (name, symbol) ∈ c.program.symbols.entries := by
  constructor
  · intro hmem
    obtain ⟨entry, hentry, hkeeps⟩ := exists_of_forall₂_of_mem c.keepsKind hmem
    rw [hkeeps.kept (hkeeps.isPlaced.symm.trans hkind)]
    exact hentry
  · intro hmem
    obtain ⟨linked, hlinked, hkeeps⟩ := exists_of_forall₂_of_mem c.keepsKind.flip hmem
    rw [← hkeeps.kept hkind]
    exact hlinked

/-- The macros of the linked program are those of the text. -/
theorem isMacro_linked_iff {name : String} {code : Code} {locals : SymbolTree} :
    c.linked.symbols.IsMacro name code locals ↔ c.program.symbols.IsMacro name code locals := by
  constructor
  · rintro ⟨hmem, hkind⟩
    exact ⟨(c.mem_linked_iff (by simp [Symbol.isPlaced, hkind])).1 hmem, hkind⟩
  · rintro ⟨hmem, hkind⟩
    exact ⟨(c.mem_linked_iff (by simp [Symbol.isPlaced, hkind])).2 hmem, hkind⟩

end Compilation

/-- The names of sequences are those of placed symbols. -/
theorem SymbolTree.isSequence_iff {symbols : SymbolTree} {name : String} :
    symbols.IsSequence name ↔
      ∃ symbol, (name, symbol) ∈ symbols.entries ∧ symbol.isPlaced = true := by
  constructor
  · rintro ⟨code, locals, hmem, hkind⟩
    exact ⟨_, hmem, isPlaced_eq_true_iff.2 ⟨code, locals, rfl, hkind⟩⟩
  · rintro ⟨symbol, hmem, hplaced⟩
    obtain ⟨code, locals, rfl, hkind⟩ := isPlaced_eq_true_iff.1 hplaced
    exact ⟨code, locals, hmem, hkind⟩

/-- The sequences of the linked program are those of the text. -/
theorem Compilation.isSequence_linked_iff {text : String} (c : Compilation text) {name : String} :
    c.linked.symbols.IsSequence name ↔ c.program.symbols.IsSequence name := by
  rw [SymbolTree.isSequence_iff, SymbolTree.isSequence_iff]
  constructor
  · rintro ⟨symbol, hmem, hplaced⟩
    obtain ⟨⟨_, old⟩, hold, hkeeps⟩ := exists_of_forall₂_of_mem c.keepsKind hmem
    cases hkeeps.name
    exact ⟨old, hold, hkeeps.isPlaced.symm.trans hplaced⟩
  · rintro ⟨symbol, hmem, hplaced⟩
    obtain ⟨⟨_, linked⟩, hlinked, hkeeps⟩ := exists_of_forall₂_of_mem c.keepsKind.flip hmem
    cases hkeeps.name
    exact ⟨linked, hlinked, hkeeps.isPlaced.trans hplaced⟩

/-! ## No symbols are left -/

/-- All values of the assertion are numbers. -/
def Assertion.IsResolved (assertion : Assertion) : Prop :=
  ∀ signal ∈ assertion.signals, ∃ value, signal.value = .integer value

/-- All steps are assertions with numbers. -/
def StepsResolved (steps : List Step) : Prop :=
  ∀ step ∈ steps, ∃ a, step = .assertion a ∧ a.IsResolved

/-- A resolved value is a number. -/
theorem Value.ResolvesTo.exists_integer {lookup : Lookup} {v w : Value}
    (h : v.ResolvesTo lookup w) : ∃ value, w = .integer value := by
  cases h with
  | integer value => exact ⟨value, rfl⟩
  | symbol _ _ => exact ⟨_, rfl⟩

/-- A resolved assertion has numbers only. -/
theorem Assertion.ResolvesTo.isResolved {lookup : Lookup} {a b : Assertion}
    (h : a.ResolvesTo lookup b) : b.IsResolved := by
  intro signal hsignal
  obtain ⟨old, -, hresolves⟩ := exists_of_forall₂_of_mem h.signals hsignal
  exact hresolves.value.exists_integer

/-- Resolved steps are assertions with numbers only. -/
theorem StepsResolved.of_resolvesTo {lookup : Lookup} {steps resolved : List Step}
    (h : List.Forall₂ (Step.ResolvesTo lookup) steps resolved) : StepsResolved resolved := by
  intro step hstep
  obtain ⟨old, -, hresolves⟩ := exists_of_forall₂_of_mem h hstep
  cases hresolves with
  | assertion ha => exact ⟨_, rfl, ha.isResolved⟩

/-- All steps of a resolved sequence are assertions with numbers. -/
theorem EntryResolves.isResolved {symbols : SymbolTree} {entry : String × Symbol} {name : String}
    {code : Code} {locals : SymbolTree}
    (h : EntryResolves symbols entry (name, .sequence code locals)) (hkind : code.isMacro = false) :
    ∀ step ∈ code.steps, ∃ a, step = .assertion a ∧ a.IsResolved := by
  cases h with
  | kept hkept => simp [Symbol.isPlaced, hkind] at hkept
  | sequence _ hsteps => exact StepsResolved.of_resolvesTo hsteps

/-- Linking resolves every symbol in the symbols as placement left them, whatever the order in which
sequences are resolved: in a sequence among its own names first and then globally, in the assertion
for unused addresses globally only. Nothing else differs from the placed program. -/
theorem Program.link_resolves {text : String} {program expanded linked : Program} {n : Nat}
    {layout : List String} (hread : program.ReadFrom text)
    (hexpand : Program.expand.Yields program n expanded)
    (hlink : Program.link.Yields expanded layout linked) :
    ∃ placed empty filled, Program.place.Yields expanded layout placed ∧
      List.Forall₂ (EntryResolves placed.symbols) placed.symbols.entries
        linked.symbols.entries ∧
      placed.emptyAssertion = some empty ∧ linked.emptyAssertion = some filled ∧
      empty.ResolvesTo placed.symbols.find? filled ∧
      linked = { placed with
        symbols := { placed.symbols with entries := linked.symbols.entries }
        emptyAssertion := linked.emptyAssertion } ∧
      (∀ name code locals, (name, .sequence code locals) ∈ linked.symbols.entries →
        code.isMacro = false → ∀ step ∈ code.steps, ∃ a, step = .assertion a ∧ a.IsResolved) ∧
      filled.IsResolved := by
  have hlinkable := linkable_of_expand hread.wellFormed.symbols hexpand
  obtain ⟨placed, steps, empty, filled, hplace, hempty, hfilled, rfl, hentries⟩ :=
    eq_of_link hlinkable hlink
  refine ⟨placed, empty, filled, hplace, hentries, hempty, rfl, hfilled, rfl, ?_,
    hfilled.isResolved⟩
  intro name code locals hmem hkind
  obtain ⟨entry, -, hresolves⟩ := exists_of_forall₂_of_mem hentries hmem
  exact hresolves.isResolved hkind

/-- The sample text is read, expanded and linked, so its symbols are resolved. -/
theorem Program.link_resolves_sampleText : ∃ program n expanded layout linked,
    program.ReadFrom sampleText ∧ Program.expand.Yields program n expanded ∧
      Program.link.Yields expanded layout linked ∧
      ∃ placed, Program.place.Yields expanded layout placed ∧
        List.Forall₂ (EntryResolves placed.symbols) placed.symbols.entries
          linked.symbols.entries := by
  obtain ⟨image, hcompile, -⟩ := exists_image_sampleText
  obtain ⟨c, -⟩ := compile_eq_ok_iff.1 hcompile
  obtain ⟨placed, -, -, hplace, hentries, -⟩ :=
    Program.link_resolves c.readFrom c.expands c.links
  exact ⟨c.program, c.count, c.expanded, c.layout, c.linked, c.readFrom, c.expands, c.links,
    placed, hplace, hentries⟩

end ControlStore
