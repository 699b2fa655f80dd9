import Mathlib.Algebra.GroupWithZero.Nat
import ControlStore.Layout.Placement
import ControlStore.Proofs.Program
import ControlStore.Proofs.Symbol.Path
import ControlStore.Proofs.Symbol.Tree

/-!
# Addresses of sequences

Where placement puts the sequences of a program. The symbols have to be `SymbolTree.Linkable`:
global names have no dots and are bound once, and sequences are global only. Then placing a
sequence changes the one entry of its name, and all of them together are a map over the entries
(`placeFrom_eq`): the address of a sequence is the number of words of those before it in the
layout (`SymbolTree.addressIn`).

`Program.eq_of_place` says what placement leaves, and the layout holds every sequence once
(`SymbolTree.nodup_layout`, `SymbolTree.mem_layout_iff`).
-/

namespace ControlStore

/-- The number of words that a symbol takes up, if it is placed. -/
def Symbol.wordCount : Symbol → Nat
  | sequence code _ => code.steps.length
  | _ => 0

/-! ## Maps over global symbols -/

namespace SymbolTree

/-- Changes every symbol that is bound directly in the tree. -/
def mapEntries (f : String → Symbol → Symbol) (symbols : SymbolTree) : SymbolTree :=
  { symbols with entries := symbols.entries.map fun entry => (entry.1, f entry.1 entry.2) }

variable {symbols : SymbolTree} {f g : String → Symbol → Symbol} {name : String}

@[simp]
theorem names_mapEntries : (symbols.mapEntries f).names = symbols.names := by
  simp [names, mapEntries, Function.comp_def]

theorem local?_mapEntries :
    (symbols.mapEntries f).local? name = (symbols.local? name).map (f name) := by
  rw [local?, local?, mapEntries]
  exact lookup_map_of_fst (f := fun entry => (entry.1, f entry.1 entry.2)) (fun _ => rfl) _ name

/-- The entries are the changed ones. -/
theorem mem_mapEntries_iff {s : Symbol} :
    (name, s) ∈ (symbols.mapEntries f).entries ↔
      ∃ old, (name, old) ∈ symbols.entries ∧ f name old = s := by
  constructor
  · intro h
    obtain ⟨⟨name', old⟩, hold, heq⟩ := List.mem_map.1 h
    cases heq
    exact ⟨old, hold, rfl⟩
  · rintro ⟨old, hold, rfl⟩
    exact List.mem_map.2 ⟨(name, old), hold, rfl⟩

/-- Two changes one after the other are one change. -/
theorem mapEntries_mapEntries :
    (symbols.mapEntries f).mapEntries g = symbols.mapEntries fun name s => g name (f name s) := by
  simp [mapEntries, Function.comp_def]

theorem mapEntries_congr
    (h : ∀ entry ∈ symbols.entries, f entry.1 entry.2 = g entry.1 entry.2) :
    symbols.mapEntries f = symbols.mapEntries g :=
  ext' rfl (List.map_congr_left fun entry hentry => by rw [h entry hentry])

/-- Changing the symbol of a name without dots changes just the entry of the name. -/
theorem adjust_eq_mapEntries (hnodup : symbols.names.Nodup) (hdotless : Dotless name)
    (change : Symbol → Symbol) :
    symbols.adjust (.ofName name) change =
      symbols.mapEntries fun other s => if other = name then change s else s := by
  rw [Path.ofName_of_dotless hdotless, adjust, adjustEntry_eq_map change hnodup]
  refine ext' rfl (List.map_congr_left fun entry _ => ?_)
  dsimp only
  split <;> rfl

/-! ## Symbols that can be linked -/

/-- No sequence is bound in the tree, at any depth. -/
def Sequenceless (tree : SymbolTree) : Prop := ∀ code locals, ¬tree.Holds (.sequence code locals)

/-- Global names are different and have no dots, and no sequence is bound inside a symbol. -/
structure Linkable (symbols : SymbolTree) : Prop where
  nodup : symbols.names.Nodup
  dotless : ∀ name ∈ symbols.names, Dotless name
  inner : ∀ entry ∈ symbols.entries, ∀ tree, entry.2.tree? = some tree → tree.Sequenceless

namespace Linkable

/-- A global name is no path, so it is found among the entries. -/
theorem find?_eq_local? (h : symbols.Linkable) (hname : name ∈ symbols.names) :
    symbols.find? name = symbols.local? name := by
  rw [find?, Path.ofName_of_dotless (h.dotless name hname), get?]

/-- A dotted name finds exactly the global sequences. -/
theorem find?_eq_sequence_iff (h : symbols.Linkable) {code : Code} {locals : SymbolTree} :
    symbols.find? name = some (.sequence code locals) ↔
      (name, .sequence code locals) ∈ symbols.entries := by
  constructor
  · intro hfind
    rcases mem_or_get?_of_find? hfind with hmem | ⟨entry, hentry, inner, path, -, htree, hget⟩
    · exact hmem
    · exact absurd (holds_of_get? hget) (h.inner entry hentry inner htree code locals)
  · intro hmem
    rw [h.find?_eq_local? (List.mem_map_of_mem hmem), local?, lookup_eq_some_iff h.nodup]
    exact hmem

/-- Changes that keep sequences out of inner trees keep symbols linkable. -/
theorem mapEntries (h : symbols.Linkable)
    (hinner : ∀ entry ∈ symbols.entries, ∀ tree, (f entry.1 entry.2).tree? = some tree →
      tree.Sequenceless) : (symbols.mapEntries f).Linkable := by
  refine ⟨?_, ?_, ?_⟩
  · rw [names_mapEntries]
    exact h.nodup
  · rw [names_mapEntries]
    exact h.dotless
  · intro entry hentry tree htree
    obtain ⟨old, hold, rfl⟩ := List.mem_map.1 hentry
    exact hinner old hold tree htree

end Linkable

/-- Moving labels brings no sequence into a tree. -/
theorem Sequenceless.mapLabels {tree : SymbolTree} (h : tree.Sequenceless) (move : Label → Label) :
    (tree.mapLabels move).Sequenceless := by
  intro code locals hholds
  obtain ⟨old, hold, heq⟩ := exists_of_holds_mapLabels hholds
  cases old with
  | constant value => simp [Symbol.mapLabels] at heq
  | label l => simp [Symbol.mapLabels] at heq
  | scope locals => simp [Symbol.mapLabels] at heq
  | sequence code' locals' => exact h code' locals' hold

/-! ## Words and addresses -/

/-- The number of words that the symbol with the given name takes up. -/
def wordCount (symbols : SymbolTree) (name : String) : Nat :=
  ((symbols.local? name).map Symbol.wordCount).getD 0

/-- The number of words of the sequences before a name in a layout. -/
def addressIn (symbols : SymbolTree) (layout : List String) (name : String) : Nat :=
  ((layout.takeWhile (· ≠ name)).map symbols.wordCount).sum

/-- The words of a name are those of its entry. -/
theorem wordCount_of_mem {s : Symbol} (hnodup : symbols.names.Nodup)
    (h : (name, s) ∈ symbols.entries) : symbols.wordCount name = s.wordCount := by
  have hlocal : symbols.local? name = some s := (lookup_eq_some_iff hnodup).2 h
  rw [wordCount, hlocal]
  rfl

/-- A change that keeps the steps of every symbol keeps all word counts. -/
theorem wordCount_mapEntries (h : ∀ name s, (f name s).wordCount = s.wordCount) :
    (symbols.mapEntries f).wordCount = symbols.wordCount := by
  funext name
  rw [wordCount, wordCount, local?_mapEntries, Option.map_map]
  have hsame : Symbol.wordCount ∘ f name = Symbol.wordCount := funext (h name)
  rw [hsame]

/-- The first sequence starts where the layout does. -/
theorem addressIn_cons_self (layout : List String) :
    symbols.addressIn (name :: layout) name = 0 := by
  simp [addressIn]

/-- A later sequence starts behind the words of the first one. -/
theorem addressIn_cons_of_ne {first : String} (h : first ≠ name) (layout : List String) :
    symbols.addressIn (first :: layout) name =
      symbols.wordCount first + symbols.addressIn layout name := by
  simp [addressIn, h]

end SymbolTree

/-! ## Placing one sequence after the other -/

theorem Symbol.wordCount_placeAt (address : Nat) (symbol : Symbol) :
    (symbol.placeAt address).wordCount = symbol.wordCount := by
  cases symbol <;> rfl

theorem Symbol.isPlaced_placeAt (address : Nat) (symbol : Symbol) :
    (symbol.placeAt address).isPlaced = symbol.isPlaced := by
  cases symbol <;> rfl

/-- Placing a symbol adds no sequence to its names. -/
theorem Symbol.sequenceless_placeAt {symbol : Symbol} {address : Nat}
    (h : ∀ tree, symbol.tree? = some tree → tree.Sequenceless) {tree : SymbolTree}
    (htree : (symbol.placeAt address).tree? = some tree) : tree.Sequenceless := by
  cases symbol with
  | constant value => cases htree
  | label l => cases htree
  | scope locals => exact h tree htree
  | sequence code locals =>
    cases htree
    exact (h locals rfl).mapLabels _

/-- Placing one sequence leaves the symbols fit for linking. -/
theorem SymbolTree.Linkable.placeAt {symbols : SymbolTree} (h : symbols.Linkable) (name : String)
    (address : Nat) :
    (symbols.mapEntries fun other s => if other = name then s.placeAt address else s).Linkable := by
  refine h.mapEntries fun entry hentry tree htree => ?_
  split at htree
  · exact Symbol.sequenceless_placeAt (h.inner entry hentry) htree
  · exact h.inner entry hentry tree htree

/-- A sequence without references gets its address, and the others follow behind its words. -/
theorem yields_placeFrom_cons_iff {symbols final : SymbolTree} {name : String}
    {names : List String} {code : Code} {locals : SymbolTree}
    (hfind : symbols.find? name = some (.sequence code locals)) {address needed : Nat} :
    (placeFrom address (name :: names)).Yields symbols needed final ↔
      code.firstReference? = none ∧
        (placeFrom (address + code.steps.length) names).Yields
          (symbols.adjust (.ofName name) (Symbol.placeAt address)) needed final := by
  constructor
  · intro h
    obtain ⟨_, middle, hget, h⟩ := Stage.yields_bind.1 h
    obtain ⟨rfl, rfl⟩ := Stage.yields_get.1 hget
    rw [hfind] at h
    dsimp only at h
    split at h
    · exact absurd h Stage.yields_fail
    · next hfirst =>
      obtain ⟨_, placed, hmodify, h⟩ := Stage.yields_bind.1 h
      obtain ⟨_, noted, hnote, h⟩ := Stage.yields_bind.1 h
      rw [← Stage.yields_note.1 hnote, ← Stage.yields_modify.1 hmodify] at h
      exact ⟨hfirst, h⟩
  · rintro ⟨hfirst, h⟩
    refine Stage.yields_bind.2 ⟨_, _, Stage.yields_get.2 ⟨rfl, rfl⟩, ?_⟩
    simp only [hfind, hfirst]
    refine Stage.yields_bind.2 ⟨⟨⟩, _, Stage.yields_modify.2 rfl, ?_⟩
    exact Stage.yields_bind.2 ⟨⟨⟩, _, Stage.yields_note.2 rfl, h⟩

/-- A name that finds no sequence is passed over. -/
theorem yields_placeFrom_cons_of_not_sequence {symbols final : SymbolTree} {name : String}
    {names : List String} (hfind : ∀ code locals, symbols.find? name ≠ some (.sequence code locals))
    {address needed : Nat} : (placeFrom address (name :: names)).Yields symbols needed final ↔
      (placeFrom address names).Yields symbols needed final := by
  rw [placeFrom, Stage.yields_bind]
  constructor
  · rintro ⟨_, _, hget, h⟩
    obtain ⟨rfl, rfl⟩ := Stage.yields_get.1 hget
    split at h
    · next hsequence => exact absurd hsequence (hfind _ _)
    · exact h
  · intro h
    refine ⟨_, _, Stage.yields_get.2 ⟨rfl, rfl⟩, ?_⟩
    split
    · next hsequence => exact absurd hsequence (hfind _ _)
    · exact h

/-- A sequence is placed and the others follow behind its words. -/
theorem yields_placeFrom_cons {symbols final : SymbolTree} (hlink : symbols.Linkable)
    {name : String} {names : List String} {code : Code} {locals : SymbolTree}
    (hmem : (name, .sequence code locals) ∈ symbols.entries) {address needed : Nat}
    (h : (placeFrom address (name :: names)).Yields symbols needed final) :
    (placeFrom (address + code.steps.length) names).Yields
      (symbols.mapEntries fun other s => if other = name then s.placeAt address else s) needed
      final := by
  rw [← SymbolTree.adjust_eq_mapEntries hlink.nodup
    (hlink.dotless name (List.mem_map_of_mem hmem))]
  exact ((yields_placeFrom_cons_iff (hlink.find?_eq_sequence_iff.2 hmem)).1 h).2

/-- Sequences are placed behind each other in the order of their names. -/
theorem placeFrom_eq {names : List String} {symbols final : SymbolTree} {address needed : Nat}
    (hlink : symbols.Linkable) (hnodup : names.Nodup)
    (hnames : ∀ name ∈ names, ∃ code locals, (name, .sequence code locals) ∈ symbols.entries)
    (h : (placeFrom address names).Yields symbols needed final) :
    needed = address + (names.map symbols.wordCount).sum ∧
      final = symbols.mapEntries fun name s =>
        if name ∈ names then s.placeAt (address + symbols.addressIn names name) else s := by
  induction names generalizing symbols address with
  | nil =>
    obtain ⟨rfl, rfl⟩ := Stage.yields_pure.1 h
    exact ⟨rfl, SymbolTree.ext' rfl (by simp [SymbolTree.mapEntries])⟩
  | cons name names ih =>
    rw [List.nodup_cons] at hnodup
    obtain ⟨code, locals, hmem⟩ := hnames name (List.mem_cons_self ..)
    have hrest := yields_placeFrom_cons hlink hmem h
    -- the words are the same before and after the sequence has its address
    have hwords : (symbols.mapEntries fun other s =>
        if other = name then s.placeAt address else s).wordCount = symbols.wordCount := by
      refine SymbolTree.wordCount_mapEntries fun other s => ?_
      split
      · exact s.wordCount_placeAt address
      · rfl
    -- the address of a later sequence counts from the end of this one
    have hcount : symbols.wordCount name = code.steps.length :=
      SymbolTree.wordCount_of_mem hlink.nodup hmem
    have hlater : ∀ later ∈ names, ∃ code locals, (later, Symbol.sequence code locals) ∈
        (symbols.mapEntries fun other s =>
          if other = name then s.placeAt address else s).entries := by
      intro later hmem'
      obtain ⟨code', locals', hlater⟩ := hnames later (List.mem_cons_of_mem _ hmem')
      have hne : later ≠ name := fun heq => hnodup.1 (heq ▸ hmem')
      exact ⟨code', locals', SymbolTree.mem_mapEntries_iff.2 ⟨_, hlater, if_neg hne⟩⟩
    obtain ⟨hneeded, hfinal⟩ := ih (hlink.placeAt name address) hnodup.2 hlater hrest
    rw [hwords] at hneeded
    refine ⟨by rw [hneeded, List.map_cons, List.sum_cons, hcount]; omega, ?_⟩
    rw [hfinal, SymbolTree.mapEntries_mapEntries]
    refine SymbolTree.mapEntries_congr fun entry _ => ?_
    have haddress : ∀ other, (symbols.mapEntries fun other s =>
        if other = name then s.placeAt address else s).addressIn names other =
          symbols.addressIn names other := by
      intro other
      rw [SymbolTree.addressIn, hwords, SymbolTree.addressIn]
    -- the sequence itself has its address now, the others are as the later ones leave them
    by_cases hname : entry.1 = name
    · simp only [hname, hnodup.1, if_true, if_false, List.mem_cons, true_or,
        SymbolTree.addressIn_cons_self, Nat.add_zero]
    · simp only [hname, if_false, List.mem_cons, false_or, haddress,
        SymbolTree.addressIn_cons_of_ne (Ne.symm hname), hcount, Nat.add_assoc]

/-! ## The layout -/

namespace SymbolTree

variable {symbols : SymbolTree} {fetch : String}

/-- The symbols with every sequence at its address in a layout. -/
def placeIn (layout : List String) (symbols : SymbolTree) : SymbolTree :=
  symbols.mapEntries fun name s =>
    if s.isPlaced then s.placeAt (symbols.addressIn layout name) else s

/-- Placing all sequences leaves the symbols fit for linking. -/
theorem Linkable.placeIn (h : symbols.Linkable) (layout : List String) :
    (symbols.placeIn layout).Linkable := by
  refine h.mapEntries fun entry hentry tree htree => ?_
  split at htree
  · exact Symbol.sequenceless_placeAt (h.inner entry hentry) htree
  · exact h.inner entry hentry tree htree

/-- The layout holds no name twice. -/
theorem nodup_layout (hnodup : symbols.names.Nodup) : (symbols.layout fetch).Nodup := by
  rw [layout, List.nodup_cons]
  refine ⟨?_, ?_⟩
  · intro hmem
    obtain ⟨entry, hentry, hname⟩ := List.mem_map.1 hmem
    have hkind := (List.mem_filter.1 hentry).2
    simp [hname] at hkind
  · exact hnodup.sublist (List.filter_sublist.map _)

/-- The layout holds the names of exactly the sequences, the fetch sequence among them. -/
theorem mem_layout_iff {s : Symbol} (hfetch : (fetch, s) ∈ symbols.entries)
    (hkind : s.isPlaced = true) {name : String} :
    name ∈ symbols.layout fetch ↔ ∃ s, (name, s) ∈ symbols.entries ∧ s.isPlaced = true := by
  rw [layout, List.mem_cons]
  constructor
  · rintro (rfl | hmem)
    · exact ⟨s, hfetch, hkind⟩
    · obtain ⟨⟨name, s'⟩, hentry, rfl⟩ := List.mem_map.1 hmem
      obtain ⟨hmem, hkind'⟩ := List.mem_filter.1 hentry
      exact ⟨s', hmem, (Bool.and_eq_true_iff.1 hkind').2⟩
  · rintro ⟨s', hmem, hkind'⟩
    by_cases hname : name = fetch
    · exact .inl hname
    · refine .inr (List.mem_map.2 ⟨(name, s'), List.mem_filter.2 ⟨hmem, ?_⟩, rfl⟩)
      simp [hname, hkind']

/-- An entry is listed in the layout exactly if it is a sequence. -/
theorem mem_layout_iff_isPlaced (hnodup : symbols.names.Nodup) {s : Symbol}
    (hfetch : (fetch, s) ∈ symbols.entries) (hkind : s.isPlaced = true) {entry : String × Symbol}
    (hentry : entry ∈ symbols.entries) :
    entry.1 ∈ symbols.layout fetch ↔ entry.2.isPlaced = true := by
  rw [mem_layout_iff hfetch hkind]
  constructor
  · rintro ⟨s', hmem, hkind'⟩
    cases entry_unique hnodup hentry hmem
    exact hkind'
  · intro hkind'
    exact ⟨entry.2, hentry, hkind'⟩

/-- The layout is the list of the sequences with the fetch sequence moved to the front. -/
theorem layout_perm (hnodup : symbols.names.Nodup) {s : Symbol}
    (hfetch : (fetch, s) ∈ symbols.entries) (hkind : s.isPlaced = true) :
    (symbols.layout fetch).Perm
      ((symbols.entries.filter fun entry => entry.2.isPlaced).map Prod.fst) := by
  refine (List.perm_ext_iff_of_nodup (nodup_layout hnodup)
    (hnodup.sublist (List.filter_sublist.map _))).2 fun name => ?_
  rw [mem_layout_iff hfetch hkind]
  simp

/-- The number of words that all sequences take up. -/
def totalWords (symbols : SymbolTree) : Nat :=
  ((symbols.entries.filter fun entry => entry.2.isPlaced).map fun entry => entry.2.wordCount).sum

/-- The words of a layout are those of all sequences. -/
theorem sum_wordCount_layout (hnodup : symbols.names.Nodup) {s : Symbol}
    (hfetch : (fetch, s) ∈ symbols.entries) (hkind : s.isPlaced = true) :
    ((symbols.layout fetch).map symbols.wordCount).sum = symbols.totalWords := by
  rw [((layout_perm hnodup hfetch hkind).map symbols.wordCount).sum_nat, List.map_map, totalWords]
  refine congrArg List.sum (List.map_congr_left fun entry hentry => ?_)
  exact wordCount_of_mem hnodup (List.mem_filter.1 hentry).1

end SymbolTree

namespace Program

/-- The checked fetch entrypoint names a sequence. -/
theorem mem_of_checkedFetch {program : Program} (hlink : program.symbols.Linkable) {fetch : String}
    (h : program.checkedFetch = .ok fetch) :
    program.fetch = some fetch ∧
      ∃ s, (fetch, s) ∈ program.symbols.entries ∧ s.isPlaced = true := by
  unfold checkedFetch at h
  split at h
  · cases h
  · next name hname =>
    obtain ⟨_, hcheck, h⟩ := bind_eq_ok_iff.1 h
    obtain ⟨_, -, h⟩ := bind_eq_ok_iff.1 h
    cases h
    refine ⟨hname, ?_⟩
    unfold SymbolTree.checkEntrypoint at hcheck
    split at hcheck
    · next code locals hfind =>
      split at hcheck
      · cases hcheck
      · next hkind =>
        refine ⟨_, hlink.find?_eq_sequence_iff.1 hfind, ?_⟩
        simpa [Symbol.isPlaced] using hkind
    · cases hcheck

/-- A program is placed if its fetch sequence is accepted, its sequences are placed and their words
fit. -/
theorem yields_place_iff_placeFrom {program placed : Program} {layout : List String} :
    place.Yields program layout placed ↔ ∃ fetch needed symbols,
      program.checkedFetch = .ok fetch ∧ layout = program.symbols.layout fetch ∧
        (placeFrom 0 layout).Yields program.symbols needed symbols ∧ needed ≤ program.length ∧
        placed = { program with symbols } := by
  constructor
  · intro h
    obtain ⟨_, _, hget, h⟩ := Stage.yields_bind.1 h
    obtain ⟨rfl, rfl⟩ := Stage.yields_get.1 hget
    obtain ⟨fetch, _, hlift, h⟩ := Stage.yields_bind.1 h
    obtain ⟨hfetch, rfl⟩ := Stage.yields_liftM.1 hlift
    obtain ⟨needed, _, hplace, h⟩ := Stage.yields_bind.1 h
    obtain ⟨symbols, hsymbols, rfl⟩ := yields_onSymbols.1 hplace
    split at h
    · obtain ⟨_, _, hfail, -⟩ := Stage.yields_bind.1 h
      exact absurd hfail Stage.yields_fail
    · next hfits =>
      obtain ⟨rfl, rfl⟩ := Stage.yields_pure.1 h
      exact ⟨fetch, needed, symbols, hfetch, rfl, hsymbols, Nat.le_of_not_lt hfits, rfl⟩
  · rintro ⟨fetch, needed, symbols, hfetch, rfl, hsymbols, hfits, rfl⟩
    refine Stage.yields_bind.2 ⟨_, _, Stage.yields_get.2 ⟨rfl, rfl⟩, ?_⟩
    refine Stage.yields_bind.2 ⟨_, _, Stage.yields_liftM.2 ⟨hfetch, rfl⟩, ?_⟩
    refine Stage.yields_bind.2 ⟨_, _, yields_onSymbols.2 ⟨_, hsymbols, rfl⟩, ?_⟩
    rw [if_neg (Nat.not_lt.2 hfits)]
    exact Stage.yields_pure.2 ⟨rfl, rfl⟩

/-- What placement leaves: every sequence is at its address in the layout, nothing else is changed,
and all words fit into the store. -/
theorem eq_of_place {program placed : Program} {layout : List String}
    (hlink : program.symbols.Linkable) (h : place.Yields program layout placed) :
    ∃ fetch s, program.fetch = some fetch ∧ (fetch, s) ∈ program.symbols.entries ∧
      s.isPlaced = true ∧ layout = program.symbols.layout fetch ∧
      placed = { program with symbols := program.symbols.placeIn layout } ∧
      (layout.map program.symbols.wordCount).sum ≤ program.length := by
  obtain ⟨fetch, needed, symbols, hfetch, rfl, hsymbols, hfits, rfl⟩ :=
    yields_place_iff_placeFrom.1 h
  obtain ⟨hname, s, hmem, hkind⟩ := mem_of_checkedFetch hlink hfetch
  -- a placed symbol is a sequence, as the other kinds are not placed
  have hlayout : ∀ name ∈ program.symbols.layout fetch,
      ∃ code locals, (name, Symbol.sequence code locals) ∈ program.symbols.entries := by
    intro name hlisted
    obtain ⟨s', hmem', hkind'⟩ := (SymbolTree.mem_layout_iff hmem hkind).1 hlisted
    cases s' with
    | sequence code locals => exact ⟨code, locals, hmem'⟩
    | constant value => cases hkind'
    | label l => cases hkind'
    | scope locals => cases hkind'
  obtain ⟨rfl, rfl⟩ :=
    placeFrom_eq hlink (SymbolTree.nodup_layout hlink.nodup) hlayout hsymbols
  refine ⟨fetch, s, hname, hmem, hkind, rfl, ?_, by omega⟩
  congr 1
  refine SymbolTree.mapEntries_congr fun entry hentry => ?_
  simp only [SymbolTree.mem_layout_iff_isPlaced hlink.nodup hmem hkind hentry, Nat.zero_add]

end Program

end ControlStore
