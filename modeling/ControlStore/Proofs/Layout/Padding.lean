import ControlStore.Proofs.Layout.Progress
import ControlStore.Proofs.Symbol.Within

/-!
# Linking among more symbols

Linking reads the settings of a program, the order of its sequences, and what names stand for. So a
linked program is linked in the same way if more names are bound in it, as long as the settings and
the order of the sequences stay (`Program.Within.link`). Names that were found stand for the same
symbols then, and all names in assertions were found.
-/

namespace ControlStore

namespace SymbolTree.Within

variable {symbols others : SymbolTree}

/-- The larger symbols have every entry of the smaller ones. -/
theorem mem (h : symbols.Within others) (hnodup : symbols.names.Nodup) {entry : String × Symbol}
    (hentry : entry ∈ symbols.entries) : entry ∈ others.entries :=
  mem_of_lookup_eq_some (h entry.1 entry.2 ((lookup_eq_some_iff hnodup).2 hentry))

/-- Changing the symbols of both trees by their names keeps one within the other. -/
theorem mapEntries (h : symbols.Within others) (f : String → Symbol → Symbol) :
    (symbols.mapEntries f).Within (others.mapEntries f) :=
  h.map (f := fun entry => (entry.1, f entry.1 entry.2)) fun _ => rfl

/-- A symbol has the same number of words in the larger symbols. -/
theorem wordCount_eq (h : symbols.Within others) {name : String} {s : Symbol}
    (hs : symbols.local? name = some s) : others.wordCount name = symbols.wordCount name := by
  rw [wordCount, wordCount, h name s hs, hs]

/-- A tree stays within another when the sequences of both are placed. -/
theorem placeIn (h : symbols.Within others) {layout : List String}
    (hwords : ∀ name ∈ layout, others.wordCount name = symbols.wordCount name) :
    (symbols.placeIn layout).Within (others.placeIn layout) := by
  have haddress : others.addressIn layout = symbols.addressIn layout := by
    funext name
    rw [addressIn, addressIn]
    refine congrArg List.sum (List.map_congr_left fun other hother => ?_)
    exact hwords other ((List.takeWhile_prefix _).subset hother)
  rw [SymbolTree.placeIn, SymbolTree.placeIn, haddress]
  exact h.mapEntries _

/-- A sequence may be entered in the larger symbols too. -/
theorem checkEntrypoint (h : symbols.Within others) {name : String}
    (hcheck : symbols.checkEntrypoint name = .ok ()) : others.checkEntrypoint name = .ok () := by
  unfold SymbolTree.checkEntrypoint at hcheck ⊢
  split at hcheck
  · next hfind =>
    rw [h.find? hfind]
    exact hcheck
  · cases hcheck

/-- What a name in a sequence stands for, it stands for among more global names. -/
theorem lookupIn (h : symbols.Within others) (locals : SymbolTree) :
    (lookupIn locals symbols).Within (lookupIn locals others) := by
  intro name found hfound
  refine ⟨found, ?_, rfl⟩
  rw [ControlStore.lookupIn, Option.or_eq_some_iff] at hfound ⊢
  exact hfound.imp_right fun hglobal => ⟨hglobal.1, h.find? hglobal.2⟩

end SymbolTree.Within

namespace Program

/-- The programs are configured alike, with the same opcodes and the same assertion for unused
addresses. -/
structure SameSettings (program other : Program) : Prop where
  wordWidth : other.wordWidth = program.wordWidth
  opcodeWidth : other.opcodeWidth = program.opcodeWidth
  length : other.length = program.length
  bankMask : other.bankMask = program.bankMask
  entrypoints : ∀ opcode : Nat, other.entrypoints[opcode]? = program.entrypoints[opcode]?
  fetch : other.fetch = program.fetch
  interrupt : other.interrupt = program.interrupt
  emptyAssertion : other.emptyAssertion = program.emptyAssertion

/-- The second program has the settings of the first, and all its names stand for the same there. -/
structure Within (program other : Program) : Prop extends program.SameSettings other where
  symbols : program.symbols.Within other.symbols

namespace Within

variable {program other : Program}

/-! ## Placement -/

/-- The larger program has the same fetch sequence. -/
theorem checkedFetch (h : program.Within other) {fetch : String}
    (hchecked : program.checkedFetch = .ok fetch) : other.checkedFetch = .ok fetch := by
  unfold Program.checkedFetch at hchecked ⊢
  rw [h.fetch, h.interrupt]
  split at hchecked
  · cases hchecked
  · obtain ⟨_, hfetch, hchecked⟩ := bind_eq_ok_iff.1 hchecked
    refine bind_eq_ok_iff.2 ⟨(), h.symbols.checkEntrypoint hfetch, ?_⟩
    obtain ⟨_, hinterrupt, hchecked⟩ := bind_eq_ok_iff.1 hchecked
    refine bind_eq_ok_iff.2 ⟨(), ?_, hchecked⟩
    cases hname : program.interrupt with
    | none => rfl
    | some name =>
      rw [hname] at hinterrupt
      exact h.symbols.checkEntrypoint hinterrupt

/-- Sequences are placed alike among more symbols. -/
theorem place (h : program.Within other) (hlink : program.symbols.Linkable)
    (hdone : program.symbols.IsExpanded) (hlink' : other.symbols.Linkable)
    (hdone' : other.symbols.IsExpanded)
    (horder : ∀ fetch, program.fetch = some fetch →
      other.symbols.layout fetch = program.symbols.layout fetch)
    {layout : List String} {placed : Program} (hplace : place.Yields program layout placed) :
    ∃ placed', Program.place.Yields other layout placed' ∧ placed.Within placed' := by
  obtain ⟨fetch, hchecked, rfl, hfits, rfl⟩ := (yields_place_iff hlink hdone).1 hplace
  obtain ⟨hfetch, s, hmem, hkind⟩ := mem_of_checkedFetch hlink hchecked
  -- the layout lists sequences of the smaller program, which have the same words in the larger one
  have hwords : ∀ name ∈ program.symbols.layout fetch,
      other.symbols.wordCount name = program.symbols.wordCount name := by
    intro name hname
    obtain ⟨code, locals, hsequence, -⟩ := SymbolTree.lists_layout hmem hkind name hname
    exact h.symbols.wordCount_eq ((lookup_eq_some_iff hlink.nodup).2 hsequence)
  refine ⟨_, (yields_place_iff hlink' hdone').2
    ⟨fetch, h.checkedFetch hchecked, (horder fetch hfetch).symm, ?_, rfl⟩, ?_⟩
  · rw [List.map_congr_left hwords, h.length]
    exact hfits
  · exact ⟨⟨h.wordWidth, h.opcodeWidth, h.length, h.bankMask, h.entrypoints, h.fetch, h.interrupt,
      h.emptyAssertion⟩, h.symbols.placeIn hwords⟩

/-! ## Resolution -/

/-- Symbols are resolved alike among more symbols. -/
theorem resolve (h : program.Within other) (hlink : program.symbols.Linkable)
    (hlink' : other.symbols.Linkable) {layout : List String} (hnodup : layout.Nodup)
    (hlayout : ∀ name ∈ layout, ∃ code locals,
      (name, .sequence code locals) ∈ program.symbols.entries)
    {linked : Program} (hresolve : (resolve layout).Yields program () linked) :
    ∃ linked', (Program.resolve layout).Yields other () linked' ∧ linked.Within linked' := by
  obtain ⟨steps, empty, filled, hempty, hfilled, rfl, hsteps⟩ :=
    (yields_resolve_iff hlink hnodup hlayout).1 hresolve
  have hlayout' : ∀ name ∈ layout, ∃ code locals,
      (name, Symbol.sequence code locals) ∈ other.symbols.entries := by
    intro name hname
    obtain ⟨code, locals, hmem⟩ := hlayout name hname
    exact ⟨code, locals, h.symbols.mem hlink.nodup hmem⟩
  refine ⟨_, (yields_resolve_iff hlink' hnodup hlayout').2
    ⟨steps, empty, filled, h.emptyAssertion.trans hempty, ?_, rfl, ?_⟩, ?_⟩
  · exact hfilled.mono fun name found hfound => ⟨found, h.symbols.find? hfound, rfl⟩
  · intro name hname code locals hmem
    -- the sequence of this name is that of the smaller program
    obtain ⟨code', locals', hmem'⟩ := hlayout name hname
    cases entry_unique hlink'.nodup hmem (h.symbols.mem hlink.nodup hmem')
    exact (hsteps name hname code locals hmem').imp fun step resolved hstep =>
      hstep.mono (h.symbols.lookupIn locals)
  · exact ⟨⟨h.wordWidth, h.opcodeWidth, h.length, h.bankMask, h.entrypoints, h.fetch, h.interrupt,
      rfl⟩, h.symbols.mapEntries _⟩

/-- A program is linked alike among more symbols. -/
theorem link (h : program.Within other) (hlink : program.symbols.Linkable)
    (hdone : program.symbols.IsExpanded) (hlink' : other.symbols.Linkable)
    (hdone' : other.symbols.IsExpanded)
    (horder : ∀ fetch, program.fetch = some fetch →
      other.symbols.layout fetch = program.symbols.layout fetch)
    {layout : List String} {linked : Program} (hlinked : link.Yields program layout linked) :
    ∃ linked', Program.link.Yields other layout linked' ∧ linked.Within linked' := by
  obtain ⟨layout, placed, hplace, hlinked⟩ := Stage.yields_bind.1 hlinked
  obtain ⟨_, resolved, hresolve, hlinked⟩ := Stage.yields_bind.1 hlinked
  obtain ⟨rfl, rfl⟩ := Stage.yields_pure.1 hlinked
  obtain ⟨placed', hplace', hplaced⟩ := h.place hlink hdone hlink' hdone' horder hplace
  obtain ⟨hlinkable, hnodup, -, hlayout⟩ := mem_layout_of_place hlink hplace
  obtain ⟨hlinkable', -⟩ := mem_layout_of_place hlink' hplace'
  obtain ⟨linked', hresolve', hwithin⟩ :=
    hplaced.resolve hlinkable hlinkable' hnodup hlayout hresolve
  refine ⟨linked', Stage.yields_bind.2 ⟨_, _, hplace', ?_⟩, hwithin⟩
  exact Stage.yields_bind.2 ⟨(), _, hresolve', Stage.yields_pure.2 ⟨rfl, rfl⟩⟩

end Within

end Program

end ControlStore
