import ControlStore.Proofs.Image.Entries
import ControlStore.Proofs.Image.Padding
import ControlStore.Proofs.Symbol.Equality

/-!
# Where definitions stand

Sequences are placed in the order of their definition, the fetch sequence aside. For all other
definitions the order has no influence: macros, constants and the fetch sequence may stand anywhere
in a text (`Program.builds_iff_of_rearranges`), and a constant or a macro that nothing uses may join
them (`Program.builds_withDefinition`). Both are cases of `Program.Builds.padded`.
-/

namespace ControlStore

namespace Program

/-! ## Definitions in another order -/

/-- The names of the sequences other than the fetch sequence, in the order of their definition. -/
def sequenceOrder (program : Program) : List String :=
  (program.symbols.entries.filter fun (name, symbol) =>
    some name ≠ program.fetch && symbol.isPlaced).map Prod.fst

/-- The fetch sequence comes first, then the others in the order of the program. -/
theorem layout_eq_cons {program : Program} {fetch : String} (hfetch : program.fetch = some fetch) :
    program.symbols.layout fetch = fetch :: program.sequenceOrder := by
  simp only [SymbolTree.layout, sequenceOrder, hfetch, ne_eq, Option.some.injEq]

/-- The second program binds the same global names to the same symbols under the same settings.
Sequences other than the fetch sequence are in the same order, and everything else may be in another
one. The control lines need not be compared, as signals carry theirs. -/
structure Rearranges (program other : Program) : Prop extends program.SameSettings other where
  entries : ∀ entry, entry ∈ other.symbols.entries ↔ entry ∈ program.symbols.entries
  order : other.sequenceOrder = program.sequenceOrder

namespace Rearranges

variable {program other : Program}

/-- Rearranging can be undone. -/
theorem symm (h : program.Rearranges other) : other.Rearranges program :=
  ⟨h.toSameSettings.symm, fun entry => (h.entries entry).symm, h.order.symm⟩

/-- A rearranged program has the same symbols. -/
theorem paddedTo (h : program.Rearranges other) : program.symbols.PaddedTo other.symbols :=
  ⟨fun entry => (h.entries entry).2, fun entry hentry _ => (h.entries entry).1 hentry⟩

/-- A rearranged program is laid out in the same order. -/
theorem layout_eq (h : program.Rearranges other) {fetch : String}
    (hfetch : program.fetch = some fetch) :
    other.symbols.layout fetch = program.symbols.layout fetch := by
  rw [layout_eq_cons hfetch, layout_eq_cons (h.fetch.trans hfetch), h.order]

end Rearranges

/-- Where macros, constants and the fetch sequence are defined has no influence on the image, nor on
the number of expansions. -/
theorem builds_iff_of_rearranges {text text' : String} {program other : Program}
    (hread : program.ReadFrom text) (hread' : other.ReadFrom text')
    (h : program.Rearranges other) (debug : Bool) (count : Nat) (image : Image) :
    program.Builds debug count image ↔ other.Builds debug count image := by
  have hsymbols := hread.wellFormed.symbols
  have hother := hread'.wellFormed.symbols
  constructor
  · intro hbuilds
    exact hbuilds.padded hsymbols hother h.toSameSettings h.paddedTo fun fetch => h.layout_eq
  · intro hbuilds
    exact hbuilds.padded hother hsymbols h.symm.toSameSettings h.symm.paddedTo
      fun fetch => h.symm.layout_eq

/-- A text whose fetch sequence comes last, behind the macro and the constant that it uses. -/
def arrangedText : String :=
  "config { controlwordwidth 3 microprogramlength 4 opwidth 1 bankmask 0 } control c 0 1:0 " ++
  "const k 2 macro m(x) { assert { c: x } } sequence s { m(f) } sequence u { m(s) } " ++
  "sequence f { m(k) } empty { c: 1 } entrypoints { fetch: f }"

/-- The same definitions, with the fetch sequence in front, and with the macro and the constant
behind the sequences that use them. -/
def rearrangedText : String :=
  "config { controlwordwidth 3 microprogramlength 4 opwidth 1 bankmask 0 } control c 0 1:0 " ++
  "sequence f { m(k) } sequence s { m(f) } macro m(x) { assert { c: x } } sequence u { m(s) } " ++
  "const k 2 empty { c: 1 } entrypoints { fetch: f }"

/-- The words of `f`, `s` and `u` in this order, and the word for unused addresses. -/
def arrangedImage : Image := ⟨"100\n000\n010\n010\n", "00\n00\n"⟩

/-- The arranged text has its image. -/
theorem compile_arrangedText : (compile (.ok arrangedText) false).result = .ok arrangedImage := by
  decide +kernel

/-- The two texts are read into the same entries in different orders. -/
theorem rearranges_arrangedText : ((Reader.readText rearrangedText).run {}).result = .ok () ∧
    (ofText rearrangedText).symbols.names = ["f", "s", "m", "u", "k"] ∧
    (ofText arrangedText).Rearranges (ofText rearrangedText) := by
  -- all of it is computed at once, so that each text is read once
  have h : ((Reader.readText rearrangedText).run {}).result = .ok () ∧
      (ofText rearrangedText).symbols.names = ["f", "s", "m", "u", "k"] ∧
      ((ofText rearrangedText).symbols.entries.Perm (ofText arrangedText).symbols.entries ∧
        (ofText rearrangedText).sequenceOrder = (ofText arrangedText).sequenceOrder) ∧
      (ofText rearrangedText).entrypoints.toList = (ofText arrangedText).entrypoints.toList ∧
      (ofText rearrangedText).wordWidth = (ofText arrangedText).wordWidth ∧
      (ofText rearrangedText).opcodeWidth = (ofText arrangedText).opcodeWidth ∧
      (ofText rearrangedText).length = (ofText arrangedText).length ∧
      (ofText rearrangedText).bankMask = (ofText arrangedText).bankMask ∧
      (ofText rearrangedText).fetch = (ofText arrangedText).fetch ∧
      (ofText rearrangedText).interrupt = (ofText arrangedText).interrupt ∧
      (ofText rearrangedText).emptyAssertion = (ofText arrangedText).emptyAssertion := by
    decide +kernel
  obtain ⟨hread, hnames, ⟨hperm, horder⟩, hentrypoints, hword, hopcode, hlength, hbank, hfetch,
    hinterrupt, hempty⟩ := h
  refine ⟨hread, hnames, ⟨hword, hopcode, hlength, hbank, fun opcode => ?_, hfetch, hinterrupt,
    hempty⟩, fun entry => hperm.mem_iff, horder⟩
  rw [← lookup_toList, ← lookup_toList, hentrypoints]

/-- The text in the other order has the same image. -/
theorem builds_iff_of_rearranges_arrangedText : (ofText arrangedText).ReadFrom arrangedText ∧
    (ofText rearrangedText).ReadFrom rearrangedText ∧
    (ofText arrangedText).Rearranges (ofText rearrangedText) ∧
    ∃ count, (ofText arrangedText).Builds false count arrangedImage ∧
      (ofText rearrangedText).Builds false count arrangedImage := by
  obtain ⟨hread, count, hbuilds⟩ := builds_of_compile compile_arrangedText
  obtain ⟨hresult, -, hrearranges⟩ := rearranges_arrangedText
  have hread' := readFrom_ofText hresult
  have hiff := builds_iff_of_rearranges hread hread' hrearranges false count arrangedImage
  exact ⟨hread, hread', hrearranges, count, hbuilds, hiff.1 hbuilds⟩

/-! ## Unused definitions -/

/-- The program with one more global name, which is bound behind the first `i` ones. -/
def withDefinition (program : Program) (i : Nat) (name : String) (symbol : Symbol) : Program :=
  { program with symbols := { program.symbols with
      entries := program.symbols.entries.take i ++
        (name, symbol) :: program.symbols.entries.drop i } }

section Definition

variable {program : Program} {i : Nat} {name : String} {symbol : Symbol}

/-- A new definition is one more entry, wherever it is put. -/
theorem entries_withDefinition : (program.withDefinition i name symbol).symbols.entries.Perm
    ((name, symbol) :: program.symbols.entries) := by
  refine List.perm_middle.trans ?_
  rw [List.take_append_drop]

/-- A well-formed definition under a new name leaves the symbols well-formed. -/
theorem wellFormed_withDefinition (h : program.symbols.WellFormed) (hname : Dotless name)
    (hnew : name ∉ program.symbols.names) (hsymbol : symbol.WellFormed) :
    (program.withDefinition i name symbol).symbols.WellFormed := by
  have hentries : (program.withDefinition i name symbol).symbols.entries.Perm
      ((name, symbol) :: program.symbols.entries) := entries_withDefinition
  have hnames := hentries.map Prod.fst
  refine ⟨h.root, hnames.nodup_iff.2 (List.nodup_cons.2 ⟨hnew, h.nodup⟩), ?_, ?_⟩
  · intro other hother
    rcases List.mem_cons.1 (hnames.mem_iff.1 hother) with rfl | hother
    · exact hname
    · exact h.dotless other hother
  · intro entry hentry
    rcases List.mem_cons.1 (hentries.mem_iff.1 hentry) with rfl | hentry
    · exact hsymbol
    · exact h.symbol entry hentry

/-- A definition that is no sequence adds nothing to be placed. -/
theorem paddedTo_withDefinition (hkind : symbol.isPlaced = false) :
    program.symbols.PaddedTo (program.withDefinition i name symbol).symbols := by
  refine ⟨fun entry hentry => entries_withDefinition.mem_iff.2 (List.mem_cons_of_mem _ hentry), ?_⟩
  intro entry hentry hplaced
  rcases List.mem_cons.1 (entries_withDefinition.mem_iff.1 hentry) with rfl | hentry
  · rw [hkind] at hplaced
    cases hplaced
  · exact hentry

/-- A definition that is no sequence leaves the layout alone. -/
theorem layout_withDefinition (hkind : symbol.isPlaced = false) (fetch : String) :
    (program.withDefinition i name symbol).symbols.layout fetch =
      program.symbols.layout fetch := by
  have hfilter : ∀ keep : String × Symbol → Bool, keep (name, symbol) = false →
      (program.withDefinition i name symbol).symbols.entries.filter keep =
        program.symbols.entries.filter keep := by
    intro keep hkeep
    rw [withDefinition, List.filter_append, List.filter_cons_of_neg (by simp [hkeep]),
      ← List.filter_append, List.take_append_drop]
  rw [SymbolTree.layout, SymbolTree.layout, hfilter _ (by simp [hkind])]

end Definition

/-- A constant or a macro that is defined under a name of its own has no influence on the image,
whatever the macro holds and wherever it is defined. -/
theorem builds_withDefinition {text : String} {program : Program} (hread : program.ReadFrom text)
    {name : String} (hname : Dotless name) (hnew : name ∉ program.symbols.names) {symbol : Symbol}
    (hsymbol : symbol.WellFormed) (hkind : symbol.isPlaced = false) (i : Nat) {debug : Bool}
    {count : Nat} {image : Image} (h : program.Builds debug count image) :
    (program.withDefinition i name symbol).Builds debug count image := by
  have hsymbols := hread.wellFormed.symbols
  refine h.padded hsymbols (wellFormed_withDefinition hsymbols hname hnew hsymbol) ?_
    (paddedTo_withDefinition hkind) fun fetch _ => layout_withDefinition hkind fetch
  exact ⟨rfl, rfl, rfl, rfl, fun _ => rfl, rfl, rfl, rfl⟩

/-- A macro that cannot be expanded, because it refers to itself and to a name that is not
defined. -/
def idleMacro : Symbol :=
  .sequence
    { steps := [.reference { line := 1, symbol := "t" }, .reference { line := 1, symbol := "n" }]
      isMacro := true }
    ⟨"t", []⟩

/-- A macro may even be called like a label that the text uses. -/
theorem builds_withDefinition_sampleText : Dotless "t" ∧
    "t" ∉ (ofText sampleText).symbols.names ∧ idleMacro.WellFormed ∧ idleMacro.isPlaced = false ∧
    ∃ count image, image.microprogram = "0100\n0010\n1110\n1110\n" ∧
      (ofText sampleText).Builds false count image ∧
      ((ofText sampleText).withDefinition 1 "t" idleMacro).Builds false count image := by
  obtain ⟨image, hcompile, hwords⟩ := exists_image_sampleText
  obtain ⟨hread, count, hbuilds⟩ := builds_of_compile hcompile
  -- the name is new, and the macro is one word without references
  have hname : Dotless "t" := by
    rw [Dotless]
    decide
  have hnew : "t" ∉ (ofText sampleText).symbols.names := by decide +kernel
  have hsymbol : idleMacro.WellFormed :=
    ⟨⟨List.nodup_nil, by simp [SymbolTree.names], by simp⟩,
      by simp [references, Step.reference?, Reference.IsWritten]⟩
  refine ⟨hname, hnew, hsymbol, rfl, count, image, hwords, hbuilds, ?_⟩
  exact builds_withDefinition hread hname hnew hsymbol rfl 1 hbuilds

end Program

end ControlStore
