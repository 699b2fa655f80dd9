import ControlStore.Proofs.Expansion.Padding
import ControlStore.Proofs.Image.Store
import ControlStore.Proofs.Layout.Padding

/-!
# Images among more symbols

The image of a linked program depends on its settings and on what its names stand for, so it is the
same among more symbols (`Program.Within.image`).

With what is known about expansion and linking, this covers all that is done to a program behind
reading (`Program.Builds`): other definitions around the sequences have no influence, as long as the
settings and the order of the sequences stay (`Program.Builds.padded`).
-/

namespace ControlStore

namespace Program

/-! ## Images among more symbols -/

namespace SameSettings

variable {program other : Program}

theorem symm (h : program.SameSettings other) : other.SameSettings program :=
  ⟨h.wordWidth.symm, h.opcodeWidth.symm, h.length.symm, h.bankMask.symm,
    fun opcode => (h.entrypoints opcode).symm, h.fetch.symm, h.interrupt.symm,
    h.emptyAssertion.symm⟩

/-- Words are encoded alike under the same settings. -/
theorem encode_eq (h : program.SameSettings other) : other.encode = program.encode := by
  have hsignal : other.writeSignal = program.writeSignal := by
    funext line word signal
    rw [writeSignal, writeSignal, h.bankMask]
  funext assertion
  rw [encode, encode, bankWord, bankWord, h.wordWidth, h.bankMask, hsignal]

/-- A step becomes a word by the settings alone. -/
theorem stepLine_eq (h : program.SameSettings other) : other.stepLine = program.stepLine := by
  funext code locals step index
  rw [stepLine, stepLine]
  cases step with
  | assertion a => rw [encodeStep, encodeStep, h.encode_eq]
  | reference r => rfl

/-- The words behind the last sequence come from the settings alone. -/
theorem unusedLines_eq (h : program.SameSettings other) :
    other.unusedLines = program.unusedLines := by
  funext filled
  rw [unusedLines, unusedLines, fillerWord, fillerWord, h.length, h.emptyAssertion, h.encode_eq,
    h.wordWidth]

theorem toList_entrypoints (h : program.SameSettings other) :
    other.entrypoints.toList = program.entrypoints.toList :=
  (Std.TreeMap.Equiv.of_forall_constGet?_eq h.entrypoints).toList_eq

theorem opcodeCount_eq (h : program.SameSettings other) :
    other.opcodeCount = program.opcodeCount := by
  rw [opcodeCount, opcodeCount, h.opcodeWidth]

end SameSettings

namespace Within

variable {program other : Program} {name : String}

/-- A sequence is found in the larger program too. -/
theorem placedSequence (h : program.Within other) {found : Code × SymbolTree}
    (hplaced : program.placedSequence name = .ok found) : other.placedSequence name = .ok found := by
  obtain ⟨hfind, hkind⟩ := placedSequence_eq_ok_iff.1 hplaced
  exact placedSequence_eq_ok_iff.2 ⟨h.symbols.find? hfind, hkind⟩

/-- A binding has the same target in the larger program. -/
theorem entryTarget (h : program.Within other) {opcode : Nat} {target : Nat × String × Nat}
    (htarget : program.entryTarget opcode name = .ok target) :
    other.entryTarget opcode name = .ok target := by
  unfold Program.entryTarget at htarget ⊢
  split at htarget
  · next hfind =>
    rw [h.symbols.find? hfind]
    exact htarget
  · cases htarget

/-- A sequence has the same lines in the larger program. -/
theorem sequenceLines (h : program.Within other) {lines : List WordLine}
    (hlines : (program.sequenceLines name).result = .ok lines) :
    (other.sequenceLines name).result = .ok lines := by
  unfold Program.sequenceLines at hlines ⊢
  obtain ⟨found, hfound, hlines⟩ := Report.result_bind_eq_ok_iff.1 hlines
  rw [h.stepLine_eq]
  exact Report.result_bind_eq_ok_iff.2 ⟨found, h.placedSequence hfound, hlines⟩

/-- The larger program fills the store with the same lines. -/
theorem wordTable (h : program.Within other) {layout : List String} {table : List WordLine}
    (htable : (program.wordTable layout).result = .ok table) :
    (other.wordTable layout).result = .ok table := by
  unfold Program.wordTable at htable ⊢
  obtain ⟨used, hused, htable⟩ := Report.result_bind_eq_ok_iff.1 htable
  rw [h.unusedLines_eq]
  refine Report.result_bind_eq_ok_iff.2 ⟨used, ?_, htable⟩
  rw [Report.result_mapM, mapM_eq_ok_iff] at hused ⊢
  exact hused.imp fun name lines hlines => h.sequenceLines hlines

/-- The larger program has the same lines for its opcodes. -/
theorem entryTable (h : program.Within other) {lines : List EntryLine}
    (hlines : program.entryTable = .ok lines) : other.entryTable = .ok lines := by
  unfold Program.entryTable at hlines ⊢
  rw [h.toList_entrypoints, h.opcodeCount_eq]
  obtain ⟨targets, htargets, hlines⟩ := bind_eq_ok_iff.1 hlines
  refine bind_eq_ok_iff.2 ⟨targets, ?_, hlines⟩
  rw [mapM_eq_ok_iff] at htargets ⊢
  exact htargets.imp fun binding target htarget => h.entryTarget htarget

/-- The image of a linked program is the same among more symbols. -/
theorem image (h : program.Within other) {layout : List String} {debug : Bool} {image : Image}
    (himage : (program.image layout debug).result = .ok image) :
    (other.image layout debug).result = .ok image := by
  unfold Program.image at himage ⊢
  obtain ⟨words, hwords, himage⟩ := Report.result_bind_eq_ok_iff.1 himage
  obtain ⟨entries, hentries, himage⟩ := Report.result_bind_eq_ok_iff.1 himage
  have hwidth : other.addressWidth = program.addressWidth := by
    rw [addressWidth, addressWidth, h.length]
  rw [hwidth]
  refine Report.result_bind_eq_ok_iff.2 ⟨words, h.wordTable hwords, ?_⟩
  exact Report.result_bind_eq_ok_iff.2 ⟨entries, h.entryTable hentries, himage⟩

end Within

/-! ## Building a program -/

/-- The program is expanded in `count` expansions, linked, and written as the image. -/
def Builds (program : Program) (debug : Bool) (count : Nat) (image : Image) : Prop :=
  ∃ expanded layout linked, expand.Yields program count expanded ∧
    link.Yields expanded layout linked ∧ (linked.image layout debug).result = .ok image

/-- A text is compiled to what the program in it is built to. -/
theorem builds_of_compile {text : String} {debug : Bool} {image : Image}
    (h : (compile (.ok text) debug).result = .ok image) :
    (ofText text).ReadFrom text ∧ ∃ count, (ofText text).Builds debug count image := by
  obtain ⟨c, himage⟩ := compile_eq_ok_iff.1 h
  have hread := c.readFrom.eq_ofText ▸ c.readFrom
  have hexpands := c.readFrom.eq_ofText ▸ c.expands
  exact ⟨hread, c.count, c.expanded, c.layout, c.linked, hexpands, c.links, himage⟩

/-- A program is built to the same image in as many expansions with other definitions around its
sequences, if the settings and the order of the sequences stay. -/
theorem Builds.padded {program other : Program} (hsymbols : program.symbols.WellFormed)
    (hother : other.symbols.WellFormed) (hsettings : program.SameSettings other)
    (hpadded : program.symbols.PaddedTo other.symbols)
    (horder : ∀ fetch, program.fetch = some fetch →
      other.symbols.layout fetch = program.symbols.layout fetch)
    {debug : Bool} {count : Nat} {image : Image} (h : program.Builds debug count image) :
    other.Builds debug count image := by
  obtain ⟨expanded, layout, linked, hexpand, hlink, himage⟩ := h
  obtain ⟨symbols, hexpand', hwithin, hexpanded⟩ :=
    expand_padded hsymbols hother hpadded hexpand
  -- behind expansion the larger program still has all of the smaller one, and lays it out alike
  have hprogram : expanded.Within { other with symbols } := by
    rw [hexpanded]
    exact ⟨⟨hsettings.wordWidth, hsettings.opcodeWidth, hsettings.length, hsettings.bankMask,
      hsettings.entrypoints, hsettings.fetch, hsettings.interrupt, hsettings.emptyAssertion⟩,
      hwithin⟩
  have hlayout : ∀ fetch, expanded.fetch = some fetch →
      symbols.layout fetch = expanded.symbols.layout fetch := by
    intro fetch hfetch
    rw [hexpanded] at hfetch
    rw [layout_of_expand hsymbols hexpand, ← horder fetch hfetch]
    exact layout_of_expand hother hexpand' fetch
  obtain ⟨linked', hlink', hlinked⟩ := hprogram.link (linkable_of_expand hsymbols hexpand)
    (isExpanded_of_expand hexpand) (linkable_of_expand hother hexpand')
    (isExpanded_of_expand hexpand') hlayout hlink
  exact ⟨_, layout, linked', hexpand', hlink', hlinked.image himage⟩

end Program

end ControlStore
