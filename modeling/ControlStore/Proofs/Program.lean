import Mathlib.Algebra.GroupWithZero.Nat
import ControlStore.Proofs.Stage
import ControlStore.Program

/-!
# Programs as they are checked

Stages on the symbols of a program, and what `Program.validate` guarantees about the words of the
store: the bank selector and every control line fit into a word, side by side, and every bank can be
selected (`Program.hasRoom_of_validate`). Opcodes are the numbers of the width that is set
(`Program.Checked.opcodeCount`), and all that are bound are among them
(`Program.Checked.opcode_lt`). Nothing else is checked (`Program.validate_eq_ok_iff`).
-/

namespace ControlStore

namespace Program

/-! ## Stages on the symbols -/

section Symbols

variable {ε α : Type} {stage : Stage ε SymbolTree α} {program final : Program} {a : α} {cause : ε}

/-- A stage on the symbols yields what it does there, and the rest of the program stays. -/
theorem yields_onSymbols : (onSymbols stage).Yields program a final ↔
    ∃ symbols, stage.Yields program.symbols a symbols ∧ { program with symbols } = final := by
  constructor
  · rintro ⟨hresult, hstate⟩
    exact ⟨_, ⟨hresult, rfl⟩, hstate⟩
  · rintro ⟨symbols, ⟨hresult, rfl⟩, hstate⟩
    exact ⟨hresult, hstate⟩

/-- A stage on the symbols fails as it does there. -/
theorem fails_onSymbols :
    (onSymbols stage).Fails program cause ↔ stage.Fails program.symbols cause :=
  Iff.rfl

/-- A stage on the symbols that fails leaves the rest of the program as well. -/
theorem failsIn_onSymbols : (onSymbols stage).FailsIn program cause final ↔
    ∃ symbols, stage.FailsIn program.symbols cause symbols ∧ { program with symbols } = final := by
  constructor
  · rintro ⟨hfails, hstate⟩
    exact ⟨_, ⟨hfails, rfl⟩, hstate⟩
  · rintro ⟨symbols, ⟨hfails, rfl⟩, hstate⟩
    exact ⟨hfails, hstate⟩

end Symbols

/-! ## Room in a word -/

/-- A control line fits into a word above the bank selector, and its bank into the selector. -/
structure Fits (program : Program) (control : Control) : Prop where
  upper : control.mask.upper + program.bankMask.length < program.wordWidth
  bank : control.bank ≤ program.maxBank

/-- There is room in a word for the bank selector and for every control line beside it. -/
structure HasRoom (program : Program) : Prop where
  selector : program.bankMask.length + 1 < program.wordWidth
  control : ∀ (name : String) (control : Control), program.controls[name]? = some control →
    program.Fits control

/-- A control line passes its check if there is room for it. -/
theorem checkControl_eq_ok_iff {program : Program} {control : Control} :
    program.checkControl control = .ok () ↔ program.Fits control := by
  constructor
  · intro h
    unfold checkControl at h
    split at h
    · cases h
    · next hupper =>
      split at h
      · cases h
      · next hbank => exact ⟨Nat.lt_of_not_le hupper, Nat.le_of_not_lt hbank⟩
  · intro h
    rw [checkControl, if_neg (Nat.not_le_of_lt h.upper), if_neg (Nat.not_lt_of_le h.bank)]

/-- A list passes a check if all its values do. -/
theorem forM_eq_ok_iff {ε α : Type} {check : α → Except ε Unit} {l : List α} :
    l.forM check = .ok () ↔ ∀ a ∈ l, check a = .ok () := by
  induction l with
  | nil => exact iff_of_true rfl fun a ha => absurd ha List.not_mem_nil
  | cons first rest ih =>
    rw [List.forall_mem_cons, ← ih]
    constructor
    · intro h
      obtain ⟨⟨⟩, hfirst, hrest⟩ := bind_eq_ok_iff.1 h
      exact ⟨hfirst, hrest⟩
    · rintro ⟨hfirst, hrest⟩
      exact bind_eq_ok_iff.2 ⟨(), hfirst, hrest⟩

/-- The values of a table are those that its names are bound to. -/
theorem mem_values_iff {β : Type} {map : Std.TreeMap String β} {b : β} :
    b ∈ map.values ↔ ∃ name : String, map[name]? = some b := by
  have hfold : map.values = map.foldr (fun _ value values => value :: values) [] := rfl
  rw [hfold, Std.TreeMap.foldr_eq_foldr_toList, ← List.map_eq_foldr]
  constructor
  · intro h
    obtain ⟨⟨name, value⟩, hmem, rfl⟩ := List.mem_map.1 h
    exact ⟨name, Std.TreeMap.mem_toList_iff_getElem?_eq_some.1 hmem⟩
  · rintro ⟨name, h⟩
    exact List.mem_map.2 ⟨(name, b), Std.TreeMap.mem_toList_iff_getElem?_eq_some.2 h, rfl⟩

/-- A check is passed if it finds nothing to refuse. -/
theorem guard_eq_ok_iff {ε α : Type} {p : Prop} [Decidable p] {cause : ε}
    {next : Unit → Except ε α} {a : α} :
    (if p then throw cause >>= next else next ()) = .ok a ↔ ¬p ∧ next () = .ok a := by
  split
  · next hp => exact ⟨fun h => (nomatch h), fun h => absurd hp h.1⟩
  · next hp => exact ⟨fun h => ⟨hp, h⟩, fun h => h.2⟩

/-- What it takes to pass the check. -/
structure Checked (program : Program) : Prop where
  length : 0 < program.length
  opcodeWidth_pos : 0 < program.opcodeWidth
  opcodeWidth_lt : program.opcodeWidth < 32
  selector : program.bankMask.length + 1 < program.wordWidth
  controls : program.controls.values.forM program.checkControl = .ok ()
  opcodes : program.checkOpcodes = .ok ()

/-- The check goes through its parts in order, and all of them are passed. -/
theorem checked_of_validate {program : Program} (h : program.validate = .ok ()) :
    program.Checked := by
  unfold validate at h
  obtain ⟨hlength, h⟩ := guard_eq_ok_iff.1 h
  obtain ⟨hpos, h⟩ := guard_eq_ok_iff.1 h
  obtain ⟨hlt, h⟩ := guard_eq_ok_iff.1 h
  obtain ⟨-, h⟩ := guard_eq_ok_iff.1 h
  obtain ⟨hselector, h⟩ := guard_eq_ok_iff.1 h
  obtain ⟨_, hcontrols, hopcodes⟩ := bind_eq_ok_iff.1 h
  exact ⟨by omega, by omega, by omega, by omega, hcontrols, hopcodes⟩

/-- In a program that passes the check, all control lines fit beside the bank selector. -/
theorem hasRoom_of_validate {program : Program} (h : program.validate = .ok ()) :
    program.HasRoom := by
  have hchecked := checked_of_validate h
  refine ⟨hchecked.selector, fun name control hcontrol => ?_⟩
  exact checkControl_eq_ok_iff.1
    (forM_eq_ok_iff.1 hchecked.controls _ (mem_values_iff.2 ⟨name, hcontrol⟩))

/-! ## Opcodes -/

/-- Below 32 bits the number of opcodes is the power of two. -/
theorem opcodeCount_eq {program : Program} (hwidth : program.opcodeWidth < 32) :
    program.opcodeCount = 2 ^ program.opcodeWidth := by
  have hsmall : program.opcodeWidth % 0x100000000 = program.opcodeWidth :=
    Nat.mod_eq_of_lt (by omega)
  simp only [Program.opcodeCount, hsmall]
  rw [if_pos (by omega), Nat.one_shiftLeft]

/-- In a program that passes the check, opcodes are the numbers with as many bits as are set. -/
theorem Checked.opcodeCount {program : Program} (h : program.Checked) :
    program.opcodeCount = 2 ^ program.opcodeWidth :=
  opcodeCount_eq h.opcodeWidth_lt

/-- The keys of a table are in order, so none is behind the last one. -/
theorem le_of_getLast?_keys {β : Type} {map : Std.TreeMap Nat β} {key last : Nat}
    (hkey : key ∈ map) (hlast : map.keys.getLast? = some last) : key ≤ last := by
  obtain ⟨before, hkeys⟩ := List.getLast?_eq_some_iff.1 hlast
  have hmem := Std.TreeMap.mem_keys.2 hkey
  have hordered := Std.TreeMap.ordered_keys (t := map)
  rw [hkeys] at hmem hordered
  rcases List.mem_append.1 hmem with hbefore | hlast
  · -- every other key is in front of the last one
    have hlt := (List.pairwise_append.1 hordered).2.2 key hbefore last (List.mem_singleton.2 rfl)
    exact Nat.le_of_lt (Nat.compare_eq_lt.1 hlt)
  · exact Nat.le_of_eq (List.mem_singleton.1 hlast)

/-- The check of the highest opcode covers all that are bound. -/
theorem Checked.opcode_lt {program : Program} (h : program.Checked) {opcode : Nat}
    (hopcode : opcode ∈ program.entrypoints) : opcode < program.opcodeCount := by
  have hopcodes := h.opcodes
  unfold checkOpcodes at hopcodes
  split at hopcodes
  · next last hlast =>
    split at hopcodes
    · cases hopcodes
    · next hlt =>
      have hle := le_of_getLast?_keys hopcode hlast
      omega
  · next hnone =>
    have hmem := Std.TreeMap.mem_keys.2 hopcode
    -- without a last opcode none is bound
    rw [List.getLast?_eq_none_iff.1 hnone] at hmem
    cases hmem

/-! ## Valid programs -/

/-- A program whose configuration makes sense, whose control lines fit into its words and whose
opcodes have as many bits as are set. -/
structure Valid (program : Program) : Prop where
  length : 0 < program.length
  opcodeWidth_pos : 0 < program.opcodeWidth
  opcodeWidth_lt : program.opcodeWidth < 32
  room : program.HasRoom
  opcode : ∀ opcode ∈ program.entrypoints, opcode < 2 ^ program.opcodeWidth

/-- The check finds out whether a program is valid. -/
theorem validate_eq_ok_iff {program : Program} : program.validate = .ok () ↔ program.Valid := by
  constructor
  · intro h
    have hchecked := checked_of_validate h
    refine ⟨hchecked.length, hchecked.opcodeWidth_pos, hchecked.opcodeWidth_lt,
      hasRoom_of_validate h, fun opcode hopcode => ?_⟩
    rw [← hchecked.opcodeCount]
    exact hchecked.opcode_lt hopcode
  · intro h
    have hselector := h.room.selector
    have hcontrols : program.controls.values.forM program.checkControl = .ok () := by
      refine forM_eq_ok_iff.2 fun control hcontrol => ?_
      obtain ⟨name, hname⟩ := mem_values_iff.1 hcontrol
      exact checkControl_eq_ok_iff.2 (h.room.control name control hname)
    have hopcodes : program.checkOpcodes = .ok () := by
      unfold checkOpcodes
      split
      · next opcode hlast =>
        have hmem := Std.TreeMap.mem_keys.1 (List.mem_of_getLast? hlast)
        rw [opcodeCount_eq h.opcodeWidth_lt, if_neg (Nat.not_le_of_lt (h.opcode opcode hmem))]
      · rfl
    have hpos := h.length
    have hwidth := h.opcodeWidth_pos
    have hlt := h.opcodeWidth_lt
    unfold validate
    -- none of the five guards refuses
    refine guard_eq_ok_iff.2 ⟨by omega, ?_⟩
    refine guard_eq_ok_iff.2 ⟨by omega, ?_⟩
    refine guard_eq_ok_iff.2 ⟨by omega, ?_⟩
    refine guard_eq_ok_iff.2 ⟨by omega, ?_⟩
    refine guard_eq_ok_iff.2 ⟨by omega, ?_⟩
    exact bind_eq_ok_iff.2 ⟨(), hcontrols, hopcodes⟩

end Program

end ControlStore
