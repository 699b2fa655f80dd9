import ControlStore.Proofs.Bits.Word
import ControlStore.Proofs.Program

/-!
# Arithmetic that fits into 64 bits

Numbers are natural numbers here, and a machine has 64 bits for each. `Exact` has the operations as
a machine can do them without losing anything: there is no answer if the true one is beyond 64 bits
or below zero. With them, `Program.validate64` goes through the check of a program again, one
operation at a time, and `Program.placed64` through the ranges that signals are written to.

In a program of signed numbers (`Program.Sized`), none of the operations is without an answer, and
the check comes out as it does with natural numbers (`Program.validate64_eq`). It takes the order of
the checks for that: how wide the bank selector is has been compared with a word before anything is
added to its width or taken off for it.
-/

namespace ControlStore

/-! ## Operations -/

namespace Exact

/-- The sum, if it fits into 64 bits. -/
def add (a b : Nat) : Option Nat := if a + b ≤ maxPattern then some (a + b) else none

/-- The difference, if it is not negative. -/
def sub (a b : Nat) : Option Nat := if b ≤ a then some (a - b) else none

/-- The number moved up, if none of its bits is lost. -/
def shiftLeft (n places : Nat) : Option Nat :=
  if n <<< places ≤ maxPattern then some (n <<< places) else none

/-- A sum that fits is the plain one. -/
theorem add_eq {a b : Nat} (h : a + b ≤ maxPattern) : add a b = some (a + b) := if_pos h

/-- A sum has an answer exactly if it fits, and then it is the plain sum. -/
theorem add_eq_some_iff {a b sum : Nat} :
    add a b = some sum ↔ a + b ≤ maxPattern ∧ a + b = sum := by
  unfold add
  split
  · next hfits => simp [hfits]
  · next hfits => simp [hfits]

/-- A difference that is not negative is the plain one. -/
theorem sub_eq {a b : Nat} (h : b ≤ a) : sub a b = some (a - b) := if_pos h

/-- One bit can be moved to each of the 64 places. -/
theorem shiftLeft_one {places : Nat} (h : places < 64) :
    shiftLeft 1 places = some (1 <<< places) := by
  have hle : 2 ^ places ≤ 2 ^ 63 := Nat.pow_le_pow_right (by decide) (by omega)
  have hfits : 1 <<< places ≤ maxPattern := by
    rw [Nat.one_shiftLeft]
    exact Nat.le_trans hle (by decide)
  exact if_pos hfits

end Exact

/-! ## Ranges -/

namespace Mask

/-- The number of bits in the range. -/
def length64 (mask : Mask) : Option Nat := do Exact.add (← Exact.sub mask.upper mask.lower) 1

/-- The largest 64-bit number that fits into the range. -/
def maxValue64 (mask : Mask) : Option Nat := do
  let length ← mask.length64
  if 64 ≤ length then return maxPattern
  Exact.sub (← Exact.shiftLeft 1 length) 1

/-- The range moved up, end by end. -/
def shift64 (mask : Mask) (offset : Nat) : Option Mask := do
  return ⟨← Exact.add mask.msb offset, ← Exact.add mask.lsb offset⟩

/-- The length of a range can be found if it fits itself. -/
theorem length64_eq_some_iff {mask : Mask} {length : Nat} :
    mask.length64 = some length ↔ mask.length ≤ maxPattern ∧ mask.length = length := by
  rw [length64, Exact.sub_eq mask.lower_le_upper]
  exact Exact.add_eq_some_iff

/-- Below the largest position, the length of a range fits. -/
theorem length64_eq {mask : Mask} (h : mask.upper < maxPattern) :
    mask.length64 = some mask.length := by
  have hfits : mask.length ≤ maxPattern := by
    unfold length
    omega
  exact length64_eq_some_iff.2 ⟨hfits, rfl⟩

/-- Below the largest position, the largest value of a range can be found. -/
theorem maxValue64_eq {mask : Mask} (h : mask.upper < maxPattern) :
    mask.maxValue64 = some mask.maxValue := by
  rw [maxValue64, length64_eq h]
  show (if 64 ≤ mask.length then some maxPattern
    else Exact.shiftLeft 1 mask.length >>= fun top => Exact.sub top 1) = _
  rw [maxValue]
  split
  · -- a wide range has 64 bits of value
    next hwide =>
    rw [Nat.min_eq_right hwide]
    rfl
  · next hnarrow =>
    -- a narrow one has a power of two, less one
    have hpos : 1 ≤ 1 <<< mask.length := by
      rw [Nat.one_shiftLeft]
      exact Nat.one_le_two_pow
    rw [Nat.min_eq_left (by omega), Exact.shiftLeft_one (by omega)]
    exact Exact.sub_eq hpos

/-- A range can be moved exactly if its upper end can, and nothing is cut off the ends then. -/
theorem shift64_eq_some_iff {mask moved : Mask} {offset : Nat} :
    mask.shift64 offset = some moved ↔
      mask.upper + offset ≤ maxPattern ∧ mask.shift offset = moved := by
  constructor
  · intro h
    obtain ⟨msb, hmsb, h⟩ := Option.bind_eq_some_iff.1 h
    obtain ⟨lsb, hlsb, h⟩ := Option.bind_eq_some_iff.1 h
    obtain ⟨hmsb, rfl⟩ := Exact.add_eq_some_iff.1 hmsb
    obtain ⟨hlsb, rfl⟩ := Exact.add_eq_some_iff.1 hlsb
    have hfits : mask.upper + offset ≤ maxPattern := by
      unfold upper
      omega
    rw [shift_eq hfits]
    exact ⟨hfits, Option.some.inj h⟩
  · rintro ⟨hfits, rfl⟩
    have hmsb : mask.msb + offset ≤ maxPattern := by
      unfold upper at hfits
      omega
    have hlsb : mask.lsb + offset ≤ maxPattern := by
      unfold upper at hfits
      omega
    rw [shift64, Exact.add_eq hmsb, Exact.add_eq hlsb, shift_eq hfits]
    rfl

end Mask

/-! ## Programs of signed numbers -/

/-- Both ends of the range are signed 64-bit integers. -/
def Mask.Sized (mask : Mask) : Prop := mask.upper < 0x8000000000000000

instance (mask : Mask) : Decidable mask.Sized := inferInstanceAs (Decidable (_ < _))

/-- The bank and the range of a control line are signed 64-bit integers. -/
structure Control.Sized (control : Control) : Prop where
  mask : control.mask.Sized
  bank : control.bank < 0x8000000000000000

/-- All numbers of a program's configuration, of its control lines and of its opcodes are signed
64-bit integers. -/
structure Program.Sized (program : Program) : Prop where
  wordWidth : program.wordWidth < 0x8000000000000000
  opcodeWidth : program.opcodeWidth < 0x8000000000000000
  length : program.length < 0x8000000000000000
  bankMask : program.bankMask.Sized
  control : ∀ (name : String) (control : Control), program.controls[name]? = some control →
    control.Sized
  opcode : ∀ opcode ∈ program.entrypoints, opcode < 0x8000000000000000

/-- Signed positions are below the largest one. -/
theorem Mask.Sized.upper_lt {mask : Mask} (h : mask.Sized) : mask.upper < maxPattern :=
  Nat.lt_trans h (by decide)

/-! ## The check -/

namespace Program

/-- A check with numbers of 64 bits. It has no answer where a number does not fit. -/
abbrev Checking (α : Type) := ExceptT ConfigurationError Option α

/-- The number of opcodes. -/
def opcodeCount64 (program : Program) : Option Nat :=
  let width := program.opcodeWidth % 0x100000000
  if width < 64 then Exact.shiftLeft 1 width else some maxPattern

/-- Checks a control line beside a bank selector of the given width. -/
def checkControl64 (program : Program) (bankWidth : Nat) (control : Control) : Checking Unit := do
  if program.wordWidth ≤ (← Exact.add control.mask.upper bankWidth) then
    throw (.controlTooWide control.name (← Exact.sub program.wordWidth bankWidth))
  let maxBank ← program.bankMask.maxValue64
  if maxBank < control.bank then throw (.bankTooLarge control.name control.bank maxBank)

/-- Checks the highest bound opcode. -/
def checkOpcodes64 (program : Program) : Checking Unit :=
  match program.entrypoints.keys.getLast? with
  | some opcode => do
    if (← program.opcodeCount64) ≤ opcode then
      throw (.opcodeTooLarge opcode program.opcodeWidth)
  | none => return

/-- Checks the configuration, then the control lines by name, then the opcodes. -/
def validate64 (program : Program) : Checking Unit := do
  if program.length = 0 then throw .lengthZero
  if program.opcodeWidth = 0 then throw .opcodeWidthZero
  if 32 ≤ program.opcodeWidth then throw .opcodeWidthTooLarge
  if program.wordWidth = 0 then throw .wordWidthZero
  let bankWidth ← program.bankMask.length64
  if program.wordWidth ≤ (← Exact.add bankWidth 1) then
    throw (.wordTooNarrow program.wordWidth bankWidth)
  program.controls.values.forM (program.checkControl64 bankWidth)
  program.checkOpcodes64

/-- The range of a word that the signals of a control line are written to, above the bank
selector. -/
def placed64 (program : Program) (control : Control) : Option Mask := do
  control.mask.shift64 (← program.bankMask.length64)

/-! ## Checks in which every number fits -/

/-- A computation whose numbers all fit has the given result. -/
def fitting {ε α : Type} (result : Except ε α) : ExceptT ε Option α :=
  ExceptT.mk (some result)

/-- An operation that has an answer is followed by what is done with the answer. -/
theorem liftM_some_bind {α β : Type} (a : α) (next : α → Checking β) :
    ((liftM (some a) : Checking α) >>= next) = next a := rfl

/-- Where a check is not refused, it goes on as it should. -/
theorem guard_eq_fitting {α : Type} {p : Prop} [Decidable p] {cause : ConfigurationError}
    {next64 : Unit → Checking α} {next : Unit → Except ConfigurationError α}
    (h : ¬p → next64 () = fitting (next ())) :
    (if p then throw cause >>= next64 else next64 ()) =
      fitting (if p then throw cause >>= next else next ()) := by
  split
  · rfl
  · next hp => exact h hp

/-- A list is checked without overflow if all of its values are. -/
theorem forM_eq_fitting {α : Type} {check64 : α → Checking Unit}
    {check : α → Except ConfigurationError Unit} {l : List α}
    (h : ∀ a ∈ l, check64 a = fitting (check a)) : l.forM check64 = fitting (l.forM check) := by
  induction l with
  | nil => rfl
  | cons first rest ih =>
    obtain ⟨hfirst, hrest⟩ := List.forall_mem_cons.1 h
    show (check64 first >>= fun _ => rest.forM check64) =
      fitting (check first >>= fun _ => rest.forM check)
    rw [hfirst, ih hrest]
    cases check first <;> rfl

variable {program : Program}

/-- The number of opcodes always fits. -/
theorem opcodeCount64_eq (program : Program) :
    program.opcodeCount64 = some program.opcodeCount := by
  unfold opcodeCount64 opcodeCount
  dsimp only
  split
  · next hwidth => exact Exact.shiftLeft_one hwidth
  · rfl

/-- Behind the check of its width, the bank selector can be added to a range and taken off a
word. -/
theorem checkControl64_eq (h : program.Sized)
    (hselector : program.bankMask.length < program.wordWidth) {control : Control}
    (hcontrol : control.Sized) :
    program.checkControl64 program.bankMask.length control =
      fitting (program.checkControl control) := by
  have hwidth := h.wordWidth
  have hupper : control.mask.upper < 0x8000000000000000 := hcontrol.mask
  have hsum : control.mask.upper + program.bankMask.length ≤ maxPattern := by
    unfold maxPattern
    omega
  unfold checkControl64 checkControl
  rw [Exact.add_eq hsum, Exact.sub_eq (Nat.le_of_lt hselector),
    Mask.maxValue64_eq h.bankMask.upper_lt]
  simp only [liftM_some_bind]
  by_cases hwide : program.wordWidth ≤ control.mask.upper + program.bankMask.length
  · rw [if_pos hwide, if_pos hwide]
    rfl
  · rw [if_neg hwide, if_neg hwide]
    show (if program.maxBank < control.bank then _ else _) = _
    split <;> rfl

/-- Nothing overflows in the check of the opcodes. -/
theorem checkOpcodes64_eq (program : Program) :
    program.checkOpcodes64 = fitting program.checkOpcodes := by
  unfold checkOpcodes64 checkOpcodes
  cases program.entrypoints.keys.getLast? with
  | none => rfl
  | some opcode =>
    simp only [opcodeCount64_eq, liftM_some_bind]
    split <;> rfl

/-- In a program of signed numbers, every operation of the check has an answer that fits, up to where
the check comes to its end. -/
theorem validate64_eq (h : program.Sized) : program.validate64 = fitting program.validate := by
  have hlength : program.bankMask.length + 1 ≤ maxPattern := by
    have hupper : program.bankMask.upper < 0x8000000000000000 := h.bankMask
    unfold maxPattern Mask.length
    omega
  unfold validate64 validate
  rw [Mask.length64_eq h.bankMask.upper_lt]
  simp only [liftM_some_bind, Exact.add_eq hlength]
  refine guard_eq_fitting fun _ => ?_
  refine guard_eq_fitting fun _ => ?_
  refine guard_eq_fitting fun _ => ?_
  refine guard_eq_fitting fun _ => ?_
  refine guard_eq_fitting fun hselector => ?_
  -- only behind the check of the selector do the control lines have their differences
  have hcontrols : program.controls.values.forM (program.checkControl64 program.bankMask.length) =
      fitting (program.controls.values.forM program.checkControl) := by
    refine forM_eq_fitting fun control hcontrol => ?_
    obtain ⟨name, hname⟩ := mem_values_iff.1 hcontrol
    exact checkControl64_eq h (by omega) (h.control name control hname)
  rw [hcontrols, checkOpcodes64_eq]
  cases program.controls.values.forM program.checkControl <;> rfl

/-- The length of a range that takes all positions up to the largest 64-bit number does not fit. -/
example : ({ length := 1, opcodeWidth := 1, wordWidth := 1, bankMask := ⟨maxPattern, 0⟩ } :
    Program).validate64.run = none := rfl

/-- A signal can be given its place exactly if the upper end of its range can be moved above the
selector. The selector's own length is no obstacle then. -/
theorem placed64_eq_some_iff {control : Control} {moved : Mask} :
    program.placed64 control = some moved ↔
      control.mask.upper + program.bankMask.length ≤ maxPattern ∧
        control.mask.shift program.bankMask.length = moved := by
  constructor
  · intro h
    obtain ⟨length, hlength, h⟩ := Option.bind_eq_some_iff.1 h
    obtain ⟨-, rfl⟩ := Mask.length64_eq_some_iff.1 hlength
    exact Mask.shift64_eq_some_iff.1 h
  · rintro ⟨hfits, hmoved⟩
    have hlength : program.bankMask.length ≤ maxPattern := by omega
    rw [placed64, Mask.length64_eq_some_iff.2 ⟨hlength, rfl⟩]
    exact Mask.shift64_eq_some_iff.2 ⟨hfits, hmoved⟩

/-- In a valid program of signed numbers, all control lines can be moved above the selector. -/
theorem Sized.moved_le (h : program.Sized) (hroom : program.HasRoom) {name : String}
    {control : Control} (hcontrol : program.controls[name]? = some control) :
    control.mask.upper + program.bankMask.length ≤ maxPattern := by
  have hupper := (hroom.control name control hcontrol).upper
  have hwidth := h.wordWidth
  unfold maxPattern
  omega

end Program

end ControlStore
