import ControlStore.Image.Encoding
import ControlStore.Proofs.Bits.Word
import ControlStore.Proofs.Layout.Link
import ControlStore.Proofs.Source.Controls
import ControlStore.Proofs.Source.Sized

/-!
# What a control word says

The word of an assertion is made by writing its bank and then one signal after the other. Each
signal changes the bits of its own range and no others (`Program.exists_writeSignal`), so the bits
of the word are found by going through the signals (`Program.exists_writeSignals`): the last signal
that covers a bit decides it. As all control lines of a program fit beside the bank selector, every
write is inside the word, and no signal touches the bank. Words are not wider than 64 bits can count,
so no range is moved beyond that either (`Program.HasPlace`).

`Program.encode_decodes` reads everything back: the bank, the signals, and the bits that none of
them covers.
-/

namespace ControlStore

/-- The number that the range of a control line holds for a value: the low bits of its pattern. -/
def Control.held (control : Control) (value : Int) : Nat :=
  pattern value % 2 ^ min control.mask.length 64

/-- A value fits into the range exactly if the range holds the value itself. -/
theorem Control.eq_held_iff {control : Control} {value : Int} :
    value = control.held value ↔ 0 ≤ value ∧ value ≤ control.mask.maxValue := by
  have hle : 2 ^ min control.mask.length 64 ≤ 2 ^ 64 :=
    Nat.pow_le_pow_right (by decide) (Nat.min_le_right _ _)
  have hpos : 0 < 2 ^ min control.mask.length 64 := Nat.pow_pos (by decide)
  have hlt := Nat.mod_lt (pattern value) hpos
  -- what is held is the value modulo a power of two, so it is the value just below that power
  rw [held, Mask.maxValue_eq]
  constructor
  · intro h
    omega
  · rintro ⟨hnonneg, hmax⟩
    have hsame : pattern value = value.toNat := by
      rw [pattern]
      omega
    rw [hsame, Nat.mod_eq_of_lt (by omega)]
    omega

namespace Signal

/-- The bit that a signal gives to a position above the bank selector, if its range covers it. -/
def bit? (i : Nat) (signal : Signal) : Option Bool :=
  match signal.value with
  | .integer value =>
    if signal.control.mask.Covers i then some (signal.control.mask.bitOf (pattern value) i)
    else none
  | .symbol _ => none

/-- The warning for the value of a signal, if its range does not hold it. -/
def truncation (line : Nat) (signal : Signal) : List Notice :=
  match signal.value with
  | .integer value =>
    if value = signal.control.held value then []
    else [.valueTruncated signal.control.name line signal.control.mask.maxValue value]
  | .symbol _ => []

/-- The bit at a position after signals have been written over it, one after the other. -/
def overwrite (signals : List Signal) (i : Nat) (bit : Bool) : Bool :=
  signals.foldl (fun bit signal => (signal.bit? i).getD bit) bit

/-- A signal says nothing about places outside its mask. -/
theorem bit?_of_not_covers {signal : Signal} {i : Nat} (h : ¬signal.control.mask.Covers i) :
    signal.bit? i = none := by
  unfold bit?
  split
  · exact if_neg h
  · rfl

/-- Signals that do not cover a position leave its bit alone. -/
theorem overwrite_of_not_covers {signals : List Signal} {i : Nat}
    (h : ∀ signal ∈ signals, ¬signal.control.mask.Covers i) (bit : Bool) :
    overwrite signals i bit = bit := by
  induction signals with
  | nil => rfl
  | cons signal signals ih =>
    rw [overwrite, List.foldl_cons, bit?_of_not_covers (h signal (List.mem_cons_self ..))]
    exact ih fun other hother => h other (List.mem_cons_of_mem _ hother)

/-- The last signal that covers a position decides its bit. -/
theorem overwrite_last {before after : List Signal} {signal : Signal} {i : Nat} {value : Int}
    (hvalue : signal.value = .integer value) (hcovers : signal.control.mask.Covers i)
    (hafter : ∀ later ∈ after, ¬later.control.mask.Covers i) (bit : Bool) :
    overwrite (before ++ signal :: after) i bit =
      signal.control.mask.bitOf (pattern value) i := by
  have hbit : signal.bit? i = some (signal.control.mask.bitOf (pattern value) i) := by
    rw [bit?, hvalue]
    exact if_pos hcovers
  rw [overwrite, List.foldl_append, List.foldl_cons, hbit, Option.getD_some]
  exact overwrite_of_not_covers hafter _

end Signal

namespace Program

variable {program : Program} {a : Assertion}

/-! ## Writing signals -/

/-- Above the bank selector, the range of a control line ends inside a word of the given width, and
within 64 bits. -/
structure HasPlace (program : Program) (width : Nat) (control : Control) : Prop where
  room : control.mask.upper + program.bankMask.length < width
  fits : control.mask.upper + program.bankMask.length ≤ maxPattern

/-- A signal with a number is written above the bank selector, into the bits of its range. -/
theorem exists_writeSignal (line : Nat) {word : Word} {signal : Signal} {value : Int}
    (hvalue : signal.value = .integer value) (hplace : program.HasPlace word.width signal.control) :
    ∃ written, program.writeSignal line word signal = ⟨signal.truncation line, .ok written⟩ ∧
      written.width = word.width ∧
      (∀ i < program.bankMask.length, written.bits[i]? = word.bits[i]?) ∧
      ∀ i, written.bits[program.bankMask.length + i]? =
        word.bits[program.bankMask.length + i]?.map fun bit => (signal.bit? i).getD bit := by
  obtain ⟨written, hwritten, hwidth, hbits⟩ :=
    Word.exists_writeMask hplace.fits hplace.room (pattern value)
  refine ⟨written, ?_, hwidth, ?_, ?_⟩
  · rw [writeSignal, hvalue]
    dsimp only
    rw [hwritten, Signal.truncation, hvalue]
    simp only [Control.truncation, Control.eq_held_iff]
    rfl
  · intro i hi
    rw [hbits, if_neg (by omega)]
  · intro i
    rw [hbits, Nat.add_sub_cancel_left, Signal.bit?, hvalue]
    by_cases hcovers : signal.control.mask.Covers i
    · simp [hcovers]
    · simp [hcovers]

/-- Signals with numbers are written one over the other. -/
theorem exists_writeSignals (line : Nat) {word : Word} {signals : List Signal}
    (hresolved : ∀ signal ∈ signals, ∃ value, signal.value = .integer value)
    (hplaces : ∀ signal ∈ signals, program.HasPlace word.width signal.control) :
    ∃ written, signals.foldlM (program.writeSignal line) word =
        ⟨signals.flatMap (Signal.truncation line), .ok written⟩ ∧
      written.width = word.width ∧
      (∀ i < program.bankMask.length, written.bits[i]? = word.bits[i]?) ∧
      ∀ i, written.bits[program.bankMask.length + i]? =
        word.bits[program.bankMask.length + i]?.map (Signal.overwrite signals i) := by
  induction signals generalizing word with
  | nil =>
    refine ⟨word, rfl, rfl, fun _ _ => rfl, fun i => ?_⟩
    exact Option.map_id'.symm
  | cons signal signals ih =>
    obtain ⟨value, hvalue⟩ := hresolved signal (List.mem_cons_self ..)
    obtain ⟨first, hfirst, hfirstWidth, hfirstLow, hfirstBits⟩ :=
      exists_writeSignal line hvalue (hplaces signal (List.mem_cons_self ..))
    -- writing keeps the width, so there is the same room for the rest
    have hrest : ∀ other ∈ signals, program.HasPlace first.width other.control := by
      intro other hother
      rw [hfirstWidth]
      exact hplaces other (List.mem_cons_of_mem _ hother)
    obtain ⟨written, hwritten, hwidth, hlow, hbits⟩ :=
      ih (fun other hother => hresolved other (List.mem_cons_of_mem _ hother)) hrest
    refine ⟨written, ?_, hwidth.trans hfirstWidth, ?_, ?_⟩
    · rw [List.foldlM_cons, hfirst, List.flatMap_cons, Report.bind_def, Report.andThen]
      simp only [hwritten]
    · intro i hi
      rw [hlow i hi, hfirstLow i hi]
    · intro i
      rw [hbits, hfirstBits, Option.map_map]
      rfl

/-! ## Words of assertions -/

/-- The bank of an assertion on control lines of the program fits into the bank selector. -/
theorem bank_lt (hroom : program.HasRoom) (ha : a.Grounded program.controls) :
    a.bank < 2 ^ min program.bankMask.length 64 := by
  have hpos : 0 < 2 ^ min program.bankMask.length 64 := Nat.pow_pos (by decide)
  cases hsignals : a.signals with
  | nil => rwa [ha.idle hsignals]
  | cons signal rest =>
    have hmem : signal ∈ a.signals := hsignals ▸ List.mem_cons_self ..
    obtain ⟨name, hcontrol⟩ := ha.control signal hmem
    have hle := (hroom.control name signal.control hcontrol).bank
    rw [ha.bank signal hmem, maxBank, Mask.maxValue_eq] at hle
    omega

/-- The bank of an assertion is written into the bits of the selector. -/
theorem exists_bankWord (hsized : program.Sized) (hselector : program.bankMask.lsb = 0)
    (hroom : program.HasRoom) (ha : a.Grounded program.controls) :
    ∃ word, program.bankWord a = .ok word ∧ word.width = program.wordWidth ∧
      ∀ i < program.wordWidth, word.bits[i]? =
        some (decide (i < program.bankMask.length) && a.bank.testBit i) := by
  -- the selector starts at the bottom of the word, so its places are those below its length
  have hlength : program.bankMask.length = program.bankMask.upper + 1 ∧
      program.bankMask.lower = 0 := by
    simp only [Mask.length, Mask.upper, Mask.lower, hselector]
    omega
  have hwidth : program.bankMask.upper + 0 < (Word.zero program.wordWidth).width := by
    have hselector := hroom.selector
    rw [Word.width_zero]
    omega
  have hfits : program.bankMask.upper + 0 ≤ maxPattern := Nat.le_of_lt hsized.bankMask.upper_lt
  obtain ⟨word, hword, hsame, hbits⟩ := Word.exists_writeMask hfits hwidth a.bank
  rw [Word.width_zero] at hsame
  refine ⟨word, mapError_eq_ok_iff.2 hword, hsame, fun i hi => ?_⟩
  have hzero : (Word.zero program.wordWidth).bits[i]? = some false := by
    simp [Word.zero, hi]
  rw [hbits, hzero, Nat.sub_zero]
  by_cases hin : i < program.bankMask.length
  · -- places from the 64th on are zero, and so are the bits of the bank there
    have hcovers : program.bankMask.Covers i := ⟨by omega, by omega⟩
    have hbit : program.bankMask.bitOf a.bank i = a.bank.testBit i := by
      rw [Mask.bitOf, hlength.2, Nat.sub_zero]
      by_cases hplace : i < 64
      · simp [hplace]
      · have hbank := bank_lt hroom ha
        have hle : 2 ^ min program.bankMask.length 64 ≤ 2 ^ i :=
          Nat.pow_le_pow_right (by decide) (by omega)
        simp [hplace, Nat.testBit_lt_two_pow (Nat.lt_of_lt_of_le hbank hle)]
    simp [hcovers, hbit, hin]
  · have hcovers : ¬program.bankMask.Covers i := by
      rw [Mask.Covers]
      omega
    simp [hcovers, hin]

/-- All writes for an assertion on control lines of the program are inside a word. -/
theorem hasPlace (hsized : program.Sized) (hroom : program.HasRoom)
    (ha : a.Grounded program.controls) :
    ∀ signal ∈ a.signals, program.HasPlace program.wordWidth signal.control := by
  intro signal hsignal
  obtain ⟨name, hcontrol⟩ := ha.control signal hsignal
  exact ⟨(hroom.control name signal.control hcontrol).upper, hsized.moved_le hroom hcontrol⟩

/-- An assertion with numbers on control lines of the program has a word. The low bits are those of
the bank, and a bit above them is zero until signals are written over it. -/
theorem exists_encode (hsized : program.Sized) (hselector : program.bankMask.lsb = 0)
    (hroom : program.HasRoom) (ha : a.Grounded program.controls) (hresolved : a.IsResolved) :
    ∃ word, program.encode a = ⟨a.signals.flatMap (Signal.truncation a.line), .ok word⟩ ∧
      word.width = program.wordWidth ∧
      (∀ i < program.bankMask.length, word.bits[i]? = some (a.bank.testBit i)) ∧
      ∀ i, program.bankMask.length + i < program.wordWidth →
        word.bits[program.bankMask.length + i]? = some (Signal.overwrite a.signals i false) := by
  obtain ⟨first, hfirst, hfirstWidth, hfirstBits⟩ := exists_bankWord hsized hselector hroom ha
  have hplaces : ∀ signal ∈ a.signals, program.HasPlace first.width signal.control := by
    rw [hfirstWidth]
    exact hasPlace hsized hroom ha
  obtain ⟨word, hword, hwidth, hlow, hbits⟩ := exists_writeSignals a.line hresolved hplaces
  have hselected := hroom.selector
  refine ⟨word, ?_, hwidth.trans hfirstWidth, ?_, ?_⟩
  · rw [encode, hfirst, Report.bind_def, Report.andThen]
    simp [hword, liftM, monadLift, MonadLift.monadLift, Report.ofExcept]
  · intro i hi
    rw [hlow i hi, hfirstBits i (by omega)]
    simp [hi]
  · intro i hi
    have hnot : ¬program.bankMask.length + i < program.bankMask.length := by omega
    rw [hbits, hfirstBits _ hi]
    simp [hnot]

/-! ## Reading words back -/

/-- What can be read back from the word of an assertion with numbers. -/
structure Decodes (program : Program) (a : Assertion) (word : Word) : Prop where
  width : word.width = program.wordWidth
  text : Word.ofText word.text = .ok word
  /-- The bank fits into the selector, and is held by it. -/
  bank_lt : a.bank < 2 ^ program.bankMask.length
  bank : ∀ i < program.bankMask.length, word.get i = .ok (a.bank.testBit i)
  /-- A signal that no later one overlaps is read from its range. -/
  signal : ∀ before signal after value, a.signals = before ++ signal :: after →
    signal.value = .integer value →
    (∀ later ∈ after, signal.control.mask.overlaps later.control.mask = false) →
    word.readMask signal.control.mask program.bankMask.length = .ok (signal.control.held value)
  /-- Where signals overlap, the last one decides the bit. -/
  last : ∀ before signal after value i, a.signals = before ++ signal :: after →
    signal.value = .integer value → signal.control.mask.Covers i →
    (∀ later ∈ after, ¬later.control.mask.Covers i) →
    word.get (program.bankMask.length + i) = .ok (signal.control.mask.bitOf (pattern value) i)
  /-- All other bits are zero. -/
  rest : ∀ i, program.bankMask.length + i < program.wordWidth →
    (∀ signal ∈ a.signals, ¬signal.control.mask.Covers i) →
    word.get (program.bankMask.length + i) = .ok false

/-- A word with the bits of an assertion's bank and signals can be read back. -/
theorem decodes_of_bits (hsized : program.Sized) (hroom : program.HasRoom)
    (ha : a.Grounded program.controls) {word : Word} (hwidth : word.width = program.wordWidth)
    (hlow : ∀ i < program.bankMask.length, word.bits[i]? = some (a.bank.testBit i))
    (habove : ∀ i, program.bankMask.length + i < program.wordWidth →
      word.bits[program.bankMask.length + i]? = some (Signal.overwrite a.signals i false)) :
    program.Decodes a word := by
  have hplaces := hasPlace hsized hroom ha
  -- a place belongs to the last signal that covers it; masks and single places are read off from
  -- this
  have hlast : ∀ before signal after value i, a.signals = before ++ signal :: after →
      signal.value = .integer value → signal.control.mask.Covers i →
      (∀ later ∈ after, ¬later.control.mask.Covers i) →
      word.bits[program.bankMask.length + i]? =
        some (signal.control.mask.bitOf (pattern value) i) := by
    intro before signal after value i hsignals hvalue hcovers hafter
    have hupper := (hplaces signal (by simp [hsignals])).room
    have hle := hcovers.2
    rw [habove i (by omega), hsignals, Signal.overwrite_last hvalue hcovers hafter]
  refine ⟨hwidth, Word.ofText_text word, ?_, ?_, ?_, ?_, ?_⟩
  · have hbank := bank_lt hroom ha
    have hle : 2 ^ min program.bankMask.length 64 ≤ 2 ^ program.bankMask.length :=
      Nat.pow_le_pow_right (by decide) (Nat.min_le_left _ _)
    omega
  · intro i hi
    exact Word.get_of_getElem? (hlow i hi)
  · intro before signal after value hsignals hvalue hafter
    have hplace := hplaces signal (by simp [hsignals])
    refine Word.readMask_eq hplace.fits (hwidth ▸ hplace.room) fun i hi => ?_
    rw [Nat.add_comm]
    refine hlast before signal after value i hsignals hvalue hi fun later hlater hcovers => ?_
    have hoverlaps := (Mask.overlaps_iff _ _).2 ⟨i, hi, hcovers⟩
    rw [hafter later hlater] at hoverlaps
    cases hoverlaps
  · intro before signal after value i hsignals hvalue hcovers hafter
    exact Word.get_of_getElem? (hlast before signal after value i hsignals hvalue hcovers hafter)
  · intro i hi hnone
    apply Word.get_of_getElem?
    rw [habove i hi, Signal.overwrite_of_not_covers hnone]

/-- The word of an assertion can be decoded. Let the assertion be made by adding signals on control
lines of a program that was read, and let all of its values be numbers. Then it has a word, and the
bank, the signals and the bits that none of them covers can be read from the word. A warning is
given for each signal whose range does not hold its value, in order, and for no other signal. -/
theorem encode_decodes {text : String} (hread : program.ReadFrom text)
    (hbuilt : a.BuiltFrom program.controls) (hresolved : a.IsResolved) :
    ∃ word, (program.encode a).result = .ok word ∧ program.Decodes a word ∧
      (program.encode a).log = a.signals.flatMap (Signal.truncation a.line) := by
  have hroom := hread.hasRoom
  obtain ⟨word, hword, hwidth, hlow, habove⟩ :=
    exists_encode hread.sized hread.grounded.selector hroom hbuilt.grounded hresolved
  rw [hword]
  exact ⟨word, rfl, decodes_of_bits hread.sized hroom hbuilt.grounded hwidth hlow habove, rfl⟩

/-- A text with a control line on the bank 2, whose range is written from its low end on. -/
def controlText : String :=
  "config { controlwordwidth 6 microprogramlength 1 opwidth 1 bankmask 1 } control c 2 0:2"

/-- An assertion that sets the three bits of the control line to 9. -/
def nineAssertion : Assertion :=
  { line := 1, bank := 2, signals := [⟨⟨"c", ⟨0, 2⟩, 2⟩, .integer 9⟩] }

/-- There is a program, and an assertion of its controls that sets a value too large for its
control. -/
theorem exists_builtFrom_controlText : ∃ program : Program, program.ReadFrom controlText ∧
    nineAssertion.BuiltFrom program.controls := by
  have hread : ((Reader.readText controlText).run {}).result = .ok () ∧
      ((Reader.readText controlText).run {}).state.program.controls["c"]? =
        some ⟨"c", ⟨0, 2⟩, 2⟩ := by
    decide +kernel
  exact ⟨_, ⟨_, ⟨hread.1, rfl⟩, rfl⟩, .add (.new 1) hread.2 rfl⟩

/-- Of the 9 the word holds the low three bits, above the two bits of the bank. -/
theorem encode_decodes_nineAssertion : ∃ (program : Program) (word : Word),
    program.ReadFrom controlText ∧ nineAssertion.BuiltFrom program.controls ∧
    nineAssertion.IsResolved ∧ (program.encode nineAssertion).result = .ok word ∧
    (∀ i < program.bankMask.length, word.get i = .ok (Nat.testBit 2 i)) ∧
    word.readMask ⟨0, 2⟩ program.bankMask.length = .ok 1 := by
  obtain ⟨program, hread, hbuilt⟩ := exists_builtFrom_controlText
  have hresolved : nineAssertion.IsResolved := by
    intro signal hsignal
    rw [List.mem_singleton.1 hsignal]
    exact ⟨9, rfl⟩
  obtain ⟨word, hword, hdecodes, -⟩ := encode_decodes hread hbuilt hresolved
  refine ⟨program, word, hread, hbuilt, hresolved, hword, hdecodes.bank, ?_⟩
  exact hdecodes.signal [] _ [] 9 rfl rfl (by simp)

end Program

end ControlStore
