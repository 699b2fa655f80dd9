import ControlStore.Proofs.Image.Encoding

/-!
# Words without overflow

The ends of a range that is moved above the bank selector may leave 64 bits. A machine then goes on
with the low bits of the sums, as `Program.encode` does, or it stops. `Program.encode64` is the
second one: the word of an assertion is written one operation at a time, and there is no answer where
the result of one does not fit.

Wherever it has a word, that is the word that `Program.encode` has. It has one exactly if no range is
moved beyond 64 bits (`Program.encode64_eq_ok_iff`).
-/

namespace ControlStore

namespace Program

variable {ε α β : Type}

/-! ## Computations that may stop -/

/-- Two computations one after the other have a result if both do. -/
theorem run_bind_eq_ok_iff {first : ExceptT ε Option α} {next : α → ExceptT ε Option β} {b : β} :
    (first >>= next).run = some (.ok b) ↔
      ∃ a, first.run = some (.ok a) ∧ (next a).run = some (.ok b) := by
  constructor
  · intro h
    obtain ⟨result, hfirst, h⟩ := Option.bind_eq_some_iff.1 h
    cases result with
    | error cause => cases h
    | ok a => exact ⟨a, hfirst, h⟩
  · rintro ⟨a, hfirst, hnext⟩
    exact Option.bind_eq_some_iff.2 ⟨.ok a, hfirst, hnext⟩

/-- An operation alone has the result that it has an answer with. -/
theorem run_liftM_eq_ok_iff {answer : Option α} {a : α} :
    (liftM answer : ExceptT ε Option α).run = some (.ok a) ↔ answer = some a := by
  cases answer with
  | none => exact iff_of_false (by rintro ⟨⟩) (by rintro ⟨⟩)
  | some b =>
    constructor
    · rintro ⟨⟩
      rfl
    · rintro ⟨⟩
      rfl

/-! ## Writing signals -/

/-- Writes a signal into a word. The largest value of its range is needed for a warning. -/
def writeSignal64 (program : Program) (line : Nat) (word : Word) (signal : Signal) :
    ExceptT WriteError Option Word :=
  match signal.value with
  | .symbol name => throw (.unresolved name line)
  | .integer value => do
    let _ ← signal.control.mask.maxValue64
    let moved ← program.placed64 signal.control
    fitting ((word.writeRange moved.msb moved.lsb (pattern value)).mapError (WriteError.bits line))

/-- The word that an assertion describes. -/
def encode64 (program : Program) (a : Assertion) : ExceptT WriteError Option Word := do
  let selector ← program.bankMask.shift64 0
  let word ← fitting (((Word.zero program.wordWidth).writeRange selector.msb selector.lsb
    a.bank).mapError (WriteError.bits a.line))
  a.signals.foldlM (program.writeSignal64 a.line) word

/-- No range is moved beyond 64 bits for the word of an assertion. -/
structure IsExact (program : Program) (a : Assertion) : Prop where
  selector : program.bankMask.upper ≤ maxPattern
  signal : ∀ signal ∈ a.signals,
    signal.control.mask.upper + program.bankMask.length ≤ maxPattern

variable {program : Program} {a : Assertion} {line : Nat} {word written : Word}

/-- A signal is written if it can be moved to its place, and as it is written in general. -/
theorem writeSignal64_eq_ok_iff {signal : Signal} :
    (program.writeSignal64 line word signal).run = some (.ok written) ↔
      signal.control.mask.upper + program.bankMask.length ≤ maxPattern ∧
        (program.writeSignal line word signal).result = .ok written := by
  unfold writeSignal64 writeSignal
  -- a name has no number, so neither run writes anything
  cases signal.value with
  | symbol name => exact iff_of_false (by rintro ⟨⟩) (by rintro ⟨-, ⟨⟩⟩)
  | integer value =>
    constructor
    · intro h
      obtain ⟨_, -, h⟩ := run_bind_eq_ok_iff.1 h
      obtain ⟨moved, hmoved, h⟩ := run_bind_eq_ok_iff.1 h
      obtain ⟨hfits, rfl⟩ := placed64_eq_some_iff.1 (run_liftM_eq_ok_iff.1 hmoved)
      exact ⟨hfits, Option.some.inj h⟩
    · rintro ⟨hfits, h⟩
      -- the selector has a bit at least, so the largest value of the range can be found
      have hupper : signal.control.mask.upper < maxPattern := by
        unfold Mask.length at hfits
        omega
      refine run_bind_eq_ok_iff.2 ⟨_, run_liftM_eq_ok_iff.2 (Mask.maxValue64_eq hupper), ?_⟩
      refine run_bind_eq_ok_iff.2
        ⟨_, run_liftM_eq_ok_iff.2 (placed64_eq_some_iff.2 ⟨hfits, rfl⟩), ?_⟩
      exact congrArg some h

/-- Signals are written one after the other if all of them can be moved to their places. -/
theorem writeSignals64_eq_ok_iff {signals : List Signal} :
    (signals.foldlM (program.writeSignal64 line) word).run = some (.ok written) ↔
      (∀ signal ∈ signals, signal.control.mask.upper + program.bankMask.length ≤ maxPattern) ∧
        (signals.foldlM (program.writeSignal line) word).result = .ok written := by
  induction signals generalizing word with
  | nil =>
    constructor
    · rintro ⟨⟩
      exact ⟨by simp, rfl⟩
    · rintro ⟨-, ⟨⟩⟩
      rfl
  | cons signal signals ih =>
    rw [List.foldlM_cons, List.foldlM_cons, run_bind_eq_ok_iff, Report.result_bind_eq_ok_iff,
      List.forall_mem_cons]
    constructor
    · rintro ⟨first, hfirst, hrest⟩
      obtain ⟨hfits, hfirst⟩ := writeSignal64_eq_ok_iff.1 hfirst
      obtain ⟨hothers, hrest⟩ := ih.1 hrest
      exact ⟨⟨hfits, hothers⟩, first, hfirst, hrest⟩
    · rintro ⟨⟨hfits, hothers⟩, first, hfirst, hrest⟩
      exact ⟨first, writeSignal64_eq_ok_iff.2 ⟨hfits, hfirst⟩, ih.2 ⟨hothers, hrest⟩⟩

/-- An assertion has a word without overflow exactly if it has that word and no range is moved
beyond 64 bits for it. -/
theorem encode64_eq_ok_iff : (program.encode64 a).run = some (.ok word) ↔
    program.IsExact a ∧ (program.encode a).result = .ok word := by
  rw [encode64, encode, run_bind_eq_ok_iff, Report.result_bind_eq_ok_iff]
  constructor
  · rintro ⟨selector, hselector, h⟩
    obtain ⟨first, hfirst, hsignals⟩ := run_bind_eq_ok_iff.1 h
    obtain ⟨hfits, rfl⟩ := Mask.shift64_eq_some_iff.1 (run_liftM_eq_ok_iff.1 hselector)
    obtain ⟨hsignal, hword⟩ := writeSignals64_eq_ok_iff.1 hsignals
    exact ⟨⟨hfits, hsignal⟩, first, Option.some.inj hfirst, hword⟩
  · rintro ⟨⟨hfits, hsignal⟩, first, hfirst, hword⟩
    refine ⟨_, run_liftM_eq_ok_iff.2 (Mask.shift64_eq_some_iff.2 ⟨hfits, rfl⟩), ?_⟩
    refine run_bind_eq_ok_iff.2 ⟨first, congrArg some hfirst, ?_⟩
    exact writeSignals64_eq_ok_iff.2 ⟨hsignal, hword⟩

end Program

end ControlStore
