import ControlStore.Proofs.Overflow
import ControlStore.Proofs.Source.Grammar
import ControlStore.Proofs.Source.Range
import ControlStore.Proofs.Source.Reached

/-!
# Sizes in a program's text

Every number in a text is a signed 64-bit integer, and where it becomes a width, a bank, a position or
an opcode, it is not negative. So a program has none but signed numbers, whatever texts it was read
from and however they ended (`Reader.Reached.sized`). Then no operation of its check overflows, and
neither does the place of a signal in a word (`Reader.Reached.validate_fits`).
-/

namespace ControlStore

/-- The positions that a control line is written with are signed 64-bit integers. -/
theorem Mask.Written.sized {mask : Mask} {kind : TokenKind} (h : mask.Written kind)
    (hkind : kind.InRange) : mask.Sized := by
  cases h with
  | position bit =>
    have hbit := lt_of_inRange hkind
    exact Nat.max_lt.2 ⟨hbit, hbit⟩
  | range msb lsb => exact Nat.max_lt.2 ⟨lt_of_inRange hkind.1, lt_of_inRange hkind.2⟩

/-- The bank of an unfinished control line is a signed 64-bit integer. -/
def Context.Sized : Context → Prop
  | .controlMask _ bank => bank < 0x8000000000000000
  | _ => True

/-- A token that only leads on may be the bank of a control line. -/
theorem Context.Passes.sized {token : Token} {context next : Context}
    (htoken : token.kind.InRange) (hmove : Passes token context next) : next.Sized := by
  cases hmove with
  | keyword _ hnext =>
    unfold Context.ofKeyword? at hnext
    split at hnext <;> cases hnext <;> trivial
  | controlBank hkind =>
    rw [hkind] at htoken
    exact lt_of_inRange htoken
  | _ => trivial

namespace Program

/-- A program without settings is within bounds. -/
theorem sized_empty : ({} : Program).Sized where
  wordWidth := by decide
  opcodeWidth := by decide
  length := by decide
  bankMask := by decide
  control := by simp
  opcode := by simp

/-- A setting within bounds keeps the program within them. -/
theorem Sized.configure {program : Program} (h : program.Sized) {value : Nat}
    (hvalue : value < 0x8000000000000000) (setting : Setting) :
    (program.configure value setting).Sized := by
  cases setting with
  | wordWidth => exact { h with wordWidth := hvalue }
  | length => exact { h with length := hvalue }
  | opcodeWidth => exact { h with opcodeWidth := hvalue }
  | bankMask =>
    have hzero : 0 < 0x8000000000000000 := by decide
    exact { h with bankMask := Nat.max_lt.2 ⟨hvalue, hzero⟩ }

end Program

namespace Reader

/-- What a token completes has signed numbers. -/
theorem Completes.sized {token : Token} {program final : Program} {context next : Context}
    (htoken : token.kind.InRange) (hmove : Completes token program context next final)
    (hcontext : context.Sized) (h : program.Sized) : next.Sized ∧ final.Sized := by
  cases hmove with
  | @control name bank mask hmask _ =>
    refine ⟨trivial, { h with control := fun other control hcontrol => ?_ }⟩
    -- the control is the new one, or was declared before
    rw [Std.TreeMap.getElem?_insert] at hcontrol
    split at hcontrol
    · cases hcontrol
      exact ⟨(maskOf?_eq_some_iff.1 hmask).sized htoken, hcontext⟩
    · exact h.control other control hcontrol
  | opcode hkind =>
    rw [hkind] at htoken
    refine ⟨trivial, { h with opcode := fun other hother => ?_ }⟩
    rcases Std.TreeMap.mem_insert.1 hother with hsame | hother
    · rw [← Nat.compare_eq_eq.1 hsame]
      exact lt_of_inRange htoken.1
    · exact h.opcode other hother
  | _ => exact ⟨trivial, { h with }⟩

/-- With every token, the numbers of a program stay signed. -/
theorem Move.sized {token : Token} {reader final : Reader} {context next : Context}
    (htoken : token.kind.InRange) (hmove : Move token reader context next final)
    (hcontext : context.Sized) (h : reader.program.Sized) : next.Sized ∧ final.program.Sized := by
  cases hmove with
  | pass hpasses => exact ⟨hpasses.sized htoken, h⟩
  | complete hcompletes => exact hcompletes.sized htoken hcontext h
  | configure hkind =>
    rw [hkind] at htoken
    exact ⟨trivial, h.configure (lt_of_inRange htoken) _⟩

/-- Whatever a reader has read is within bounds. -/
theorem Reached.sized {reader : Reader} (h : reader.Reached) : reader.program.Sized :=
  h.invariant
    (fun _ _ _ _ _ htoken hcontext hprogram hmove => hmove.sized htoken.inRange hcontext hprogram)
    trivial Program.sized_empty

/-- Whatever has been read, no operation in the check of the program overflows up to where the check
ends, and if it is passed, no operation overflows that moves the bank selector or a control line to
its place in a word. -/
theorem Reached.validate_fits {reader : Reader} (h : reader.Reached) :
    reader.program.Sized ∧
    reader.program.validate64.run = some reader.program.validate ∧
    (reader.program.validate = .ok () →
      reader.program.bankMask.shift64 0 = some (reader.program.bankMask.shift 0) ∧
      ∀ (name : String) (control : Control), reader.program.controls[name]? = some control →
        reader.program.placed64 control =
          some (control.mask.shift reader.program.bankMask.length)) := by
  have hsized := h.sized
  refine ⟨hsized, congrArg ExceptT.run (Program.validate64_eq hsized), fun hvalid => ⟨?_, ?_⟩⟩
  · exact Mask.shift64_eq_some_iff.2 ⟨Nat.le_of_lt hsized.bankMask.upper_lt, rfl⟩
  · intro name control hcontrol
    -- a control that has room ends inside the word, which is within bounds
    have hroom := Program.hasRoom_of_validate hvalid
    exact Program.placed64_eq_some_iff.2 ⟨hsized.moved_le hroom hcontrol, rfl⟩

/-- A text at the limits: the selector leaves two bits of the widest word there can be. -/
def crampedText : String :=
  "config \x7b controlwordwidth 9223372036854775807 microprogramlength 1 opwidth 31\n" ++
    "bankmask 9223372036854775804 \x7d control near 0 1"

/-- A text that adds a control line at the highest position there can be. -/
def farText : String := "control far 0 9223372036854775807"

def crampedReader : Reader := ((read (.ok crampedText)).run {}).state

def farReader : Reader := ((read (.ok farText)).run crampedReader).state

/-- The first text is accepted and its control line has a place. The second one is refused, with the
room that there would have been: that the range would end close to the limit of 64 bits is found out
without an overflow. -/
theorem Reached.validate_fits_crampedText :
    crampedReader.program.validate = .ok () ∧
    crampedReader.program.controls["near"]? = some { name := "near", mask := .single 1, bank := 0 } ∧
    crampedReader.program.placed64 { name := "near", mask := .single 1, bank := 0 } =
      some (.single 9223372036854775806) ∧
    farReader.program.validate = .error (.controlTooWide "far" 2) ∧
    farReader.program.validate64.run = some (.error (.controlTooWide "far" 2)) := by
  have hcramped : crampedReader.Reached := .read .new _
  have hfar : farReader.Reached := hcramped.read _
  have hread : crampedReader.program.validate = .ok () ∧
      crampedReader.program.controls["near"]? =
        some { name := "near", mask := .single 1, bank := 0 } ∧
      crampedReader.program.bankMask.length = 9223372036854775805 ∧
      farReader.program.validate = .error (.controlTooWide "far" 2) := by
    decide +kernel
  obtain ⟨hvalid, hnear, hlength, hrefused⟩ := hread
  refine ⟨hvalid, hnear, ?_, hrefused, ?_⟩
  · obtain ⟨-, hplaced⟩ := hcramped.validate_fits.2.2 hvalid
    rw [hplaced "near" _ hnear, hlength]
    rfl
  · rw [hfar.validate_fits.2.1, hrefused]

end Reader

/-- A program that was read from one text has none but signed numbers. -/
theorem Program.ReadFrom.sized {text : String} {program : Program} (h : program.ReadFrom text) :
    program.Sized := by
  obtain ⟨reader, ⟨-, rfl⟩, rfl⟩ := h
  have hreached : ((Reader.read (.ok text)).run {}).state.Reached := .read .new _
  exact hreached.sized

end ControlStore
