import ControlStore.Bits.Pattern

/-!
# Bit ranges

A `Mask` names a range of bits by its two ends. The order in which the ends were written is
kept, because it is shown again; which bits belong to the range depends only on the smaller
and the larger end.
-/

namespace ControlStore

/-- An inclusive range of bit positions, with its two ends in the order they were written. -/
structure Mask where
  msb : Nat
  lsb : Nat
  deriving DecidableEq, Repr, Inhabited

/-- What can go wrong when bits are addressed. -/
inductive BitError where
  /-- A position lies beyond the end of a word. -/
  | indexOutOfRange (index width : Nat)
  /-- A range reaches past the highest bit of a 64-bit integer. -/
  | maskTooWide (mask : Mask)
  /-- A character other than `0` and `1` stands in the text of a word. -/
  | invalidDigit (digit : Char)
  deriving DecidableEq, Repr

namespace Mask

/-- The range that holds one bit only. -/
def single (bit : Nat) : Mask := ⟨bit, bit⟩

def lower (mask : Mask) : Nat := min mask.msb mask.lsb

def upper (mask : Mask) : Nat := max mask.msb mask.lsb

/-- The number of bits in the range. -/
def length (mask : Mask) : Nat := mask.upper - mask.lower + 1

/-- The largest 64-bit number that fits into the range. -/
def maxValue (mask : Mask) : Nat := 1 <<< min mask.length 64 - 1

/-- Do the two ranges share a bit? -/
def overlaps (mask other : Mask) : Bool :=
  mask.lower ≤ other.upper && other.lower ≤ mask.upper

/-- The 64-bit number in which exactly the bits of the range are set. -/
def toPattern (mask : Mask) : Except BitError Nat :=
  if 64 ≤ mask.upper then .error (.maskTooWide mask)
  else .ok (mask.maxValue <<< mask.lower)

/-- The range moved `offset` bits towards the most significant end. An end that would leave 64 bits
starts again at zero. -/
def shift (mask : Mask) (offset : Nat) : Mask :=
  ⟨wrap (mask.msb + offset), wrap (mask.lsb + offset)⟩

/-- A range of one bit is written as its position, any other as `msb:lsb`. -/
def text (mask : Mask) : String :=
  if mask.msb = mask.lsb then toString mask.msb else s!"{mask.msb}:{mask.lsb}"

/-- Two ranges overlap exactly when some bit position lies in both. -/
theorem overlaps_iff (mask other : Mask) :
    mask.overlaps other = true ↔
      ∃ i, (mask.lower ≤ i ∧ i ≤ mask.upper) ∧ (other.lower ≤ i ∧ i ≤ other.upper) := by
  have h₁ : mask.lower ≤ mask.upper := by simp only [lower, upper]; omega
  have h₂ : other.lower ≤ other.upper := by simp only [lower, upper]; omega
  simp only [overlaps, Bool.and_eq_true, decide_eq_true_eq]
  constructor
  · intro ⟨h, h'⟩
    exact ⟨max mask.lower other.lower, by omega, by omega⟩
  · intro ⟨i, hi, hi'⟩
    omega

end Mask

/-- The wording of a bit error. -/
def BitError.message : BitError → String
  | .indexOutOfRange index width => s!"Bit index {index} is out of range for a {width}-bit field"
  | .maskTooWide mask => s!"Bit mask {mask.text} does not fit in a 64-bit integer"
  | .invalidDigit digit => s!"Invalid bit character '{digit}'"

end ControlStore
