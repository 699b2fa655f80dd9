/-!
# Sixty-four-bit patterns

Asserted values are signed integers of 64 bits. A control word stores the two's complement
pattern of a value, and an address becomes a value by reading its pattern back. The two
conversions, the largest number that a pattern can be, and what becomes of a sum beyond it, are kept
here.
-/

namespace ControlStore

/-- The largest number that 64 bits can hold. -/
def maxPattern : Nat := 0xFFFFFFFFFFFFFFFF

/-- The low 64 bits of a sum. Beyond the largest number it starts again at zero. -/
def wrap (n : Nat) : Nat := n % 0x10000000000000000

/-- The two's complement pattern of an integer in 64 bits, read as an unsigned number. -/
def pattern (value : Int) : Nat := (value % 0x10000000000000000).toNat

/-- The signed integer that has the low 64 bits of `n` as its pattern. -/
def ofPattern (n : Nat) : Int := (n : Int).bmod 0x10000000000000000

/-- Is `value` within the range of signed 64-bit integers? -/
def InRange (value : Int) : Prop := -0x8000000000000000 ≤ value ∧ value < 0x8000000000000000

instance (value : Int) : Decidable (InRange value) :=
  inferInstanceAs (Decidable (_ ∧ _))

/-- A pattern fits into 64 bits. -/
theorem pattern_le (value : Int) : pattern value ≤ maxPattern := by
  unfold pattern maxPattern
  omega

/-- A sum that 64 bits can hold stays what it is. -/
theorem wrap_of_le {n : Nat} (h : n ≤ maxPattern) : wrap n = n := by
  unfold maxPattern at h
  exact Nat.mod_eq_of_lt (by omega)

end ControlStore
