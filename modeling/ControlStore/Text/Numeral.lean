import ControlStore.Bits.Pattern

/-!
# Numerals

Reading of integers that must fit into 64 bits, signed or unsigned, and writing of numbers in
binary with leading zeros.
-/

namespace ControlStore

/-- The value of a digit in a radix of at most 16. Letters count in either case. -/
def digitValue? (radix : Nat) (c : Char) : Option Nat :=
  let value :=
    if '0' ≤ c ∧ c ≤ '9' then c.toNat - '0'.toNat
    else if 'a' ≤ c ∧ c ≤ 'f' then c.toNat - 'a'.toNat + 10
    else if 'A' ≤ c ∧ c ≤ 'F' then c.toNat - 'A'.toNat + 10
    else radix
  if value < radix then some value else none

/-- The number written by one or more digits. -/
def natural? (radix : Nat) : List Char → Option Nat
  | [] => none
  | digits => digits.foldlM (fun n c => (digitValue? radix c).map (radix * n + ·)) 0

/-- A number with an optional plus sign that fits into 64 bits. -/
def unsigned? (text : List Char) : Option Nat :=
  let digits := match text with
    | '+' :: digits => digits
    | digits => digits
  (natural? 10 digits).filter (· ≤ maxPattern)

/-- A number with an optional sign, in the range of signed 64-bit integers. -/
def signed? (radix : Nat) (text : List Char) : Option Int :=
  let value := match text with
    | '+' :: digits => (natural? radix digits).map Int.ofNat
    | '-' :: digits => (natural? radix digits).map fun n => -(n : Int)
    | digits => (natural? radix digits).map Int.ofNat
  value.filter fun n => decide (InRange n)

/-- Binary digits of `n`, the most significant first, with zeros in front up to `width` digits.
More digits are written where `n` needs them. -/
def binary (width n : Nat) : String :=
  let places := max width (n.log2 + 1)
  String.ofList <| (List.range places).reverse.map fun place =>
    if n.testBit place then '1' else '0'

example : unsigned? "+18446744073709551615".toList = some maxPattern := by decide
example : signed? 10 "-9223372036854775808".toList = some (-0x8000000000000000) := by decide
example : signed? 16 "-fF".toList = some (-255) := by decide
example : signed? 10 "+".toList = none := by decide

end ControlStore
