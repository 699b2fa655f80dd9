import ControlStore.Bits.Mask

/-!
# Words

A `Word` is a sequence of bits of fixed width; position 0 is the least significant bit. Its text
has the most significant bit first. Ranges are read and written by their two ends in either
order, and carry at most 64 bits of value: what lies above the 64th place of a range is written
as zero and not read.
-/

namespace ControlStore

/-- A sequence of bits, the least significant first. -/
structure Word where
  bits : List Bool
  deriving DecidableEq, Repr, Inhabited

namespace Word

def width (word : Word) : Nat := word.bits.length

/-- The word of the given width with no bit set. -/
def zero (width : Nat) : Word := ⟨List.replicate width false⟩

/-- Refuses a position that lies beyond the end of the word. -/
def checkIndex (word : Word) (index : Nat) : Except BitError Unit :=
  if index < word.width then .ok () else .error (.indexOutOfRange index word.width)

def get (word : Word) (index : Nat) : Except BitError Bool := do
  word.checkIndex index
  return word.bits[index]?.getD false

def set (word : Word) (index : Nat) (bit : Bool) : Except BitError Word := do
  word.checkIndex index
  return ⟨word.bits.set index bit⟩

/-- The number whose binary digits are the given bits, the least significant first. -/
def valueOf : List Bool → Nat
  | [] => 0
  | bit :: bits => bit.toNat + 2 * valueOf bits

/-- The value held between two positions, both included: the low 64 bits of it at most. -/
def readRange (word : Word) (a b : Nat) : Except BitError Nat := do
  word.checkIndex a
  word.checkIndex b
  let lo := min a b
  let hi := max a b
  return valueOf ((word.bits.drop lo).take (min (hi - lo + 1) 64))

/-- Stores a 64-bit value between two positions, both included. High bits of the value that the
range has no room for are dropped. -/
def writeRange (word : Word) (a b value : Nat) : Except BitError Word := do
  word.checkIndex a
  word.checkIndex b
  let lo := min a b
  let hi := max a b
  return ⟨word.bits.mapIdx fun i bit =>
    if lo ≤ i ∧ i ≤ hi then decide (i - lo < 64) && value.testBit (i - lo) else bit⟩

/-- The value in the bits of a range that is moved up by `offset`. -/
def readMask (word : Word) (mask : Mask) (offset : Nat) : Except BitError Nat :=
  let moved := mask.shift offset
  word.readRange moved.msb moved.lsb

/-- Stores a value in the bits of a range that is moved up by `offset`. -/
def writeMask (word : Word) (mask : Mask) (offset value : Nat) : Except BitError Word :=
  let moved := mask.shift offset
  word.writeRange moved.msb moved.lsb value

def digit (bit : Bool) : Char := if bit then '1' else '0'

def ofDigit : Char → Except BitError Bool
  | '0' => .ok false
  | '1' => .ok true
  | c => .error (.invalidDigit c)

/-- The digits of the word, the most significant first. -/
def text (word : Word) : String := String.ofList (word.bits.reverse.map digit)

/-- Reads a word from its digits. Digits are read from the least significant end, so of two bad
characters the last one is reported. -/
def ofText (text : String) : Except BitError Word := do
  return ⟨← text.toList.reverse.mapM ofDigit⟩

/-- A new word has the width that is asked for. -/
@[simp]
theorem width_zero (width : Nat) : (zero width).width = width := by
  simp [zero, Word.width]

/-- A digit is read back as its bit. -/
@[simp]
theorem ofDigit_digit (bit : Bool) : ofDigit (digit bit) = .ok bit := by
  cases bit <;> rfl

/-- A word is read back from its own text. -/
theorem ofText_text (word : Word) : ofText word.text = .ok word := by
  have h : ∀ bits : List Bool, (bits.map digit).mapM ofDigit = Except.ok bits := by
    intro bits
    induction bits with
    | nil => rfl
    | cons b bs ih => simp [List.mapM_cons, ih]; rfl
  simp only [ofText, text, String.toList_ofList, ← List.map_reverse, List.reverse_reverse, h]
  rfl

end Word

end ControlStore
