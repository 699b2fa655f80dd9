/-!
# Classes of characters

The characters with the Unicode property `White_Space`, the removal of blanks from both ends of a
text, and two ways of ignoring the case of letters. Words are compared without regard to the case of
ASCII letters only, or after mapping every character to lower case. The second matters where the word
is compared with an ASCII spelling: besides the capitals `A` to `Z`, the Kelvin sign is the one
character whose lower case is an ASCII letter.
-/

namespace ControlStore

/-! ## Blanks -/

/-- The ranges of code points with the property `White_Space`, in ascending order. -/
def blankRanges : List (Nat × Nat) :=
  [(0x09, 0x0D), (0x20, 0x20), (0x85, 0x85), (0xA0, 0xA0), (0x1680, 0x1680), (0x2000, 0x200A),
    (0x2028, 0x2029), (0x202F, 0x202F), (0x205F, 0x205F), (0x3000, 0x3000)]

/-- Is the character white space? -/
def isBlank (c : Char) : Bool :=
  blankRanges.any fun range => range.1 ≤ c.toNat && c.toNat ≤ range.2

/-- The text without the blanks at its two ends. -/
def trimBlanks (text : List Char) : List Char :=
  ((text.dropWhile isBlank).reverse.dropWhile isBlank).reverse

/-- The number of line breaks in a text. -/
def newlines (text : List Char) : Nat := text.count '\n'

/-- Twenty-five characters are blank. -/
example : (blankRanges.map fun range => range.2 - range.1 + 1).sum = 25 := by decide

/-! ## Letter case -/

/-- Lower case of an ASCII capital; every other character stays. -/
def lowerAscii (c : Char) : Char :=
  if 'A' ≤ c ∧ c ≤ 'Z' then Char.ofNat (c.toNat + 32) else c

/-- Lower case as far as it ends in an ASCII letter; every other character stays. -/
def lowerLetter (c : Char) : Char :=
  if c.toNat = 0x212A then 'k' else lowerAscii c

/-- Are two texts equal once the case of ASCII letters is ignored? -/
def equalIgnoringCase (text other : String) : Bool :=
  text.toList.map lowerAscii = other.toList.map lowerAscii

/-- The spelling under which a keyword is recognised. -/
def keyword (word : String) : String := String.ofList (word.toList.map lowerLetter)

end ControlStore
