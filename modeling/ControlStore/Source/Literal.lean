import ControlStore.Source.Error
import ControlStore.Source.Token
import ControlStore.Text.Numeral

/-!
# Literals

A run of characters is a number if it is spelled like one, and a word otherwise. Numbers are
decimal or hexadecimal, and a number may be followed by a bit selector in brackets, which cuts a
slice out of its pattern: `0xF0[7:4]` is 15.
-/

namespace ControlStore

/-- The base and the range of a text of the form `base[range]` with a base that is not empty. -/
def selector? (text : List Char) : Option (List Char × List Char) :=
  if text.getLast? = some ']' then
    match splitOnce '[' text.dropLast with
    | some (base, range) => if base = [] then none else some (base, range)
    | none => none
  else none

/-- The range of bits that a selector spells: one position, or two with a colon between them. -/
def range? (text : List Char) : Option Mask :=
  match splitOnce ':' text with
  | some (msb, lsb) => do return ⟨← unsigned? msb, ← unsigned? lsb⟩
  | none => (unsigned? text).map Mask.single

/-- The number that a text without selector spells, if it is not a word. What starts like a
hexadecimal number has to be one. -/
def number? (text : List Char) : Except LexicalError (Option Int) :=
  match text with
  | '0' :: 'x' :: digits =>
    match signed? 16 digits with
    | some value => .ok (some value)
    | none => .error .malformedHexadecimal
  | _ => .ok (signed? 10 text)

/-- The bits of a range in the pattern of a value, as a number of their own. -/
def slice (value : Int) (mask : Mask) : Except LexicalError Int :=
  match mask.toPattern with
  | .ok bits => .ok (ofPattern ((pattern value &&& bits) >>> mask.lower))
  | .error error => .error (.selector error)

/-- The number that a text spells, if it is not a word. -/
def literal? (text : List Char) : Except LexicalError (Option Int) :=
  match selector? text with
  | none => number? text
  | some (base, range) =>
    match range? range with
    | none => .error (.invalidSelector (String.ofList text))
    | some mask => do
      match ← number? base with
      | some value => return some (← slice value mask)
      | none => return none

/-- A text as a value: the number it spells, or a symbol. -/
def Value.ofText (text : List Char) : Except LexicalError Value := do
  match ← literal? text with
  | some value => return .integer value
  | none => return .symbol (String.ofList text)

/-- A text as a token: the number it spells, or a word. -/
def TokenKind.ofText (text : List Char) : Except LexicalError TokenKind := do
  match ← literal? text with
  | some value => return .integer value
  | none => return .word (String.ofList text)

end ControlStore
