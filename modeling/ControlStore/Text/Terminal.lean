/-!
# Terminal controls

A terminal takes some characters not as text but as commands: the control characters, and the
sequences that an escape character begins. `Terminal.plainText` is what is left of a text without
them. The text is followed character by character, and a `Terminal.Phase` says how far a sequence
has come.

Of the control characters only blanks are kept. A blank does not end the sequence it stands in, but
interrupts it: the text behind the blank is kept up to the next control character, and there the
sequence goes on. A character beyond ASCII in that text ends the sequence for good.
-/

namespace ControlStore

namespace Terminal

/-- How far a control sequence has come. -/
inductive Phase where
  /-- Outside of sequences. -/
  | text
  /-- Right after an escape character. -/
  | escape
  /-- After an escape character and intermediate characters. -/
  | intermediate
  /-- In a list of parameters, which a letter ends. -/
  | parameters
  /-- At the start of a device control string. -/
  | device
  /-- In the parameters of a device control string. -/
  | deviceParameters
  /-- In the intermediate characters of a device control string. -/
  | deviceIntermediate
  /-- In a string that only a terminator ends. -/
  | string
  /-- In a command for the system around the terminal, which a bell ends. -/
  | command
  deriving DecidableEq, Repr

/-- Does the code of the character lie between the two bounds? -/
def within (low high : Nat) (c : Char) : Bool := low ≤ c.toNat && c.toNat ≤ high

/-- The control characters that are kept: tab, line feed, form feed and carriage return. -/
def isBlankControl (c : Char) : Bool := c = '\t' || c = '\n' || c = '\x0c' || c = '\r'

/-- Does the string terminator, which is the byte 9C, occur among the bytes that encode the
character? In a character of several bytes each byte but the first holds six bits. -/
def holdsTerminator (c : Char) : Bool :=
  (0x80 ≤ c.toNat && c.toNat % 64 = 28) || (0x800 ≤ c.toNat && c.toNat / 64 % 64 = 28) ||
    (0x10000 ≤ c.toNat && c.toNat / 4096 % 64 = 28)

namespace Phase

/-- Is the character kept, if nothing has interrupted the sequence? -/
def keeps (phase : Phase) (c : Char) : Bool :=
  match phase with
  | .text => isBlankControl c || (0x20 ≤ c.toNat && c ≠ '\x7f')
  | .escape | .intermediate | .parameters => isBlankControl c
  | .device | .deviceParameters | .deviceIntermediate | .string | .command => false

/-- The phase after a character that does its part in the sequence. -/
def advance (phase : Phase) (c : Char) : Phase :=
  match phase with
  | .text => .text
  | .escape =>
    if within 0x20 0x2f c then .intermediate
    else if c = '[' then .parameters
    else if c = 'P' then .device
    else if c = ']' then .command
    else if c = 'X' || c = '^' || c = '_' then .string
    else if within 0x30 0x7e c then .text
    else .escape
  | .intermediate => if within 0x30 0x7e c then .text else .intermediate
  | .parameters => if within 0x40 0x7e c then .text else .parameters
  | .device =>
    if within 0x20 0x2f c then .deviceIntermediate
    else if within 0x30 0x3f c then .deviceParameters
    else if within 0x40 0x7e c then .string
    else .device
  | .deviceParameters =>
    if within 0x20 0x2f c then .deviceIntermediate
    else if within 0x3c 0x7e c then .string
    else .deviceParameters
  | .deviceIntermediate => if within 0x30 0x7e c then .string else .deviceIntermediate
  | .string => if holdsTerminator c then .text else .string
  | .command => if c = '\x07' then .text else .command

/-- The phase after a character that is not kept. Everywhere, an escape character begins a new
sequence, and a cancel or a substitute character ends the sequence. -/
def next (phase : Phase) (c : Char) : Phase :=
  if c = '\x18' || c = '\x1a' then .text
  else if c = '\x1b' then .escape
  else phase.advance c

end Phase

/-- Where a text stands between two characters. -/
structure Cursor where
  phase : Phase := .text
  /-- Has a blank interrupted the sequence? -/
  interrupted : Bool := false
  deriving DecidableEq, Repr

namespace Cursor

/-- Is the character kept? -/
def keeps (cursor : Cursor) (c : Char) : Bool :=
  if cursor.interrupted then Phase.keeps .text c else cursor.phase.keeps c

/-- The cursor behind a character. -/
def next (cursor : Cursor) (c : Char) : Cursor :=
  if cursor.keeps c then
    { phase := if 0x80 ≤ c.toNat then .text else cursor.phase, interrupted := true }
  else { phase := cursor.phase.next c }

/-- The characters that are kept of the text behind the cursor. -/
def filter (cursor : Cursor) : List Char → List Char
  | [] => []
  | c :: cs =>
    let rest := (cursor.next c).filter cs
    if cursor.keeps c then c :: rest else rest

end Cursor

/-- A text without its control characters and control sequences. -/
def plainText (text : String) : String := String.ofList (Cursor.filter {} text.toList)

end Terminal

end ControlStore
