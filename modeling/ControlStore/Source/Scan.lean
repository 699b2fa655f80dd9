import ControlStore.Source.Literal
import ControlStore.Text.Character

/-!
# From text to tokens

Reading goes from left to right. `nextPiece` takes one piece off the front of a text: blanks, a
comment, or the characters of one token. `scan` repeats it; each piece leaves less text behind
(`length_rest_of_nextPiece`).

Blocks, commas, lists and strings are recognised by their first character. Everything else is an
*atom*: a run of characters up to the next blank or delimiter. An atom that starts with `/*` opens
a block comment. If the comment's end is inside the atom the comment is that atom; otherwise it
ends with the first `*/` after it. Any other atom is a pair if a colon divides it, and a literal
if not.
-/

namespace ControlStore

/-- Does the character end an atom? -/
def isDelimiter (c : Char) : Bool :=
  isBlank c || c ∈ ['\x7b', '\x7d', '(', ')', ',', '#', '\x22', '\x27']

/-- What was found at the front of a text: a token or something to skip, the line that is reached
behind it, and the text that follows. -/
structure Piece where
  token : Option Token
  line : Nat
  rest : List Char

/-- States on which line a lexical error was found. -/
def onLine {α : Type} (line : Nat) (result : Except LexicalError α) : Except ParseError α :=
  result.mapError fun error => ⟨line, .lexical error⟩

/-- The text before the first `*/` and the text after it. -/
def splitComment : List Char → Option (List Char × List Char)
  | '*' :: '/' :: rest => some ([], rest)
  | c :: cs => (splitComment cs).map fun (before, after) => (c :: before, after)
  | [] => none

/-- A block comment whose opening atom is `/*` and `opening`, followed by `text`. -/
def commentPiece (line : Nat) (opening text : List Char) : Except ParseError Piece :=
  match splitComment opening, splitComment text with
  | some _, _ => .ok ⟨none, line, text⟩
  | none, some (before, rest) => .ok ⟨none, line + newlines before, rest⟩
  | none, none => .error ⟨line, .lexical .unfinishedComment⟩

/-- The values of a list, given entry by entry. The line of an entry is the one on which it
ends. -/
def listItems (line : Nat) : List (List Char) → Except ParseError (List Value)
  | [] => .ok []
  | entry :: entries => do
    let line := line + newlines entry
    let text := trimBlanks entry
    if text = [] then throw ⟨line, .lexical .emptyEntry⟩
    let value ← onLine line (Value.ofText text)
    return value :: (← listItems line entries)

/-- The values between two parentheses. A list may be empty, but none of its entries. -/
def listValues (line : Nat) (inside : List Char) : Except ParseError (List Value) :=
  if trimBlanks inside = [] then .ok [] else listItems line (splitAll ',' inside)

/-- A list in parentheses, after the opening one. A list without end is only reported as such if
the entries up to its last comma are in order. -/
def listPiece (line : Nat) (text : List Char) : Except ParseError Piece :=
  match splitOnce ')' text with
  | some (inside, rest) => do
    let items ← listValues line inside
    return ⟨some ⟨.list items, line⟩, line + newlines inside, rest⟩
  | none => do
    -- behind the last comma there is no complete entry to object to
    let _ ← listItems line (splitAll ',' text).dropLast
    throw ⟨line, .lexical .unfinishedList⟩

/-- A string, after its opening quote. -/
def stringPiece (line : Nat) (quote : Char) (text : List Char) : Except ParseError Piece :=
  match splitOnce quote text with
  | some (inside, rest) =>
    .ok ⟨some ⟨.string (String.ofList inside), line⟩, line + newlines inside, rest⟩
  | none => .error ⟨line, .lexical .unfinishedString⟩

/-- The key and the value of an atom that a colon divides. A colon at the start marks a label, and
one behind a bracket belongs to a bit selector. -/
def splitPair (atom : List Char) : Option (List Char × List Char) :=
  match splitOnce ':' atom with
  | some (key, value) => if key = [] ∨ '[' ∈ key then none else some (key, value)
  | none => none

/-- A pair whose value is the atom behind the blanks at the front of `text`. -/
def pairPiece (line : Nat) (key : Value) (text : List Char) : Except ParseError Piece := do
  let blanks := text.takeWhile isBlank
  let text := text.dropWhile isBlank
  let atom := text.takeWhile (!isDelimiter ·)
  if atom = [] then throw ⟨line, .lexical .missingValue⟩
  let value ← onLine line (Value.ofText atom)
  return ⟨some ⟨.pair key value, line⟩, line + newlines blanks, text.dropWhile (!isDelimiter ·)⟩

/-- The token that an atom spells. The value of a pair may stand apart from its colon. -/
def atomPiece (line : Nat) (atom text : List Char) : Except ParseError Piece := do
  match splitPair atom with
  | some (key, []) =>
    let key ← onLine line (Value.ofText key)
    pairPiece line key text
  | some (key, value) =>
    let key ← onLine line (Value.ofText key)
    let value ← onLine line (Value.ofText value)
    return ⟨some ⟨.pair key value, line⟩, line, text⟩
  | none =>
    let kind ← onLine line (TokenKind.ofText atom)
    return ⟨some ⟨kind, line⟩, line, text⟩

/-- Takes one piece off the front of the text `c :: cs`, which starts on the given line. -/
def nextPiece (line : Nat) (c : Char) (cs : List Char) : Except ParseError Piece :=
  if isBlank c then
    .ok ⟨none, line + newlines (c :: cs.takeWhile isBlank), cs.dropWhile isBlank⟩
  else if c = '#' then .ok ⟨none, line, cs.dropWhile (· ≠ '\n')⟩
  else if c = '\x7b' then .ok ⟨some ⟨.openBlock, line⟩, line, cs⟩
  else if c = '\x7d' then .ok ⟨some ⟨.closeBlock, line⟩, line, cs⟩
  else if c = ',' then .ok ⟨some ⟨.comma, line⟩, line, cs⟩
  else if c = '(' then listPiece line cs
  else if c = ')' then .error ⟨line, .lexical .unexpectedClose⟩
  else if c = '\x22' ∨ c = '\x27' then stringPiece line c cs
  else
    let text := cs.dropWhile (!isDelimiter ·)
    match c :: cs.takeWhile (!isDelimiter ·) with
    | '/' :: '*' :: opening => commentPiece line opening text
    | atom => atomPiece line atom text

/-! ## Every piece leaves less text behind -/

/-- What follows a comment is no longer than the text. -/
theorem length_of_splitComment {text before after : List Char}
    (h : splitComment text = some (before, after)) : after.length ≤ text.length := by
  fun_induction splitComment text generalizing before with
  | case1 rest => simp_all; omega
  | case2 c cs _ ih =>
    obtain ⟨⟨b, a⟩, hb, heq⟩ := Option.map_eq_some_iff.1 h
    simp only [Prod.mk.injEq] at heq
    obtain ⟨rfl, rfl⟩ := heq
    have := ih hb
    simp only [List.length_cons]
    omega
  | case3 => simp at h

/-- What follows a separator is no longer than the text. -/
theorem length_of_splitOnce {sep : Char} {text before after : List Char}
    (h : splitOnce sep text = some (before, after)) : after.length ≤ text.length := by
  rw [eq_of_splitOnce h]
  simp only [List.length_append, List.length_cons]
  omega

/-- A comment leaves no more text than there was behind its opening. -/
theorem length_rest_of_commentPiece {line : Nat} {opening text : List Char} {piece : Piece}
    (h : commentPiece line opening text = .ok piece) : piece.rest.length ≤ text.length := by
  unfold commentPiece at h
  split at h
  · cases h; exact Nat.le_refl _
  · next hrest => cases h; exact length_of_splitComment hrest
  · cases h

/-- A list leaves no more text than there was behind its parenthesis. -/
theorem length_rest_of_listPiece {line : Nat} {text : List Char} {piece : Piece}
    (h : listPiece line text = .ok piece) : piece.rest.length ≤ text.length := by
  unfold listPiece at h
  split at h
  · next hsplit =>
    obtain ⟨items, -, hpiece⟩ := bind_eq_ok_iff.1 h
    cases hpiece
    exact length_of_splitOnce hsplit
  · obtain ⟨items, -, hpiece⟩ := bind_eq_ok_iff.1 h
    cases hpiece

/-- A string leaves no more text than there was behind its quote. -/
theorem length_rest_of_stringPiece {line : Nat} {quote : Char} {text : List Char} {piece : Piece}
    (h : stringPiece line quote text = .ok piece) : piece.rest.length ≤ text.length := by
  unfold stringPiece at h
  split at h
  · next hsplit => cases h; exact length_of_splitOnce hsplit
  · cases h

/-- A pair leaves no more text than there was behind its colon. -/
theorem length_rest_of_pairPiece {line : Nat} {key : Value} {text : List Char} {piece : Piece}
    (h : pairPiece line key text = .ok piece) : piece.rest.length ≤ text.length := by
  unfold pairPiece at h
  dsimp only at h
  split at h
  · cases h
  · obtain ⟨value, -, hpiece⟩ := bind_eq_ok_iff.1 h
    cases hpiece
    exact ((List.dropWhile_sublist _).trans (List.dropWhile_sublist _)).length_le

/-- An atom leaves no more text than there was behind it. -/
theorem length_rest_of_atomPiece {line : Nat} {atom text : List Char} {piece : Piece}
    (h : atomPiece line atom text = .ok piece) : piece.rest.length ≤ text.length := by
  unfold atomPiece at h
  split at h
  · obtain ⟨key, -, hpiece⟩ := bind_eq_ok_iff.1 h
    exact length_rest_of_pairPiece hpiece
  · obtain ⟨key, -, hrest⟩ := bind_eq_ok_iff.1 h
    obtain ⟨value, -, hpiece⟩ := bind_eq_ok_iff.1 hrest
    cases hpiece
    exact Nat.le_refl _
  · obtain ⟨kind, -, hpiece⟩ := bind_eq_ok_iff.1 h
    cases hpiece
    exact Nat.le_refl _

/-- A piece takes at least the first character of a text. -/
theorem length_rest_of_nextPiece {line : Nat} {c : Char} {cs : List Char} {piece : Piece}
    (h : nextPiece line c cs = .ok piece) : piece.rest.length ≤ cs.length := by
  unfold nextPiece at h
  split at h
  · cases h; exact (List.dropWhile_sublist _).length_le
  split at h
  · cases h; exact (List.dropWhile_sublist _).length_le
  split at h
  · cases h; exact Nat.le_refl _
  split at h
  · cases h; exact Nat.le_refl _
  split at h
  · cases h; exact Nat.le_refl _
  split at h
  · -- lists and strings take up what follows their first character
    exact length_rest_of_listPiece h
  split at h
  · cases h
  split at h
  · exact length_rest_of_stringPiece h
  dsimp only at h
  split at h
  · -- behind an atom there is less text than behind its first character
    exact Nat.le_trans (length_rest_of_commentPiece h) (List.dropWhile_sublist _).length_le
  · exact Nat.le_trans (length_rest_of_atomPiece h) (List.dropWhile_sublist _).length_le

/-! ## The whole text -/

/-- The tokens of a text that starts on the given line. -/
def scan (line : Nat) (text : List Char) : Except ParseError (List Token) :=
  match text with
  | [] => .ok []
  | c :: cs =>
    match h : nextPiece line c cs with
    | .error error => .error error
    | .ok piece =>
      have := length_rest_of_nextPiece h
      (scan piece.line piece.rest).map (piece.token.toList ++ ·)
termination_by text.length
decreasing_by
  simp only [List.length_cons]
  omega

/-- The tokens of a program's text. -/
def tokenize (text : String) : Except ParseError (List Token) := scan 1 text.toList

end ControlStore
