import ControlStore.Proofs.Stage
import ControlStore.Source.Scan

/-!
# Lines of tokens

A scanner is told on which line its text starts, and does nothing with the number but count it up.
So a text that stands further down has the same tokens, or the same error, each that much further
down (`scan_below`).

`scan_cons` and `scan_blank` take a text apart: a piece at a time, and blanks one by one although
the scanner skips a run of them at once. `takeWhile_atom` says what the atom at the front of a text
is.
-/

namespace ControlStore

/-- The same token `n` lines further down. -/
def Token.below (n : Nat) (token : Token) : Token := { token with line := token.line + n }

/-- The same error `n` lines further down. -/
def ParseError.below (n : Nat) (error : ParseError) : ParseError :=
  { error with line := error.line + n }

/-- The same piece of a text `n` lines further down. -/
def Piece.below (n : Nat) (piece : Piece) : Piece :=
  { token := piece.token.map (Token.below n), line := piece.line + n, rest := piece.rest }

/-- What is made of a text that stands `n` lines further down: the answer is changed by `f`, and an
error is found that many lines below. -/
def answerBelow {α : Type} (n : Nat) (f : α → α) (answer : Except ParseError α) :
    Except ParseError α :=
  (answer.map f).mapError (ParseError.below n)

/-- The tokens of a text, or its error, `n` lines further down. -/
def tokensBelow (n : Nat) : Except ParseError (List Token) → Except ParseError (List Token) :=
  answerBelow n (List.map (Token.below n))

section Answer

variable {α β : Type} {n : Nat}

@[simp]
theorem answerBelow_ok {f : α → α} {a : α} : answerBelow n f (.ok a) = .ok (f a) := rfl

@[simp]
theorem answerBelow_error {f : α → α} {error : ParseError} :
    answerBelow n f (.error error) = .error (error.below n) := rfl

@[simp]
theorem answerBelow_pure {f : α → α} {a : α} : answerBelow n f (pure a) = pure (f a) := rfl

/-- What is found on a line is found below it if the line is further down. -/
theorem onLine_below {line : Nat} (result : Except LexicalError α) :
    onLine (line + n) result = answerBelow n id (onLine line result) := by
  cases result <;> rfl

/-- Parts of an answer that are found further down make up an answer further down. -/
theorem answerBelow_bind {f : α → α} {g : β → β} {first : Except ParseError α}
    {next next' : α → Except ParseError β} (h : ∀ a, next' (f a) = answerBelow n g (next a)) :
    (answerBelow n f first >>= next') = answerBelow n g (first >>= next) := by
  cases first with
  | error e => rfl
  | ok a => exact h a

end Answer

/-! ## Line breaks -/

/-- No character of an atom is a line break. -/
theorem newlines_eq_zero {text : List Char} (h : ∀ c ∈ text, isDelimiter c = false) :
    newlines text = 0 := by
  rw [newlines, List.count_eq_zero]
  intro hmem
  have hbreak : isDelimiter '\n' = true := by decide
  rw [h _ hmem] at hbreak
  cases hbreak

theorem newlines_append (text other : List Char) :
    newlines (text ++ other) = newlines text + newlines other :=
  List.count_append

/-! ## Ends of atoms -/

/-- Nothing, or a delimiter, is at the front of a text. -/
def Ends (text : List Char) : Prop := ∀ c ∈ text.head?, isDelimiter c = true

theorem ends_nil : Ends [] := fun _ h => nomatch h

/-- An atom ends at a delimiter. -/
theorem ends_cons {c : Char} (h : isDelimiter c = true) (text : List Char) : Ends (c :: text) := by
  rintro _ ⟨⟩
  exact h

/-- An atom ends where a delimiter, or nothing, comes behind it. -/
theorem takeWhile_atom {text more : List Char} (h : ∀ c ∈ text, isDelimiter c = false)
    (hmore : Ends more) : (text ++ more).takeWhile (!isDelimiter ·) = text ∧
      (text ++ more).dropWhile (!isDelimiter ·) = more := by
  have hatom : ∀ c ∈ text, (!isDelimiter c) = true := fun c hc => by rw [h c hc]; rfl
  rw [List.takeWhile_append_of_pos hatom, List.dropWhile_append_of_pos hatom]
  cases more with
  | nil => simp
  | cons c cs =>
    have hstop : (!isDelimiter c) = false := by rw [hmore c rfl]; rfl
    rw [List.takeWhile_cons_of_neg (by simp [hstop]), List.dropWhile_cons_of_neg (by simp [hstop]),
      List.append_nil]
    exact ⟨rfl, rfl⟩

/-! ## Pieces -/

/-- A comment further down is the same comment, further down. -/
theorem commentPiece_below (n line : Nat) (opening text : List Char) :
    commentPiece (line + n) opening text =
      answerBelow n (Piece.below n) (commentPiece line opening text) := by
  unfold commentPiece
  split
  · rfl
  · simp [Piece.below, Nat.add_right_comm]
  · rfl

/-- The items of a list are the same further down. -/
theorem listItems_below (n line : Nat) (entries : List (List Char)) :
    listItems (line + n) entries = answerBelow n id (listItems line entries) := by
  induction entries generalizing line with
  | nil => rfl
  | cons entry entries ih =>
    unfold listItems
    dsimp only
    rw [Nat.add_right_comm]
    split
    · rfl
    · rw [onLine_below]
      refine answerBelow_bind fun value => ?_
      rw [ih]
      exact answerBelow_bind fun values => rfl

/-- A list further down is the same list, further down. -/
theorem listPiece_below (n line : Nat) (text : List Char) :
    listPiece (line + n) text = answerBelow n (Piece.below n) (listPiece line text) := by
  unfold listPiece
  split
  · next inside rest _ =>
    have hvalues : listValues (line + n) inside = answerBelow n id (listValues line inside) := by
      unfold listValues
      split
      · rfl
      · exact listItems_below n line _
    rw [hvalues]
    refine answerBelow_bind fun items => ?_
    simp [Piece.below, Token.below, Nat.add_right_comm]
  · rw [listItems_below]
    exact answerBelow_bind fun _ => rfl

/-- A string further down is the same string, further down. -/
theorem stringPiece_below (n line : Nat) (quote : Char) (text : List Char) :
    stringPiece (line + n) quote text =
      answerBelow n (Piece.below n) (stringPiece line quote text) := by
  unfold stringPiece
  split
  · simp [Piece.below, Token.below, Nat.add_right_comm]
  · rfl

/-- A pair further down is the same pair, further down. -/
theorem pairPiece_below (n line : Nat) (key : Value) (text : List Char) :
    pairPiece (line + n) key text = answerBelow n (Piece.below n) (pairPiece line key text) := by
  unfold pairPiece
  dsimp only
  split
  · rfl
  · rw [onLine_below]
    refine answerBelow_bind fun value => ?_
    simp [Piece.below, Token.below, Nat.add_right_comm]

/-- An atom further down is the same atom, further down. -/
theorem atomPiece_below (n line : Nat) (atom text : List Char) :
    atomPiece (line + n) atom text = answerBelow n (Piece.below n) (atomPiece line atom text) := by
  unfold atomPiece
  split
  · rw [onLine_below]
    exact answerBelow_bind fun key => pairPiece_below n line key text
  · rw [onLine_below]
    refine answerBelow_bind fun key => ?_
    rw [onLine_below]
    exact answerBelow_bind fun value => rfl
  · rw [onLine_below]
    exact answerBelow_bind fun kind => rfl

/-- Whatever starts further down is the same piece, further down. -/
theorem nextPiece_below (n line : Nat) (c : Char) (cs : List Char) :
    nextPiece (line + n) c cs = answerBelow n (Piece.below n) (nextPiece line c cs) := by
  unfold nextPiece
  split
  · simp [Piece.below, Nat.add_right_comm]
  split
  · rfl
  split
  · rfl
  split
  · rfl
  split
  · rfl
  split
  · exact listPiece_below n line cs
  split
  · rfl
  split
  · exact stringPiece_below n line c cs
  dsimp only
  split
  · exact commentPiece_below n line _ _
  · exact atomPiece_below n line _ _

/-! ## The whole text -/

theorem scan_nil (line : Nat) : scan line [] = .ok [] := by rw [scan]

/-- The tokens of a text are that of its first piece and those of the rest. -/
theorem scan_cons (line : Nat) (c : Char) (cs : List Char) :
    scan line (c :: cs) = nextPiece line c cs >>= fun piece =>
      (scan piece.line piece.rest).map (piece.token.toList ++ ·) := by
  rw [scan]
  split
  · next error h => simp only [h]; rfl
  · next piece h => simp only [h]; rfl

/-- A text that stands further down has its tokens, or its error, further down. -/
theorem scan_below (n line : Nat) (text : List Char) :
    scan (line + n) text = tokensBelow n (scan line text) := by
  induction hlength : text.length using Nat.strongRecOn generalizing line text with
  | ind length ih =>
    cases text with
    | nil => rw [scan_nil, scan_nil]; rfl
    | cons c cs =>
      rw [scan_cons, scan_cons, nextPiece_below]
      cases hpiece : nextPiece line c cs with
      | error e => rfl
      | ok piece =>
        have hshort := length_rest_of_nextPiece hpiece
        rw [List.length_cons] at hlength
        -- the piece starts below, so it ends below, and the rest is scanned from there
        have hrest := ih piece.rest.length (by omega) piece.line piece.rest rfl
        change (scan (piece.line + n) piece.rest).map _ = tokensBelow n (Except.map _ _)
        rw [hrest]
        cases scan piece.line piece.rest with
        | error e => rfl
        | ok tokens => cases piece with | mk token => cases token <;> rfl

/-! ## Blanks -/

/-- Blanks are passed together, with their line breaks counted. -/
theorem nextPiece_blank {line : Nat} {c : Char} (h : isBlank c = true) (cs : List Char) :
    nextPiece line c cs =
      .ok ⟨none, line + newlines (c :: cs.takeWhile isBlank), cs.dropWhile isBlank⟩ := by
  unfold nextPiece
  rw [if_pos h]

/-- A run of blanks at the front of a text has no tokens. -/
theorem scan_dropWhile (line : Nat) (text : List Char) :
    scan (line + newlines (text.takeWhile isBlank)) (text.dropWhile isBlank) =
      scan line text := by
  cases text with
  | nil => rfl
  | cons c cs =>
    by_cases h : isBlank c = true
    · rw [scan_cons, nextPiece_blank h, List.takeWhile_cons_of_pos h,
        List.dropWhile_cons_of_pos h]
      change _ = (scan _ _).map _
      cases scan (line + newlines (c :: cs.takeWhile isBlank)) (cs.dropWhile isBlank) <;> rfl
    · rw [List.takeWhile_cons_of_neg h, List.dropWhile_cons_of_neg h]
      rfl

/-- Blanks are skipped one by one. -/
theorem scan_blank {line : Nat} {c : Char} (h : isBlank c = true) (cs : List Char) :
    scan line (c :: cs) = scan (line + newlines [c]) cs := by
  have hcount : newlines (c :: cs.takeWhile isBlank) =
      newlines [c] + newlines (cs.takeWhile isBlank) := newlines_append [c] _
  rw [← scan_dropWhile line (c :: cs), List.takeWhile_cons_of_pos h,
    List.dropWhile_cons_of_pos h, hcount, ← Nat.add_assoc, scan_dropWhile]

end ControlStore
