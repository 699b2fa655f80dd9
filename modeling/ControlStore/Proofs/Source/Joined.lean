import Mathlib.Data.List.TakeWhile
import Mathlib.Tactic.SplitIfs
import ControlStore.Proofs.Source.Lines
import ControlStore.Proofs.Text.Split

/-!
# Texts behind each other

A line break ends whatever stands in front of it: blanks, a comment up to the end of the line, an
atom. What goes on over line breaks (a block comment, a string, a list, a pair whose value is still
to come) has come to its end where a text can be read. So behind a text that can be read and a line
break, another text is read as if it stood alone, only further down (`scan_append`).

The two halves of this are said of each piece: what follows the text does not change the piece
(`nextPiece_append`), and the piece counts the line breaks that it takes (`counts_of_nextPiece`).
-/

namespace ControlStore

/-! ## Splitting a longer text -/

/-- More text behind a closed comment stays behind it. -/
theorem splitComment_append_right {text before after : List Char}
    (h : splitComment text = some (before, after)) (more : List Char) :
    splitComment (text ++ more) = some (before, after ++ more) := by
  fun_induction splitComment text generalizing before with
  | case1 rest =>
    cases h
    rfl
  | case2 c cs hother ih =>
    obtain ⟨⟨b, a⟩, hrest, heq⟩ := Option.map_eq_some_iff.1 h
    cases heq
    rw [List.cons_append, splitComment, ih hrest]
    · rfl
    · rintro rest rfl hcs
      cases cs with
      | nil => cases hrest
      | cons d ds =>
        obtain ⟨rfl, -⟩ := List.cons.inj hcs
        exact hother ds rfl rfl
  | case3 => cases h

/-- A closed comment is the text before the end mark, the mark and the rest. -/
theorem eq_of_splitComment {text before after : List Char}
    (h : splitComment text = some (before, after)) : text = before ++ '*' :: '/' :: after := by
  fun_induction splitComment text generalizing before with
  | case1 rest =>
    cases h
    rfl
  | case2 c cs hother ih =>
    obtain ⟨⟨b, a⟩, hrest, heq⟩ := Option.map_eq_some_iff.1 h
    cases heq
    rw [ih hrest]
    rfl
  | case3 => cases h

section Runs

variable {p : Char → Bool}

/-- A run that ends inside a text is the same in a longer text. -/
theorem takeWhile_append_of_ne_nil {text : List Char} (h : text.dropWhile p ≠ [])
    (more : List Char) :
    (text ++ more).takeWhile p = text.takeWhile p ∧
      (text ++ more).dropWhile p = text.dropWhile p ++ more := by
  -- Something stands behind the run, so the run is shorter than the text.
  have hlength : (text.takeWhile p).length ≠ text.length := by
    intro heq
    have hwhole := congrArg List.length (List.takeWhile_append_dropWhile (p := p) (l := text))
    rw [List.length_append, heq] at hwhole
    exact h (List.length_eq_zero_iff.1 (by omega))
  rw [List.takeWhile_append, if_neg hlength, List.dropWhile_append,
    if_neg (by rwa [List.isEmpty_iff])]
  exact ⟨rfl, rfl⟩

/-- A run ends at a character that does not belong to it. -/
theorem takeWhile_append_of_neg {c : Char} (h : p c = false) (text more : List Char) :
    (text ++ c :: more).takeWhile p = text.takeWhile p ∧
      (text ++ c :: more).dropWhile p = text.dropWhile p ++ c :: more := by
  by_cases hnil : text.dropWhile p = []
  · have hall : ∀ d ∈ text, p d = true := List.dropWhile_eq_nil_iff.1 hnil
    rw [List.takeWhile_append_of_pos hall, List.dropWhile_append_of_pos hall, hnil,
      List.takeWhile_cons_of_neg (by simp [h]), List.dropWhile_cons_of_neg (by simp [h]),
      List.append_nil, List.takeWhile_eq_self_iff.2 hall]
    exact ⟨rfl, rfl⟩
  · exact takeWhile_append_of_ne_nil hnil _

end Runs

/-! ## Pieces of a longer text -/

/-- The piece at the front of a text that goes on. -/
def Piece.append (piece : Piece) (more : List Char) : Piece :=
  { piece with rest := piece.rest ++ more }

/-- More text does not change a comment that is closed. -/
theorem commentPiece_append {line : Nat} {opening text : List Char} {piece : Piece}
    (h : commentPiece line opening text = .ok piece) (more : List Char) :
    commentPiece line opening (text ++ more) = .ok (piece.append more) := by
  unfold commentPiece at h
  split at h
  · next hopening =>
    cases h
    simp [commentPiece, hopening, Piece.append]
  · next hopening hsplit =>
    cases h
    simp [commentPiece, hopening, splitComment_append_right hsplit more, Piece.append]
  · cases h

/-- More text does not change a list that is closed. -/
theorem listPiece_append {line : Nat} {text : List Char} {piece : Piece}
    (h : listPiece line text = .ok piece) (more : List Char) :
    listPiece line (text ++ more) = .ok (piece.append more) := by
  unfold listPiece at h
  split at h
  · next inside rest hsplit =>
    obtain ⟨items, hitems, hpiece⟩ := bind_eq_ok_iff.1 h
    cases hpiece
    simp only [listPiece, splitOnce_append hsplit more]
    exact bind_eq_ok_iff.2 ⟨items, hitems, rfl⟩
  · obtain ⟨items, -, hpiece⟩ := bind_eq_ok_iff.1 h
    cases hpiece

/-- More text does not change a string that is closed. -/
theorem stringPiece_append {line : Nat} {quote : Char} {text : List Char} {piece : Piece}
    (h : stringPiece line quote text = .ok piece) (more : List Char) :
    stringPiece line quote (text ++ more) = .ok (piece.append more) := by
  unfold stringPiece at h
  split at h
  · next inside rest hsplit =>
    cases h
    simp [stringPiece, splitOnce_append hsplit more, Piece.append]
  · cases h

/-- A delimiter ends the value of a pair, so that it can stand right behind it. -/
theorem pairPiece_append {line : Nat} {key : Value} {text : List Char} {piece : Piece}
    (h : pairPiece line key text = .ok piece) {c : Char} (hc : isDelimiter c = true)
    (more : List Char) :
    pairPiece line key (text ++ c :: more) = .ok (piece.append (c :: more)) := by
  unfold pairPiece at h
  dsimp only at h
  split at h
  · cases h
  · next hatom =>
    obtain ⟨value, hvalue, hpiece⟩ := bind_eq_ok_iff.1 h
    cases hpiece
    -- there is a value, so the blanks in front of it end in the first text
    have hblanks : text.dropWhile isBlank ≠ [] := by
      intro hnil
      rw [hnil] at hatom
      exact hatom rfl
    obtain ⟨htake, hdrop⟩ := takeWhile_append_of_ne_nil hblanks (c :: more)
    have hstop : (!isDelimiter c) = false := by rw [hc]; rfl
    obtain ⟨htake', hdrop'⟩ := takeWhile_append_of_neg (p := (!isDelimiter ·)) hstop
      (text.dropWhile isBlank) more
    unfold pairPiece
    dsimp only
    rw [htake, hdrop, htake', hdrop', if_neg hatom]
    exact bind_eq_ok_iff.2 ⟨value, hvalue, rfl⟩

/-- More text behind a delimiter does not change an atom. -/
theorem atomPiece_append {line : Nat} {atom text : List Char} {piece : Piece}
    (h : atomPiece line atom text = .ok piece) {c : Char} (hc : isDelimiter c = true)
    (more : List Char) :
    atomPiece line atom (text ++ c :: more) = .ok (piece.append (c :: more)) := by
  unfold atomPiece at h ⊢
  split at h
  · obtain ⟨key, hkey, hpiece⟩ := bind_eq_ok_iff.1 h
    exact bind_eq_ok_iff.2 ⟨key, hkey, pairPiece_append hpiece hc more⟩
  · obtain ⟨key, hkey, hrest⟩ := bind_eq_ok_iff.1 h
    obtain ⟨value, hvalue, hpiece⟩ := bind_eq_ok_iff.1 hrest
    cases hpiece
    exact bind_eq_ok_iff.2 ⟨key, hkey, bind_eq_ok_iff.2 ⟨value, hvalue, rfl⟩⟩
  · obtain ⟨kind, hkind, hpiece⟩ := bind_eq_ok_iff.1 h
    cases hpiece
    exact bind_eq_ok_iff.2 ⟨kind, hkind, rfl⟩

/-- Except for blanks, the piece at the front of a text stays if a line break and more follow the
text. -/
theorem nextPiece_append {line : Nat} {c : Char} {cs : List Char} {piece : Piece}
    (hc : isBlank c = false) (h : nextPiece line c cs = .ok piece) (more : List Char) :
    nextPiece line c (cs ++ '\n' :: more) = .ok (piece.append ('\n' :: more)) := by
  obtain ⟨-, hline⟩ := takeWhile_append_of_neg (p := (· ≠ '\n')) (c := '\n') rfl cs more
  obtain ⟨hatom, hatom'⟩ := takeWhile_append_of_neg (p := (!isDelimiter ·)) (c := '\n') rfl cs more
  unfold nextPiece at h ⊢
  rw [hline, hatom, hatom']
  -- one case for each character that starts a piece
  split_ifs at h ⊢ with hblank hcomment hopen hclose hcomma hlist hend hquote
  · simp [hc] at hblank
  · cases h; rfl
  · cases h; rfl
  · cases h; rfl
  · cases h; rfl
  · exact listPiece_append h _
  · exact stringPiece_append h _
  · dsimp only at h ⊢
    split at h
    · exact commentPiece_append h _
    · exact atomPiece_append h (by decide) more

/-! ## Line breaks in pieces -/

/-- The line that is reached behind a piece leaves as many line breaks to count as there are in the
rest of the text. -/
def Piece.Counts (piece : Piece) (line : Nat) (text : List Char) : Prop :=
  piece.line + newlines piece.rest = line + newlines text

theorem newlines_takeWhile_add (p : Char → Bool) (text : List Char) :
    newlines (text.takeWhile p) + newlines (text.dropWhile p) = newlines text := by
  rw [← newlines_append, List.takeWhile_append_dropWhile]

theorem newlines_cons_of_ne {c : Char} (h : c ≠ '\n') (cs : List Char) :
    newlines (c :: cs) = newlines cs :=
  List.count_cons_of_ne h

/-- There are no line breaks in a run of characters that leaves them out. -/
theorem newlines_dropWhile {p : Char → Bool} (h : p '\n' = false) (text : List Char) :
    newlines (text.dropWhile p) = newlines text := by
  have hnone : newlines (text.takeWhile p) = 0 := by
    rw [newlines, List.count_eq_zero]
    intro hmem
    rw [List.mem_takeWhile_imp hmem] at h
    cases h
  have hall := newlines_takeWhile_add p text
  omega

/-- A text cut at another character counts the line breaks in front of the cut. -/
theorem counts_of_splitOnce {sep : Char} (hsep : sep ≠ '\n') {text before after : List Char}
    (h : splitOnce sep text = some (before, after)) (token : Option Token) (line : Nat) :
    Piece.Counts ⟨token, line + newlines before, after⟩ line text := by
  rw [eq_of_splitOnce h, Piece.Counts, newlines_append, newlines_cons_of_ne hsep, Nat.add_assoc]

/-- A comment counts its line breaks. -/
theorem counts_of_commentPiece {line : Nat} {opening text : List Char} {piece : Piece}
    (h : commentPiece line opening text = .ok piece) : piece.Counts line text := by
  unfold commentPiece at h
  split at h
  · cases h
    rfl
  · next before rest _ hsplit =>
    cases h
    rw [eq_of_splitComment hsplit, Piece.Counts, newlines_append, newlines_cons_of_ne (by decide),
      newlines_cons_of_ne (by decide), Nat.add_assoc]
  · cases h

/-- A list counts its line breaks. -/
theorem counts_of_listPiece {line : Nat} {text : List Char} {piece : Piece}
    (h : listPiece line text = .ok piece) : piece.Counts line text := by
  unfold listPiece at h
  split at h
  · next hsplit =>
    obtain ⟨items, -, hpiece⟩ := bind_eq_ok_iff.1 h
    cases hpiece
    exact counts_of_splitOnce (by decide) hsplit _ line
  · obtain ⟨items, -, hpiece⟩ := bind_eq_ok_iff.1 h
    cases hpiece

/-- A string counts its line breaks. -/
theorem counts_of_stringPiece {line : Nat} {quote : Char} (hquote : quote ≠ '\n')
    {text : List Char} {piece : Piece} (h : stringPiece line quote text = .ok piece) :
    piece.Counts line text := by
  unfold stringPiece at h
  split at h
  · next hsplit =>
    cases h
    exact counts_of_splitOnce hquote hsplit _ line
  · cases h

/-- A pair counts the line breaks in front of its value. -/
theorem counts_of_pairPiece {line : Nat} {key : Value} {text : List Char} {piece : Piece}
    (h : pairPiece line key text = .ok piece) : piece.Counts line text := by
  unfold pairPiece at h
  dsimp only at h
  split at h
  · cases h
  · obtain ⟨value, -, hpiece⟩ := bind_eq_ok_iff.1 h
    cases hpiece
    rw [Piece.Counts, newlines_dropWhile (by decide), Nat.add_assoc, newlines_takeWhile_add]

/-- An atom counts the line breaks it reaches over. -/
theorem counts_of_atomPiece {line : Nat} {atom text : List Char} {piece : Piece}
    (h : atomPiece line atom text = .ok piece) : piece.Counts line text := by
  unfold atomPiece at h
  split at h
  · obtain ⟨key, -, hpiece⟩ := bind_eq_ok_iff.1 h
    exact counts_of_pairPiece hpiece
  · obtain ⟨key, -, hrest⟩ := bind_eq_ok_iff.1 h
    obtain ⟨value, -, hpiece⟩ := bind_eq_ok_iff.1 hrest
    cases hpiece
    rfl
  · obtain ⟨kind, -, hpiece⟩ := bind_eq_ok_iff.1 h
    cases hpiece
    rfl

/-- Whatever piece is at the front of a text, its line breaks are counted. -/
theorem counts_of_nextPiece {line : Nat} {c : Char} {cs : List Char} {piece : Piece}
    (h : nextPiece line c cs = .ok piece) : piece.Counts line (c :: cs) := by
  by_cases hblank : isBlank c = true
  · rw [nextPiece_blank hblank] at h
    cases h
    have hall := newlines_takeWhile_add isBlank (c :: cs)
    rw [List.takeWhile_cons_of_pos hblank, List.dropWhile_cons_of_pos hblank] at hall
    rw [Piece.Counts, Nat.add_assoc, hall]
  · have hbreak : c ≠ '\n' := by
      rintro rfl
      exact hblank (by decide)
    rw [Piece.Counts, newlines_cons_of_ne hbreak]
    unfold nextPiece at h
    split_ifs at h with hcomment hopen hclose hcomma hlist hend hquote
    · cases h
      exact congrArg (line + ·) (newlines_dropWhile (by decide) cs)
    · cases h; rfl
    · cases h; rfl
    · cases h; rfl
    · exact counts_of_listPiece h
    · exact counts_of_stringPiece hbreak h
    · rw [← newlines_dropWhile (p := (!isDelimiter ·)) (by decide) cs]
      dsimp only at h
      split at h
      · exact counts_of_commentPiece h
      · exact counts_of_atomPiece h

/-! ## Whole texts -/

/-- Behind a text that can be read and a line break, another text is read as it stands alone, only
further down: its tokens follow those of the first text, and its error is the error of both. -/
theorem scan_append {line : Nat} {text : List Char} {tokens : List Token}
    (h : scan line text = .ok tokens) (more : List Char) :
    scan line (text ++ '\n' :: more) =
      (scan (line + newlines text + 1) more).map (tokens ++ ·) := by
  -- a piece takes any number of characters, so the induction is on how many are left
  induction hlength : text.length using Nat.strongRecOn generalizing line text tokens with
  | ind length ih =>
    cases text with
    | nil =>
      rw [scan_nil] at h
      cases h
      have hbreak : line + newlines ['\n'] = line + newlines [] + 1 := rfl
      rw [List.nil_append, scan_blank (by decide), hbreak]
      cases scan (line + newlines [] + 1) more <;> rfl
    | cons c cs =>
      rw [List.length_cons] at hlength
      by_cases hblank : isBlank c = true
      · rw [scan_blank hblank] at h
        rw [List.cons_append, scan_blank hblank, ih cs.length (by omega) h rfl, Nat.add_assoc line,
          ← newlines_append, List.singleton_append]
      · have hc : isBlank c = false := by simpa using hblank
        rw [scan_cons] at h
        obtain ⟨piece, hpiece, hrest⟩ := bind_eq_ok_iff.1 h
        obtain ⟨rest, hscan, rfl⟩ := map_eq_ok_iff.1 hrest
        have hshort := length_rest_of_nextPiece hpiece
        have hcounts := counts_of_nextPiece hpiece
        rw [List.cons_append, scan_cons, nextPiece_append hc hpiece]
        change (scan piece.line (piece.rest ++ '\n' :: more)).map (piece.token.toList ++ ·) = _
        rw [ih piece.rest.length (by omega) hscan rfl, hcounts]
        cases scan (line + newlines (c :: cs) + 1) more with
        | error e => rfl
        | ok others => simp [Except.map]

/-- Behind a text that can be read and a line break, a text has the tokens that it has alone, or the
error, further down by the line breaks in front of it. -/
theorem tokenize_append {text : String} {tokens : List Token} (h : tokenize text = .ok tokens)
    (more : String) :
    tokenize (text ++ "\n" ++ more) =
      (tokensBelow (newlines text.toList + 1) (tokenize more)).map (tokens ++ ·) := by
  have htext : (text ++ "\n" ++ more).toList = text.toList ++ '\n' :: more.toList := by
    simp [String.toList_append]
  rw [tokenize, htext, scan_append h, tokenize, ← scan_below, Nat.add_assoc]

/-- A text that can be read is put in front of another one, with a line break between them. If the
other text can be read, its tokens follow those of the first, and otherwise its error is found. Their
lines are counted on from the line breaks of the first text and the one behind it. -/
theorem tokenize_behind_break {text : String} {tokens : List Token}
    (h : tokenize text = .ok tokens) (more : String) :
    tokenize (text ++ "\n" ++ more) =
      match tokenize more with
      | .ok others => .ok (tokens ++ others.map (Token.below (newlines text.toList + 1)))
      | .error error => .error (error.below (newlines text.toList + 1)) := by
  rw [tokenize_append h]
  cases tokenize more <;> rfl

/-- A text in which a pair, a block comment, a list and a string go on over line breaks, with a
comment up to its end. -/
def brokenText : String := "x:\n1 /* b\n */ (p,\nq) 's\nt' # c"

def brokenTokens : List Token :=
  [⟨.pair (.symbol "x") (.integer 1), 1⟩, ⟨.list [.symbol "p", .symbol "q"], 3⟩,
    ⟨.string "s\nt", 4⟩]

/-- Behind its five lines, a word is on the sixth, and an error on the second line of a text is on
the seventh. -/
theorem tokenize_behind_break_brokenText : tokenize brokenText = .ok brokenTokens ∧
    tokenize (brokenText ++ "\n" ++ "y") = .ok (brokenTokens ++ [⟨.word "y", 6⟩]) ∧
    tokenize (brokenText ++ "\n" ++ "y\n)") = .error ⟨7, .lexical .unexpectedClose⟩ := by
  have hbroken : tokenize brokenText = .ok brokenTokens := by decide +kernel
  have hword : tokenize "y" = .ok [⟨.word "y", 1⟩] := by decide +kernel
  have herror : tokenize "y\n)" = .error ⟨2, .lexical .unexpectedClose⟩ := by decide +kernel
  have hbreaks : newlines brokenText.toList = 4 := by decide +kernel
  refine ⟨hbroken, ?_, ?_⟩
  · rw [tokenize_behind_break hbroken, hword, hbreaks]
    rfl
  · rw [tokenize_behind_break hbroken, herror, hbreaks]
    rfl

end ControlStore
