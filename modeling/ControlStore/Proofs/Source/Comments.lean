import Mathlib.Data.List.Infix
import ControlStore.Proofs.Source.Lines

/-!
# Block comments

A comment opens with an atom that starts with `/*`, and that atom may hold the end of the comment as
well. So there are two ways to skip one. If a delimiter is inside the comment, its end is looked for
character by character, and reading goes on right behind it. If not, comment and atom end together,
and whatever follows the comment in the same atom is skipped too.

`tokenize_blockComment` says for every comment where reading goes on, and on which line.
-/

namespace ControlStore

/-! ## The end of a comment -/

/-- A character that does not end the comment belongs to it. -/
theorem splitComment_cons {c : Char} {cs : List Char} (h : ¬['*', '/'] <+: c :: cs) :
    splitComment (c :: cs) =
      (splitComment cs).map fun (before, after) => (c :: before, after) := by
  rw [splitComment]
  rintro rest rfl rfl
  exact h ⟨rest, rfl⟩

/-- The first `*/` is the one behind a text that has none in it. -/
theorem splitComment_append {text : List Char} (h : ¬['*', '/'] <:+: text) (rest : List Char) :
    splitComment (text ++ '*' :: '/' :: rest) = some (text, rest) := by
  induction text with
  | nil => rfl
  | cons c cs ih =>
    have hcs : ¬['*', '/'] <:+: cs :=
      fun hwithin => h (hwithin.trans (List.suffix_cons c cs).isInfix)
    rw [List.cons_append, splitComment_cons, ih hcs]
    · rfl
    · -- behind the last character of the text, the end starts with `*` and not with `/`
      rintro ⟨tail, htail⟩
      cases cs with
      | nil => simp at htail
      | cons d ds =>
        simp only [List.cons_append, List.nil_append, List.cons.injEq] at htail
        obtain ⟨rfl, rfl, -⟩ := htail
        exact h ⟨[], ds, rfl⟩

/-- Text without an end mark ends no comment. -/
theorem splitComment_eq_none {text : List Char} (h : ¬['*', '/'] <:+: text) :
    splitComment text = none := by
  induction text with
  | nil => rfl
  | cons c cs ih =>
    have hcs : ¬['*', '/'] <:+: cs :=
      fun hwithin => h (hwithin.trans (List.suffix_cons c cs).isInfix)
    rw [splitComment_cons fun hprefix => h hprefix.isInfix, ih hcs]
    rfl

/-! ## The piece that a comment is -/

/-- A text whose atom starts with `/*` starts with a comment. -/
theorem nextPiece_comment (line : Nat) (text : List Char) :
    nextPiece line '/' ('*' :: text) =
      commentPiece line (text.takeWhile (!isDelimiter ·)) (text.dropWhile (!isDelimiter ·)) := by
  have hstar : (!isDelimiter '*') = true := by decide
  unfold nextPiece
  rw [List.takeWhile_cons_of_pos (p := (!isDelimiter ·)) hstar,
    List.dropWhile_cons_of_pos (p := (!isDelimiter ·)) hstar]
  rfl

/-- A comment without a delimiter ends with its atom. -/
theorem nextPiece_comment_of_plain {text : List Char} (hplain : ∀ c ∈ text, isDelimiter c = false)
    (h : ¬['*', '/'] <:+: text) (line : Nat) (rest : List Char) :
    nextPiece line '/' ('*' :: (text ++ '*' :: '/' :: rest)) =
      .ok ⟨none, line, rest.dropWhile (!isDelimiter ·)⟩ := by
  -- without a delimiter the end mark is part of the atom, and so is what follows up to the next
  -- delimiter
  have hatom : ∀ c ∈ text ++ ['*', '/'], (!isDelimiter c) = true := by
    intro c hc
    rcases List.mem_append.1 hc with hc | hc
    · rw [hplain c hc]
      rfl
    · rcases List.mem_pair.1 hc with rfl | rfl <;> decide
  have hsplit : text ++ '*' :: '/' :: rest = (text ++ ['*', '/']) ++ rest := by simp
  rw [nextPiece_comment, hsplit, List.takeWhile_append_of_pos hatom,
    List.dropWhile_append_of_pos hatom, List.append_assoc]
  simp [commentPiece, splitComment_append h]

/-- A comment with a delimiter in it ends at its end. -/
theorem nextPiece_comment_of_delimiter {plain text : List Char} {c : Char}
    (hplain : ∀ c ∈ plain, isDelimiter c = false) (hc : isDelimiter c = true)
    (h : ¬['*', '/'] <:+: plain ++ c :: text) (line : Nat) (rest : List Char) :
    nextPiece line '/' ('*' :: (plain ++ c :: text ++ '*' :: '/' :: rest)) =
      .ok ⟨none, line + newlines (plain ++ c :: text), rest⟩ := by
  -- the atom in front has no end mark, so the comment is searched behind it
  have hopening : ¬['*', '/'] <:+: plain := fun hwithin =>
    h (hwithin.trans (List.prefix_append ..).isInfix)
  have hinside : ¬['*', '/'] <:+: c :: text := fun hwithin =>
    h (hwithin.trans (List.suffix_append ..).isInfix)
  obtain ⟨hatom, hbehind⟩ := takeWhile_atom hplain (ends_cons hc (text ++ '*' :: '/' :: rest))
  rw [nextPiece_comment, List.append_assoc, List.cons_append, hatom, hbehind, newlines_append,
    newlines_eq_zero hplain, Nat.zero_add]
  have hend := splitComment_append hinside rest
  rw [List.cons_append] at hend
  simp [commentPiece, splitComment_eq_none hopening, hend]

/-! ## Reading past a comment -/

/-- The text that is read behind a comment: all that follows it if there is a delimiter inside, and
what follows the comment's atom if there is none. -/
def behindComment (inside rest : List Char) : List Char :=
  if inside.any isDelimiter then rest else rest.dropWhile (!isDelimiter ·)

/-- A comment is skipped: the scan goes on behind it, on the line where it ends. -/
theorem scan_comment {inside : List Char} (h : ¬['*', '/'] <:+: inside) (line : Nat)
    (rest : List Char) :
    scan line ('/' :: '*' :: (inside ++ '*' :: '/' :: rest)) =
      scan (line + newlines inside) (behindComment inside rest) := by
  have hpiece : nextPiece line '/' ('*' :: (inside ++ '*' :: '/' :: rest)) =
      .ok ⟨none, line + newlines inside, behindComment inside rest⟩ := by
    by_cases hdelimiter : inside.any isDelimiter = true
    · -- cut the inside at its first delimiter
      obtain ⟨c, hfirst⟩ := Option.isSome_iff_exists.1
        (List.find?_isSome.2 (List.any_eq_true.1 hdelimiter))
      obtain ⟨hc, plain, text, rfl, hplain⟩ := List.find?_eq_some_iff_append.1 hfirst
      rw [behindComment, if_pos hdelimiter]
      exact nextPiece_comment_of_delimiter (by simpa using hplain) hc h line rest
    · have hplain : ∀ c ∈ inside, isDelimiter c = false := by simpa using hdelimiter
      rw [behindComment, if_neg hdelimiter, newlines_eq_zero hplain, Nat.add_zero]
      exact nextPiece_comment_of_plain hplain h line rest
  rw [scan_cons, hpiece]
  change (scan (line + newlines inside) _).map _ = _
  cases scan (line + newlines inside) (behindComment inside rest) <;> rfl

/-- A block comment reaches up to its first `*/`, and what is read behind it is further down by the
line breaks inside. If there is no delimiter inside, the rest of the atom is skipped as well. -/
theorem tokenize_blockComment {inside : String} (h : ¬['*', '/'] <:+: inside.toList)
    (rest : String) :
    tokenize ("/*" ++ inside ++ "*/" ++ rest) = tokensBelow (newlines inside.toList)
      (tokenize (String.ofList (behindComment inside.toList rest.toList))) := by
  have htext : ("/*" ++ inside ++ "*/" ++ rest).toList =
      '/' :: '*' :: (inside.toList ++ '*' :: '/' :: rest.toList) := by
    simp [String.toList_append]
  rw [tokenize, htext, scan_comment h, scan_below, tokenize, String.toList_ofList]

/-- A comment of three lines, with a lone star and a lone slash inside, in front of a word. -/
theorem tokenize_blockComment_starredText : ¬['*', '/'] <:+: " *\n /\n*".toList ∧
    tokenize ("/*" ++ " *\n /\n*" ++ "*/" ++ "b") = .ok [⟨.word "b", 3⟩] := by
  have hinside : ¬['*', '/'] <:+: " *\n /\n*".toList := by decide
  refine ⟨hinside, ?_⟩
  rw [tokenize_blockComment hinside]
  decide +kernel

/-- Behind a comment without a delimiter, a word is lost that is read where it stands alone. -/
theorem gluedText_refuted :
    tokenize ("/*" ++ "" ++ "*/" ++ "x") = .ok [] ∧ tokenize "x" = .ok [⟨.word "x", 1⟩] ∧
    ¬∀ inside rest : String, ¬['*', '/'] <:+: inside.toList →
      tokenize ("/*" ++ inside ++ "*/" ++ rest) =
        tokensBelow (newlines inside.toList) (tokenize rest) := by
  have hglued : tokenize ("/*" ++ "" ++ "*/" ++ "x") = .ok [] := by decide +kernel
  have halone : tokenize "x" = .ok [⟨.word "x", 1⟩] := by decide +kernel
  refine ⟨hglued, halone, fun hall => ?_⟩
  have hequal := hall "" "x" (by decide)
  rw [hglued, halone] at hequal
  cases hequal

end ControlStore
