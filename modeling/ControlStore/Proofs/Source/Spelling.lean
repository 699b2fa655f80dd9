import Mathlib.Data.List.TakeWhile
import ControlStore.Proofs.Stage
import ControlStore.Proofs.Text.Split
import ControlStore.Source.Scan

/-!
# How tokens are spelled

`TokenKind.Spelled` lists what a token can be, with the characters that spell it: a mark of one
character, a string, a list of values, or one or two atoms. An atom has at least one character and
no delimiter in it, so no word of a text is empty or has a blank in it. What keeps one spelling apart
from the others is part of the list: an atom alone is not divided by a colon, and no atom opens a
comment.

`spelled_of_nextPiece` is the inversion of the scanner's step, and `tokenize_spelled` says it of all
tokens of a text. What is to be shown of every token is then a matter of looking at these few ways
to spell one, and not of going through the scanner again.
-/

namespace ControlStore

/-- A run of characters that stands between delimiters. -/
structure IsAtom (text : List Char) : Prop where
  ne_nil : text ≠ []
  plain : ∀ c ∈ text, isDelimiter c = false

/-- An atom that does not open a comment. -/
structure IsOpening (text : List Char) : Prop extends IsAtom text where
  not_comment : ¬['/', '*'] <+: text

/-- A run of characters that is taken for the key of a pair where a colon follows it. -/
structure IsKey (text : List Char) : Prop extends IsOpening text where
  colonless : ':' ∉ text
  bracketless : '[' ∉ text

/-- A run of characters that is an entry of a list. There may be blanks inside, but not at the
ends. -/
structure IsEntry (text : List Char) : Prop where
  ne_nil : text ≠ []
  trimmed : trimBlanks text = text
  commaless : ',' ∉ text
  closeless : ')' ∉ text

/-- The ways to spell a token. -/
inductive TokenKind.Spelled : TokenKind → Prop
  | openBlock : Spelled .openBlock
  | closeBlock : Spelled .closeBlock
  | comma : Spelled .comma
  /-- A string ends at the first quote of the kind that it began with. -/
  | string {quote : Char} {text : List Char} (hquote : quote = '\x22' ∨ quote = '\x27')
      (htext : quote ∉ text) : Spelled (.string (String.ofList text))
  | list {items : List Value}
      (hitems : ∀ item ∈ items, ∃ text, IsEntry text ∧ Value.ofText text = .ok item) :
      Spelled (.list items)
  | pair {first second : List Char} {key value : Value} (hfirst : IsKey first)
      (hkey : Value.ofText first = .ok key) (hsecond : IsAtom second)
      (hvalue : Value.ofText second = .ok value) : Spelled (.pair key value)
  | atom {text : List Char} {kind : TokenKind} (htext : IsOpening text)
      (hundivided : splitPair text = none) (hkind : TokenKind.ofText text = .ok kind) :
      Spelled kind

/-! ## Atoms -/

/-- A part of an atom is an atom, unless it is empty. -/
theorem IsAtom.of_subset {text part : List Char} (h : IsAtom text) (hpart : part ⊆ text)
    (hne : part ≠ []) : IsAtom part :=
  ⟨hne, fun c hc => h.plain c (hpart hc)⟩

/-- What is read up to the next delimiter is an atom, unless it is empty. -/
theorem isAtom_takeWhile {text : List Char} (hne : text.takeWhile (!isDelimiter ·) ≠ []) :
    IsAtom (text.takeWhile (!isDelimiter ·)) := by
  refine ⟨hne, fun c hc => ?_⟩
  simpa using List.mem_takeWhile_imp hc

/-- An atom reaches from its first character to the next delimiter. -/
theorem isAtom_cons_takeWhile {c : Char} (h : isDelimiter c = false) (text : List Char) :
    IsAtom (c :: text.takeWhile (!isDelimiter ·)) := by
  have htake : (c :: text).takeWhile (!isDelimiter ·) = c :: text.takeWhile (!isDelimiter ·) :=
    List.takeWhile_cons_of_pos (by simp [h])
  rw [← htake]
  exact isAtom_takeWhile (by simp [htake])

/-- A colon in the middle of an atom leaves two parts of it, with a key in front. -/
theorem of_splitPair {atom key value : List Char} (hatom : IsOpening atom)
    (h : splitPair atom = some (key, value)) : IsKey key ∧ value ⊆ atom := by
  unfold splitPair at h
  split at h
  · next first second hsplit =>
    split at h
    · cases h
    · next hkey =>
      cases h
      -- the pair is split at its first colon, so the key has none
      obtain ⟨rfl, hcolon⟩ := splitOnce_eq_some_iff.1 hsplit
      rw [not_or] at hkey
      refine ⟨⟨⟨hatom.of_subset (List.subset_append_left _ _) hkey.1, fun hcomment => ?_⟩,
        hcolon, hkey.2⟩, ?_⟩
      · exact hatom.not_comment (hcomment.trans (List.prefix_append _ _))
      · exact List.Subset.trans (List.subset_cons_self ..) (List.subset_append_right _ _)
  · cases h

/-! ## Pieces -/

theorem onLine_eq_ok_iff {α : Type} {line : Nat} {result : Except LexicalError α} {a : α} :
    onLine line result = .ok a ↔ result = .ok a := mapError_eq_ok_iff

/-- The token of a piece, if it has one, is spelled in one of the ways there are. -/
def Piece.Spelled (piece : Piece) : Prop := ∀ token ∈ piece.token, token.kind.Spelled

/-- A piece to skip has no token. -/
theorem Piece.spelled_of_none {line : Nat} {rest : List Char} : Piece.Spelled ⟨none, line, rest⟩ := by
  rintro token ⟨⟩

/-- A piece is spelled if its token is. -/
theorem Piece.spelled_of_some {token : Token} {line : Nat} {rest : List Char}
    (h : token.kind.Spelled) : Piece.Spelled ⟨some token, line, rest⟩ := by
  rintro other ⟨⟩
  exact h

/-- A comment has no token. -/
theorem spelled_of_commentPiece {line : Nat} {opening text : List Char} {piece : Piece}
    (h : commentPiece line opening text = .ok piece) : piece.Spelled := by
  unfold commentPiece at h
  split at h
  · cases h; exact Piece.spelled_of_none
  · cases h; exact Piece.spelled_of_none
  · cases h

/-- The items of a list stand in entries without commas and brackets. -/
theorem exists_text_of_listItems {line : Nat} {entries : List (List Char)} {items : List Value}
    (hentries : ∀ entry ∈ entries, ',' ∉ entry ∧ ')' ∉ entry)
    (h : listItems line entries = .ok items) :
    ∀ item ∈ items, ∃ text, IsEntry text ∧ Value.ofText text = .ok item := by
  induction entries generalizing line items with
  | nil => cases h; exact fun item hitem => absurd hitem List.not_mem_nil
  | cons entry entries ih =>
    obtain ⟨hentry, hentries⟩ := List.forall_mem_cons.1 hentries
    unfold listItems at h
    dsimp only at h
    split at h
    · cases h
    · next hne =>
      obtain ⟨value, hvalue, hrest⟩ := bind_eq_ok_iff.1 h
      obtain ⟨rest, hitems, heq⟩ := bind_eq_ok_iff.1 hrest
      cases heq
      have htext : IsEntry (trimBlanks entry) := ⟨hne, trimBlanks_trimBlanks entry,
        fun hc => hentry.1 (mem_of_mem_trimBlanks hc), fun hc => hentry.2 (mem_of_mem_trimBlanks hc)⟩
      exact List.forall_mem_cons.2 ⟨⟨_, htext, onLine_eq_ok_iff.1 hvalue⟩, ih hentries hitems⟩

/-- A list that is taken is spelled by its items. -/
theorem spelled_of_listPiece {line : Nat} {text : List Char} {piece : Piece}
    (h : listPiece line text = .ok piece) : piece.Spelled := by
  unfold listPiece at h
  split at h
  · next inside _ hsplit =>
    obtain ⟨-, hclose⟩ := splitOnce_eq_some_iff.1 hsplit
    -- entries are cut at the commas of what stands between the brackets
    have hentries : ∀ entry ∈ splitAll ',' inside, ',' ∉ entry ∧ ')' ∉ entry := fun entry hentry =>
      ⟨not_mem_of_mem_splitAll hentry, fun hc => hclose (subset_of_mem_splitAll hentry hc)⟩
    obtain ⟨items, hitems, hpiece⟩ := bind_eq_ok_iff.1 h
    cases hpiece
    refine Piece.spelled_of_some (.list ?_)
    unfold listValues at hitems
    split at hitems
    · cases hitems
      exact fun item hitem => absurd hitem List.not_mem_nil
    · exact exists_text_of_listItems hentries hitems
  · obtain ⟨items, -, hpiece⟩ := bind_eq_ok_iff.1 h
    cases hpiece

/-- A string that is taken is spelled in one of the quotes. -/
theorem spelled_of_stringPiece {line : Nat} {quote : Char} {text : List Char} {piece : Piece}
    (hquote : quote = '\x22' ∨ quote = '\x27') (h : stringPiece line quote text = .ok piece) :
    piece.Spelled := by
  unfold stringPiece at h
  split at h
  · next hsplit =>
    cases h
    exact Piece.spelled_of_some (.string hquote (splitOnce_eq_some_iff.1 hsplit).2)
  · cases h

/-- The value of a pair that stands apart from its colon is an atom of its own. -/
theorem spelled_of_pairPiece {line : Nat} {first : List Char} {key : Value} {text : List Char}
    {piece : Piece} (hfirst : IsKey first) (hkey : Value.ofText first = .ok key)
    (h : pairPiece line key text = .ok piece) : piece.Spelled := by
  unfold pairPiece at h
  dsimp only at h
  split at h
  · cases h
  · next hne =>
    obtain ⟨value, hvalue, hpiece⟩ := bind_eq_ok_iff.1 h
    cases hpiece
    exact Piece.spelled_of_some
      (.pair hfirst hkey (isAtom_takeWhile hne) (onLine_eq_ok_iff.1 hvalue))

/-- An atom that is taken is spelled as a pair or as one value. -/
theorem spelled_of_atomPiece {line : Nat} {atom text : List Char} {piece : Piece}
    (hatom : IsOpening atom) (h : atomPiece line atom text = .ok piece) : piece.Spelled := by
  unfold atomPiece at h
  split at h
  · next first hsplit =>
    obtain ⟨hfirst, -⟩ := of_splitPair hatom hsplit
    obtain ⟨key, hkey, hpiece⟩ := bind_eq_ok_iff.1 h
    exact spelled_of_pairPiece hfirst (onLine_eq_ok_iff.1 hkey) hpiece
  · next first second hsecond hsplit =>
    obtain ⟨hfirst, hsub⟩ := of_splitPair hatom hsplit
    obtain ⟨key, hkey, hrest⟩ := bind_eq_ok_iff.1 h
    obtain ⟨value, hvalue, hpiece⟩ := bind_eq_ok_iff.1 hrest
    cases hpiece
    exact Piece.spelled_of_some (.pair hfirst (onLine_eq_ok_iff.1 hkey)
      (hatom.of_subset hsub hsecond) (onLine_eq_ok_iff.1 hvalue))
  · next hundivided =>
    obtain ⟨kind, hkind, hpiece⟩ := bind_eq_ok_iff.1 h
    cases hpiece
    exact Piece.spelled_of_some (.atom hatom hundivided (onLine_eq_ok_iff.1 hkind))

/-- Whatever is taken off the front of a text, its token is spelled in one of the ways there are. -/
theorem spelled_of_nextPiece {line : Nat} {c : Char} {cs : List Char} {piece : Piece}
    (h : nextPiece line c cs = .ok piece) : piece.Spelled := by
  unfold nextPiece at h
  split at h
  · cases h; exact Piece.spelled_of_none
  next hblank =>
  split at h
  · cases h; exact Piece.spelled_of_none
  next hcomment =>
  split at h
  · cases h; exact Piece.spelled_of_some .openBlock
  next hopen =>
  split at h
  · cases h; exact Piece.spelled_of_some .closeBlock
  next hclose =>
  split at h
  · cases h; exact Piece.spelled_of_some .comma
  next hcomma =>
  split at h
  · exact spelled_of_listPiece h
  next hlist =>
  split at h
  · cases h
  next hend =>
  split at h
  · next hquote => exact spelled_of_stringPiece hquote h
  next hquote =>
  -- no delimiter is left for the first character
  have hfirst : isDelimiter c = false := by
    simp_all [isDelimiter]
  dsimp only at h
  split at h
  · exact spelled_of_commentPiece h
  · next hcomment =>
    refine spelled_of_atomPiece ⟨isAtom_cons_takeWhile hfirst cs, ?_⟩ h
    rintro ⟨opening, hopening⟩
    exact hcomment opening hopening.symm

/-! ## The whole text -/

/-- All tokens of a scan are spelled. -/
theorem spelled_of_scan {line : Nat} {text : List Char} {tokens : List Token}
    (h : scan line text = .ok tokens) : ∀ token ∈ tokens, token.kind.Spelled := by
  induction hlength : text.length using Nat.strongRecOn generalizing line text tokens with
  | ind n ih =>
    cases text with
    | nil =>
      rw [scan] at h
      cases h
      exact fun token htoken => absurd htoken List.not_mem_nil
    | cons c cs =>
      rw [scan] at h
      split at h
      · cases h
      · next piece hpiece =>
        obtain ⟨rest, hrest, rfl⟩ := map_eq_ok_iff.1 h
        have hshort := length_rest_of_nextPiece hpiece
        rw [List.length_cons] at hlength
        intro token htoken
        rcases List.mem_append.1 htoken with htoken | htoken
        · exact spelled_of_nextPiece hpiece token (Option.mem_toList.1 htoken)
        · exact ih _ (by omega) hrest rfl token htoken

/-- All tokens of a text are spelled. -/
theorem tokenize_spelled {text : String} {tokens : List Token} (h : tokenize text = .ok tokens) :
    ∀ token ∈ tokens, token.kind.Spelled :=
  spelled_of_scan h

/-! ## Words -/

/-- A word is the text it was taken from. -/
theorem TokenKind.eq_of_ofText {text : List Char} {word : String}
    (h : TokenKind.ofText text = .ok (.word word)) : word.toList = text := by
  obtain ⟨found, -, hrest⟩ := bind_eq_ok_iff.1 h
  cases found with
  | none => cases hrest; exact String.toList_ofList
  | some number => cases hrest

/-- A name is the text it was taken from. -/
theorem Value.eq_of_ofText {text : List Char} {name : String}
    (h : Value.ofText text = .ok (.symbol name)) : name.toList = text := by
  obtain ⟨found, -, hrest⟩ := bind_eq_ok_iff.1 h
  cases found with
  | none => cases hrest; exact String.toList_ofList
  | some number => cases hrest

namespace TokenKind.Spelled

/-- A word is an atom. -/
theorem isAtom_word {word : String} (h : Spelled (.word word)) : IsAtom word.toList := by
  cases h with
  | atom htext _ hkind => exact eq_of_ofText hkind ▸ htext.toIsAtom

/-- A symbol behind a colon is an atom. -/
theorem isAtom_value {key : Value} {name : String} (h : Spelled (.pair key (.symbol name))) :
    IsAtom name.toList := by
  cases h with
  | pair _ _ hsecond hvalue => exact Value.eq_of_ofText hvalue ▸ hsecond
  | @atom text _ _ _ hkind =>
    obtain ⟨found, -, hrest⟩ := bind_eq_ok_iff.1 hkind
    cases found <;> cases hrest

end TokenKind.Spelled

end ControlStore
