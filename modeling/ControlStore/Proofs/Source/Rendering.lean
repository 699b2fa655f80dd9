import ControlStore.Proofs.Source.Lines
import ControlStore.Proofs.Source.Range
import ControlStore.Proofs.Source.Selector
import ControlStore.Proofs.Text.Decimal
import ControlStore.Proofs.Text.Split

/-!
# Tokens that are written again

A token can be written in the form that messages show. Only a string has to be put between quotes
again. What is written so is not the text that the token came from: literals are folded into decimal
numbers, the blanks around the entries of a list are gone, and the value of a pair stands right
behind its colon. But it is read as the same token.

`TokenKind.ReadsFrom` is what one token needs: its form is read as the token wherever a delimiter, or
nothing, comes behind. The cases of `TokenKind.Spelled` are gone through for it
(`TokenKind.Spelled.readsFrom`), and `tokenize_rendered` joins the tokens of a text.
-/

namespace ControlStore

/-- The texts that a token is written as: the form that messages show, and a string between quotes
that do not occur in it. -/
def TokenKind.Renders : TokenKind → String → Prop
  | .string inside, text => ∃ quote : Char, (quote = '\x22' ∨ quote = '\x27') ∧
      quote ∉ inside.toList ∧ text = String.ofList (quote :: inside.toList ++ [quote])
  | kind, text => text = kind.text

/-! ## Numbers -/

/-- No delimiter is a digit or a sign. -/
theorem isDigit_of_isDelimiter {c : Char} (h : isDelimiter c = true) :
    c.isDigit = false ∧ c ≠ '-' := by
  rw [isDelimiter, Bool.or_eq_true] at h
  rcases h with hblank | hmark
  · obtain ⟨range, hrange, hc⟩ := List.any_eq_true.1 hblank
    -- the ranges of blanks lie below the sign or above the digits
    have hapart : ∀ range ∈ blankRanges, range.2 < '-'.toNat ∨ '9'.toNat < range.1 := by decide
    have hminus : '-'.toNat < '0'.toNat := by decide
    have hdigits : '0'.toNat < '9'.toNat := by decide
    simp only [Bool.and_eq_true, decide_eq_true_eq] at hc
    have hrange := hapart range hrange
    refine ⟨?_, ?_⟩
    · rw [← Bool.not_eq_true, Char.isDigit_iff_toNat]
      omega
    · rintro rfl
      omega
  · simp only [List.mem_cons, List.not_mem_nil, or_false, decide_eq_true_eq] at hmark
    rcases hmark with rfl | rfl | rfl | rfl | rfl | rfl | rfl | rfl <;> decide

/-- A printed number has no delimiters. -/
theorem isDelimiter_of_mem_toString {value : Int} {c : Char} (h : c ∈ (toString value).toList) :
    isDelimiter c = false := by
  rw [← Bool.not_eq_true]
  intro hc
  obtain ⟨hdigit, hminus⟩ := isDigit_of_isDelimiter hc
  exact not_mem_toString_int hdigit hminus value h

/-- A printed number can be the key of a pair. -/
theorem isKey_toString (value : Int) : IsKey (toString value).toList where
  ne_nil := toList_toString_int_ne_nil value
  plain _ := isDelimiter_of_mem_toString
  not_comment := by
    rintro ⟨rest, hrest⟩
    refine not_mem_toString_int (c := '/') (by decide) (by decide) value ?_
    rw [← hrest]
    exact List.mem_cons_self ..
  colonless := not_mem_toString_int (by decide) (by decide) value
  bracketless := not_mem_toString_int (by decide) (by decide) value

/-- A printed number can be an item of a list. -/
theorem isEntry_toString (value : Int) : IsEntry (toString value).toList where
  ne_nil := toList_toString_int_ne_nil value
  trimmed := trimBlanks_eq_self fun c hc => by
    have hplain := isDelimiter_of_mem_toString hc
    rw [isDelimiter, Bool.or_eq_false_iff] at hplain
    exact hplain.1
  commaless := not_mem_toString_int (by decide) (by decide) value
  closeless := not_mem_toString_int (by decide) (by decide) value

/-- A printed number is read back. -/
theorem literal?_toString {value : Int} (h : InRange value) :
    literal? (toString value).toList = .ok (some value) := by
  -- a printed number has no selector and no base, so it is read as digits with a sign
  have hbracket : '[' ∉ (toString value).toList :=
    not_mem_toString_int (by decide) (by decide) value
  unfold literal?
  rw [selector?_eq_none hbracket]
  dsimp only
  unfold number?
  split
  · next digits heq =>
    have hx : 'x' ∈ (toString value).toList := by
      rw [heq]
      exact List.mem_cons_of_mem _ (List.mem_cons_self ..)
    exact absurd hx (not_mem_toString_int (by decide) (by decide) value)
  · rw [signed?_toString h]

/-! ## Literals -/

/-- A value that was read from a text is read from its written form, which has every property that
the text and all numbers have. -/
theorem Value.ofText_text {P : List Char → Prop} (hnumber : ∀ n : Int, P (toString n).toList)
    {text : List Char} (htext : P text) {value : Value} (h : Value.ofText text = .ok value) :
    P value.text.toList ∧ Value.ofText value.text.toList = .ok value := by
  cases value with
  | integer n =>
    refine ⟨hnumber n, ?_⟩
    rw [Value.ofText, Value.text, literal?_toString (inRange_of_valueOfText h)]
    rfl
  | symbol name =>
    have hname : name.toList = text := Value.eq_of_ofText h
    rw [Value.text, hname]
    exact ⟨htext, h⟩

/-- What an atom stands for is printed as an atom that stands for the same, number or word. -/
theorem TokenKind.ofText_text {P : List Char → Prop} (hnumber : ∀ n : Int, P (toString n).toList)
    {text : List Char} (htext : P text) {kind : TokenKind} (h : TokenKind.ofText text = .ok kind) :
    P kind.text.toList ∧ TokenKind.ofText kind.text.toList = .ok kind := by
  obtain ⟨found, -, hkind⟩ := bind_eq_ok_iff.1 h
  cases found with
  | none =>
    cases hkind
    rw [TokenKind.text, String.toList_ofList]
    exact ⟨htext, h⟩
  | some n =>
    cases hkind
    refine ⟨hnumber n, ?_⟩
    rw [TokenKind.ofText, TokenKind.text, literal?_toString (inRange_of_kindOfText h)]
    rfl

/-! ## One token -/

/-- The text is read as the token if it ends where it does. -/
def TokenKind.ReadsFrom (kind : TokenKind) (text : List Char) : Prop :=
  ∀ (line : Nat) {more : List Char}, Ends more → ∃ next : Nat,
    scan line (text ++ more) = (scan next more).map (⟨kind, line⟩ :: ·)

/-- A piece with a token is scanned as this token and the tokens behind it. -/
theorem scan_of_nextPiece {line next : Nat} {c : Char} {cs rest : List Char} {token : Token}
    (h : nextPiece line c cs = .ok ⟨some token, next, rest⟩) :
    scan line (c :: cs) = (scan next rest).map (token :: ·) := by
  rw [scan_cons, h]
  rfl

/-- An atom is taken whole where it ends. -/
theorem nextPiece_atom {c : Char} {cs more : List Char} (h : IsOpening (c :: cs))
    (hmore : Ends more) (line : Nat) :
    nextPiece line c (cs ++ more) = atomPiece line (c :: cs) more := by
  obtain ⟨hfirst, hcs⟩ := List.forall_mem_cons.1 h.plain
  obtain ⟨htake, hdrop⟩ := takeWhile_atom hcs hmore
  obtain ⟨hblank, hmarks⟩ := Bool.or_eq_false_iff.1 hfirst
  simp only [List.mem_cons, List.not_mem_nil, or_false, not_or, decide_eq_false_iff_not] at hmarks
  unfold nextPiece
  simp only [hblank, hmarks, or_self, if_false, htake, hdrop, Bool.false_eq_true]
  split
  · next opening heq =>
    exact absurd ⟨opening, heq.symm⟩ h.not_comment
  · rfl

/-- A token that is read from an atom is read wherever the atom stands. -/
theorem readsFrom_of_atomPiece {kind : TokenKind} {atom : List Char} (hatom : IsOpening atom)
    (h : ∀ (line : Nat) (more : List Char),
      atomPiece line atom more = .ok ⟨some ⟨kind, line⟩, line, more⟩) : kind.ReadsFrom atom := by
  intro line more hmore
  cases atom with
  | nil => exact absurd rfl hatom.ne_nil
  | cons c cs =>
    have hpiece := nextPiece_atom hatom hmore line
    rw [h] at hpiece
    exact ⟨line, scan_of_nextPiece hpiece⟩

/-- An atom without a colon is the token it stands for. -/
theorem readsFrom_of_ofText {kind : TokenKind} {atom : List Char} (hatom : IsOpening atom)
    (hundivided : splitPair atom = none) (h : TokenKind.ofText atom = .ok kind) :
    kind.ReadsFrom atom := by
  refine readsFrom_of_atomPiece hatom fun line more => ?_
  unfold atomPiece
  simp only [hundivided, h]
  rfl

/-! ## Pairs -/

/-- Text without a colon is no pair. -/
theorem splitPair_eq_none {atom : List Char} (h : ':' ∉ atom) : splitPair atom = none := by
  unfold splitPair
  rw [splitOnce_eq_none_iff.2 h]

/-- A pair is split at the colon behind its key. -/
theorem splitPair_append {key value : List Char} (hkey : IsKey key) :
    splitPair (key ++ ':' :: value) = some (key, value) := by
  unfold splitPair
  rw [splitOnce_eq_some_iff.2 ⟨rfl, hkey.colonless⟩]
  simp only [hkey.ne_nil, hkey.bracketless, or_self, if_false]

/-- With a colon and a value behind it, a key is an atom that does not open a comment. -/
theorem isOpening_pair {key value : List Char} (hkey : IsKey key) (hvalue : IsAtom value) :
    IsOpening (key ++ ':' :: value) where
  ne_nil := by simp
  plain c hc := by
    rcases List.mem_append.1 hc with hc | hc
    · exact hkey.plain c hc
    · rcases List.mem_cons.1 hc with rfl | hc
      · decide
      · exact hvalue.plain c hc
  not_comment := by
    intro hcomment
    have hne := hkey.ne_nil
    -- the second character is the colon, or it belongs to the key
    match key with
    | [first] => simp at hcomment
    | first :: second :: rest => exact hkey.not_comment (by simpa using hcomment)

/-- A key and a value with a colon between them are a pair. -/
theorem readsFrom_pair {first second : List Char} {key value : Value} (hfirst : IsKey first)
    (hkey : Value.ofText first = .ok key) (hsecond : IsAtom second)
    (hvalue : Value.ofText second = .ok value) :
    (TokenKind.pair key value).ReadsFrom (first ++ ':' :: second) := by
  refine readsFrom_of_atomPiece (isOpening_pair hfirst hsecond) fun line more => ?_
  obtain ⟨c, cs, rfl⟩ := List.exists_cons_of_ne_nil hsecond.ne_nil
  unfold atomPiece
  simp only [splitPair_append hfirst, hkey, hvalue]
  rfl

/-! ## Lists -/

/-- Entries that stand for values are the items of a list. -/
theorem listItems_eq_ok {line : Nat} {entries : List (List Char)} {items : List Value}
    (h : List.Forall₂ (fun entry item => IsEntry (trimBlanks entry) ∧
      Value.ofText (trimBlanks entry) = .ok item) entries items) :
    listItems line entries = .ok items := by
  induction h generalizing line with
  | nil => rfl
  | @cons entry item entries items hentry hrest ih =>
    unfold listItems
    simp only [hentry.1.ne_nil, if_false, hentry.2, ih]
    rfl

/-- The entries of a list are read one by one from what is written with a comma and a space between
them. -/
theorem listValues_text {items : List Value}
    (h : ∀ item ∈ items, IsEntry item.text.toList ∧ Value.ofText item.text.toList = .ok item)
    (line : Nat) :
    listValues line ([',', ' '].intercalate (items.map (·.text.toList))) = .ok items := by
  cases items with
  | nil => rfl
  | cons item items =>
    obtain ⟨hitem, hitems⟩ := List.forall_mem_cons.1 h
    have hfirst : item.text.toList ⊆
        [',', ' '].intercalate ((item :: items).map (·.text.toList)) := by
      cases items <;> simp [List.intercalate_cons_cons]
    have hne : trimBlanks ([',', ' '].intercalate ((item :: items).map (·.text.toList))) ≠ [] := by
      intro hnil
      have hblank : trimBlanks item.text.toList = [] :=
        trimBlanks_eq_nil_iff.2 fun c hc => trimBlanks_eq_nil_iff.1 hnil c (hfirst hc)
      rw [hitem.1.trimmed] at hblank
      exact hitem.1.ne_nil hblank
    have hcommaless : ∀ text ∈ items.map (·.text.toList), ',' ∉ text := by
      intro text htext
      obtain ⟨other, hother, rfl⟩ := List.mem_map.1 htext
      exact (hitems other hother).1.commaless
    unfold listValues
    rw [if_neg hne, List.map_cons, splitAll_intercalate (by decide) hitem.1.commaless hcommaless]
    refine listItems_eq_ok (.cons ?_ ?_)
    · rw [hitem.1.trimmed]
      exact hitem
    · -- behind a comma, an entry has a space in front
      rw [List.map_map, List.forall₂_map_left_iff, List.forall₂_same]
      intro other hother
      show IsEntry (trimBlanks (' ' :: other.text.toList)) ∧
        Value.ofText (trimBlanks (' ' :: other.text.toList)) = .ok other
      rw [trimBlanks_cons (by decide), (hitems other hother).1.trimmed]
      exact hitems other hother

/-- A printed list is read back as the list. -/
theorem readsFrom_list {items : List Value}
    (h : ∀ item ∈ items, IsEntry item.text.toList ∧ Value.ofText item.text.toList = .ok item) :
    (TokenKind.list items).ReadsFrom (TokenKind.list items).text.toList := by
  have htext : (TokenKind.list items).text.toList =
      '(' :: [',', ' '].intercalate (items.map (·.text.toList)) ++ [')'] := by
    simp [TokenKind.text, String.toList_append, String.toList_intercalate, Function.comp_def]
  -- no item holds the bracket that closes the list, so the list ends where it was closed
  have hcloseless : ')' ∉ [',', ' '].intercalate (items.map (·.text.toList)) := by
    refine not_mem_intercalate (by decide) fun text htext => ?_
    obtain ⟨item, hitem, rfl⟩ := List.mem_map.1 htext
    exact (h item hitem).1.closeless
  intro line more _
  have hpiece : listPiece line ([',', ' '].intercalate (items.map (·.text.toList)) ++ ')' :: more) =
      .ok ⟨some ⟨.list items, line⟩,
        line + newlines ([',', ' '].intercalate (items.map (·.text.toList))), more⟩ := by
    unfold listPiece
    rw [splitOnce_eq_some_iff.2 ⟨rfl, hcloseless⟩]
    simp only [listValues_text h]
    rfl
  rw [htext, List.append_assoc]
  exact ⟨_, scan_of_nextPiece hpiece⟩

/-! ## Strings and marks -/

/-- A string in quotes it does not contain is read back. -/
theorem readsFrom_string {quote : Char} (hquote : quote = '\x22' ∨ quote = '\x27')
    {inside : String} (hinside : quote ∉ inside.toList) :
    (TokenKind.string inside).ReadsFrom (quote :: inside.toList ++ [quote]) := by
  intro line more _
  have hpiece : stringPiece line quote (inside.toList ++ quote :: more) =
      .ok ⟨some ⟨.string inside, line⟩, line + newlines inside.toList, more⟩ := by
    unfold stringPiece
    rw [splitOnce_eq_some_iff.2 ⟨rfl, hinside⟩]
    simp only [String.ofList_toList]
  rw [List.append_assoc]
  rcases hquote with rfl | rfl <;> exact ⟨_, scan_of_nextPiece hpiece⟩

theorem readsFrom_openBlock : TokenKind.openBlock.ReadsFrom ['\x7b'] :=
  fun line _ _ => ⟨line, scan_of_nextPiece rfl⟩

theorem readsFrom_closeBlock : TokenKind.closeBlock.ReadsFrom ['\x7d'] :=
  fun line _ _ => ⟨line, scan_of_nextPiece rfl⟩

theorem readsFrom_comma : TokenKind.comma.ReadsFrom [','] :=
  fun line _ _ => ⟨line, scan_of_nextPiece rfl⟩

/-! ## All tokens of a text -/

/-- A literal is written in the form that messages show. -/
theorem TokenKind.Renders.eq_text {kind : TokenKind} {text : List Char}
    (h : TokenKind.ofText text = .ok kind) {written : String} (hwritten : kind.Renders written) :
    written = kind.text := by
  obtain ⟨found, -, hkind⟩ := bind_eq_ok_iff.1 h
  cases found with
  | none => cases hkind; exact hwritten
  | some n => cases hkind; exact hwritten

/-- A token of a text can be written: a string lacks one of the quotes. -/
theorem TokenKind.Spelled.exists_renders {kind : TokenKind} (h : kind.Spelled) :
    ∃ written, kind.Renders written := by
  cases h with
  | @string quote text hquote htext =>
    exact ⟨_, quote, hquote, by rwa [String.toList_ofList], rfl⟩
  | openBlock => exact ⟨_, rfl⟩
  | closeBlock => exact ⟨_, rfl⟩
  | comma => exact ⟨_, rfl⟩
  | list _ => exact ⟨_, rfl⟩
  | pair _ _ _ _ => exact ⟨_, rfl⟩
  | atom _ _ hkind =>
    obtain ⟨found, -, hkind⟩ := bind_eq_ok_iff.1 hkind
    cases found <;> cases hkind <;> exact ⟨_, rfl⟩

/-- However a token was spelled, it is read from the form in which it is written. -/
theorem TokenKind.Spelled.readsFrom {kind : TokenKind} (h : kind.Spelled) {written : String}
    (hwritten : kind.Renders written) : kind.ReadsFrom written.toList := by
  cases h with
  | openBlock =>
    cases hwritten
    exact readsFrom_openBlock
  | closeBlock =>
    cases hwritten
    exact readsFrom_closeBlock
  | comma =>
    cases hwritten
    exact readsFrom_comma
  | string _ _ =>
    obtain ⟨quote, hquote, hinside, rfl⟩ := hwritten
    rw [String.toList_ofList]
    exact readsFrom_string hquote hinside
  | list hitems =>
    cases hwritten
    refine readsFrom_list fun item hitem => ?_
    obtain ⟨text, htext, hitem⟩ := hitems item hitem
    exact Value.ofText_text isEntry_toString htext hitem
  | @pair first second key value hfirst hkey hsecond hvalue =>
    cases hwritten
    obtain ⟨hfirst, hkey⟩ := Value.ofText_text isKey_toString hfirst hkey
    obtain ⟨hsecond, hvalue⟩ :=
      Value.ofText_text (fun n => (isKey_toString n).toIsAtom) hsecond hvalue
    have htext : (TokenKind.pair key value).text.toList =
        key.text.toList ++ ':' :: value.text.toList := by
      simp [TokenKind.text, String.toList_append]
    rw [htext]
    exact readsFrom_pair hfirst hkey hsecond hvalue
  | @atom text _ htext hundivided hkind =>
    rw [hwritten.eq_text hkind]
    have hnumber : ∀ n : Int, IsOpening (toString n).toList ∧ splitPair (toString n).toList = none :=
      fun n => ⟨(isKey_toString n).toIsOpening, splitPair_eq_none (isKey_toString n).colonless⟩
    obtain ⟨⟨hopening, hundivided⟩, hread⟩ :=
      TokenKind.ofText_text (P := fun text => IsOpening text ∧ splitPair text = none) hnumber
        ⟨htext, hundivided⟩ hkind
    exact readsFrom_of_ofText hopening hundivided hread

/-- Tokens with spaces between them are read one after the other. -/
theorem scan_intercalate {kinds : List TokenKind} {texts : List (List Char)}
    (h : List.Forall₂ TokenKind.ReadsFrom kinds texts) (line : Nat) :
    ∃ tokens, scan line ([' '].intercalate texts) = .ok tokens ∧ tokens.map Token.kind = kinds := by
  induction h generalizing line with
  | nil => exact ⟨[], scan_nil line, rfl⟩
  | @cons kind text kinds texts hfirst hrest ih =>
    -- what follows the first token is nothing, or a space and the other tokens
    have hmore : ∃ more, Ends more ∧ [' '].intercalate (text :: texts) = text ++ more ∧
        ∀ next, ∃ tokens, scan next more = .ok tokens ∧ tokens.map Token.kind = kinds := by
      by_cases hend : texts = []
      · subst hend
        cases hrest
        exact ⟨[], ends_nil, by simp, fun next => ⟨[], scan_nil next, rfl⟩⟩
      · refine ⟨' ' :: [' '].intercalate texts, ends_cons (by decide) _, ?_, fun next => ?_⟩
        · rw [List.intercalate_cons_of_ne_nil hend, List.append_assoc]
          rfl
        · rw [scan_blank (by decide)]
          exact ih _
    obtain ⟨more, hends, htext, hmore⟩ := hmore
    obtain ⟨next, hscan⟩ := hfirst line hends
    obtain ⟨tokens, htokens, hkinds⟩ := hmore next
    refine ⟨⟨kind, line⟩ :: tokens, ?_, ?_⟩
    · rw [htext, hscan, htokens]
      rfl
    · rw [List.map_cons, hkinds]

/-- The tokens of a text can be written, and with spaces between them they are read again: the text
that they make up has tokens of the same kinds, with the same numbers, names, strings and lists. -/
theorem tokenize_rendered {text : String} {tokens : List Token} (h : tokenize text = .ok tokens) :
    (∀ token ∈ tokens, ∃ written, token.kind.Renders written) ∧
    ∀ {texts : List String},
      List.Forall₂ (fun token written => token.kind.Renders written) tokens texts →
        ∃ again, tokenize (" ".intercalate texts) = .ok again ∧
          again.map Token.kind = tokens.map Token.kind := by
  have hspelled := tokenize_spelled h
  refine ⟨fun token htoken => (hspelled token htoken).exists_renders, fun {texts} hwritten => ?_⟩
  have hreads : List.Forall₂ TokenKind.ReadsFrom (tokens.map Token.kind)
      (texts.map String.toList) := by
    rw [List.forall₂_map_left_iff, List.forall₂_map_right_iff]
    refine ((List.forall₂_and_left ..).2 ⟨hspelled, hwritten⟩).imp fun token written htoken => ?_
    exact htoken.1.readsFrom htoken.2
  rw [tokenize, String.toList_intercalate]
  exact scan_intercalate hreads 1

/-- A text with strings in either quotes, lists, blocks, pairs, words and numbers, most of which are
not spelled in the form in which they are written again. -/
def foldedText : String :=
  "\x22it\x27s\x22 \x27a\x22b\x27( p q ,0x1F,\n-5 )()\x7bx:\n0xF0[7:4] k::v -007 :lab a[2:1],\x7d# end"

def foldedTokens : List Token :=
  [⟨.string "it\x27s", 1⟩, ⟨.string "a\x22b", 1⟩,
    ⟨.list [.symbol "p q", .integer 31, .integer (-5)], 1⟩, ⟨.list [], 2⟩, ⟨.openBlock, 2⟩,
    ⟨.pair (.symbol "x") (.integer 15), 2⟩, ⟨.pair (.symbol "k") (.symbol ":v"), 3⟩,
    ⟨.integer (-7), 3⟩, ⟨.word ":lab", 3⟩, ⟨.word "a[2:1]", 3⟩, ⟨.comma, 3⟩, ⟨.closeBlock, 3⟩]

def renderedTexts : List String :=
  ["\x22it\x27s\x22", "\x27a\x22b\x27", "(p q, 31, -5)", "()", "\x7b", "x:15", "k::v", "-7", ":lab",
    "a[2:1]", ",", "\x7d"]

/-- A text with a folded number and its printed tokens. -/
theorem tokenize_rendered_foldedText : tokenize foldedText = .ok foldedTokens ∧
    List.Forall₂ (fun token written => token.kind.Renders written) foldedTokens renderedTexts ∧
    ∃ again, tokenize (" ".intercalate renderedTexts) = .ok again ∧
      again.map Token.kind = foldedTokens.map Token.kind := by
  have hread : tokenize foldedText = .ok foldedTokens := by decide +kernel
  have hwritten : List.Forall₂ (fun token written => token.kind.Renders written) foldedTokens
      renderedTexts := by
    simp only [foldedTokens, renderedTexts, List.forall₂_cons, List.Forall₂.nil, and_true]
    exact ⟨⟨'\x22', .inl rfl, by decide, rfl⟩, ⟨'\x27', .inr rfl, by decide, rfl⟩, rfl, rfl, rfl, rfl,
      rfl, rfl, rfl, rfl, rfl, rfl⟩
  exact ⟨hread, hwritten, (tokenize_rendered hread).2 hwritten⟩

end ControlStore
