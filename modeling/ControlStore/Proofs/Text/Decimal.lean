import ControlStore.Text.Numeral

/-!
# Decimal numerals

Numbers are written with decimal digits, behind a minus sign if they are negative. What is written so
is read as the number that it was, with a sign (`signed?_toString`) and without one
(`unsigned?_toString`), as long as it fits into 64 bits. There are other spellings of a number, but
no other characters than digits and signs (`not_mem_of_unsigned?`).
-/

namespace ControlStore

/-! ## Digits -/

/-- A decimal digit stands for its distance from zero. -/
theorem digitValue?_of_isDigit {c : Char} (h : c.isDigit = true) :
    digitValue? 10 c = some (c.toNat - '0'.toNat) := by
  obtain ⟨hlow, hhigh⟩ := Char.isDigit_iff_toNat.1 h
  have hrange : '0' ≤ c ∧ c ≤ '9' := ⟨hlow, hhigh⟩
  have hvalue : c.toNat - '0'.toNat < 10 := by
    have hzero : '0'.toNat = 48 := rfl
    have hnine : '9'.toNat = 57 := rfl
    omega
  unfold digitValue?
  simp only [if_pos hrange, if_pos hvalue]

/-- Digits are read as the number that they stand for, behind the number that is read before. -/
theorem foldlM_decimal_digits {digits : List Char} (h : ∀ c ∈ digits, c.isDigit = true)
    (start : Nat) :
    digits.foldlM (fun n c => (digitValue? 10 c).map (10 * n + ·)) start =
      some (Nat.ofDigitChars 10 digits start) := by
  induction digits generalizing start with
  | nil => rfl
  | cons c cs ih =>
    rw [List.foldlM_cons, digitValue?_of_isDigit (h c (List.mem_cons_self ..)), Option.map_some,
      Option.bind_eq_bind, Option.bind_some, ih fun d hd => h d (List.mem_cons_of_mem _ hd),
      Nat.ofDigitChars_cons]

/-- A character that is not a digit does not occur in a number. -/
theorem not_mem_of_natural? {radix n : Nat} {text : List Char} {c : Char}
    (h : natural? radix text = some n) (hc : digitValue? radix c = none) : c ∉ text := by
  -- reading stops at the first character that is no digit, so there is none
  have hfold : ∀ {digits : List Char} {start : Nat},
      digits.foldlM (fun n c => (digitValue? radix c).map (radix * n + ·)) start = some n →
        c ∉ digits := by
    intro digits
    induction digits with
    | nil => exact fun _ => List.not_mem_nil
    | cons d ds ih =>
      intro start hread
      rw [List.foldlM_cons] at hread
      obtain ⟨value, hvalue, hrest⟩ := Option.bind_eq_some_iff.1 hread
      obtain ⟨digit, hdigit, -⟩ := Option.map_eq_some_iff.1 hvalue
      rw [List.mem_cons, not_or]
      refine ⟨?_, ih hrest⟩
      rintro rfl
      rw [hc] at hdigit
      cases hdigit
  cases text with
  | nil => exact List.not_mem_nil
  | cons d ds => exact hfold h

/-! ## Numbers without a sign -/

/-- A natural number is printed with decimal digits. -/
theorem isDigit_of_mem_toString {n : Nat} {c : Char} (h : c ∈ (toString n).toList) :
    c.isDigit = true := by
  rw [Nat.toString_eq_repr, Nat.toList_repr] at h
  exact Nat.isDigit_of_mem_toDigits (by decide) (by decide) h

/-- A number is read back from its decimal digits. -/
theorem natural?_toString (n : Nat) : natural? 10 (toString n).toList = some n := by
  have hdigits : ∀ c ∈ Nat.toDigits 10 n, c.isDigit = true :=
    fun c hc => Nat.isDigit_of_mem_toDigits (by decide) (by decide) hc
  rw [Nat.toString_eq_repr, Nat.toList_repr, natural?.eq_2 10 _ Nat.toDigits_ne_nil,
    foldlM_decimal_digits hdigits, Nat.ofDigitChars_ten_toDigits]

/-- No sign stands in front of the digits of a number. -/
theorem toList_toString_ne_cons {c : Char} (hc : c.isDigit = false) (n : Nat) (text : List Char) :
    (toString n).toList ≠ c :: text := by
  intro heq
  have hdigit := isDigit_of_mem_toString (heq ▸ List.mem_cons_self ..)
  rw [hc] at hdigit
  cases hdigit

/-- A printed natural number is read back, if it is in range. -/
theorem unsigned?_toString {n : Nat} (h : n ≤ maxPattern) :
    unsigned? (toString n).toList = some n := by
  unfold unsigned?
  split
  · next heq => exact absurd heq (toList_toString_ne_cons (by decide) n _)
  · dsimp only
    rw [natural?_toString, Option.filter_some, if_pos (by simpa using h)]

/-- Besides digits there can only be a plus sign in a number without a minus sign. -/
theorem not_mem_of_unsigned? {n : Nat} {text : List Char} {c : Char}
    (h : unsigned? text = some n) (hc : digitValue? 10 c = none) (hplus : c ≠ '+') : c ∉ text := by
  unfold unsigned? at h
  obtain ⟨hread, -⟩ := Option.filter_eq_some_iff.1 h
  split at hread
  · next digits =>
    rw [List.mem_cons, not_or]
    exact ⟨hplus, not_mem_of_natural? hread hc⟩
  · exact not_mem_of_natural? hread hc

/-! ## Numbers with a sign -/

/-- A number is written as the digits of its amount, behind a minus sign if it is negative. -/
theorem toList_toString_int (value : Int) :
    (toString value).toList = if 0 ≤ value then (toString value.toNat).toList
      else '-' :: (toString (-value).toNat).toList := by
  rw [Int.toString_eq_repr, Int.repr_eq_if]
  split
  · rfl
  · rw [String.toList_append]
    rfl

/-- An integer is printed with decimal digits and a sign. -/
theorem mem_toString_int {value : Int} {c : Char} (h : c ∈ (toString value).toList) :
    c = '-' ∨ c.isDigit = true := by
  rw [toList_toString_int] at h
  split at h
  · exact .inr (isDigit_of_mem_toString h)
  · rcases List.mem_cons.1 h with rfl | h
    · exact .inl rfl
    · exact .inr (isDigit_of_mem_toString h)

/-- Other characters are not in a printed integer. -/
theorem not_mem_toString_int {c : Char} (hdigit : c.isDigit = false) (hminus : c ≠ '-')
    (value : Int) : c ∉ (toString value).toList := by
  intro hmem
  rcases mem_toString_int hmem with rfl | hc
  · exact hminus rfl
  · rw [hdigit] at hc
    cases hc

/-- A printed integer has a character at least. -/
theorem toList_toString_int_ne_nil (value : Int) : (toString value).toList ≠ [] := by
  rw [toList_toString_int]
  split
  · rw [Nat.toString_eq_repr, Nat.toList_repr]
    exact Nat.toDigits_ne_nil
  · exact List.cons_ne_nil _ _

/-- A signed 64-bit number is read back from its decimal form. -/
theorem signed?_toString {value : Int} (h : InRange value) :
    signed? 10 (toString value).toList = some value := by
  have hkept : (some value).filter (fun n => decide (InRange n)) = some value := by
    rw [Option.filter_some, if_pos (by simpa using h)]
  rw [toList_toString_int]
  split
  · next hsign =>
    have hvalue : Int.ofNat value.toNat = value := Int.toNat_of_nonneg hsign
    unfold signed?
    split
    · next heq => exact absurd heq (toList_toString_ne_cons (by decide) _ _)
    · next heq => exact absurd heq (toList_toString_ne_cons (by decide) _ _)
    · rw [natural?_toString, Option.map_some, hvalue, hkept]
  · next hsign =>
    have hvalue : -((-value).toNat : Int) = value := by omega
    have hread := natural?_toString (-value).toNat
    simp only [signed?, hread]
    show (some (-((-value).toNat : Int))).filter (fun n => decide (InRange n)) = some value
    rw [hvalue, hkept]

end ControlStore
