import ControlStore.Proofs.Source.Spelling

/-!
# Numbers in a program's text

Every number that is read from a text is a signed 64-bit integer: a plain number because larger
ones are refused, and a slice because it is a pattern. So are all numbers in a token, however it is
spelled (`TokenKind.Spelled.inRange`).
-/

namespace ControlStore

/-- A number that is not negative is a signed 64-bit integer up to the same limit. -/
theorem lt_of_inRange {n : Nat} (h : InRange n) : n < 0x8000000000000000 := Int.ofNat_lt.1 h.2

/-- A value that is a number is a signed 64-bit integer. -/
def Value.InRange : Value → Prop
  | .integer value => ControlStore.InRange value
  | .symbol _ => True

/-- All numbers in a token are signed 64-bit integers. -/
def TokenKind.InRange : TokenKind → Prop
  | .integer value => ControlStore.InRange value
  | .list items => ∀ item ∈ items, item.InRange
  | .pair key value => key.InRange ∧ value.InRange
  | .word _ | .string _ | .openBlock | .closeBlock | .comma => True

/-- Every bit pattern is a value. -/
theorem inRange_ofPattern (n : Nat) : InRange (ofPattern n) := by
  have hlow := Int.le_bmod (x := n) (m := 0x10000000000000000) (by decide)
  have hhigh := Int.bmod_lt (x := n) (m := 0x10000000000000000) (by decide)
  unfold InRange ofPattern
  omega

/-- Digits are read into values only. -/
theorem inRange_of_signed? {radix : Nat} {text : List Char} {value : Int}
    (h : signed? radix text = some value) : InRange value := by
  unfold signed? at h
  exact of_decide_eq_true (Option.filter_eq_some_iff.1 h).2

/-! ## Literals -/

/-- A number is read into a value only. -/
theorem inRange_of_number? {text : List Char} {value : Int}
    (h : number? text = .ok (some value)) : InRange value := by
  unfold number? at h
  split at h
  · split at h
    · next hsigned =>
      cases h
      exact inRange_of_signed? hsigned
    · cases h
  · exact inRange_of_signed? (Except.ok.inj h)

/-- A slice of a value is a value. -/
theorem inRange_of_slice {value sliced : Int} {mask : Mask} (h : slice value mask = .ok sliced) :
    InRange sliced := by
  unfold slice at h
  split at h
  · rw [← Except.ok.inj h]
    exact inRange_ofPattern _
  · cases h

/-- A literal is a value, with a selector or without. -/
theorem inRange_of_literal? {text : List Char} {value : Int}
    (h : literal? text = .ok (some value)) : InRange value := by
  unfold literal? at h
  split at h
  · exact inRange_of_number? h
  · split at h
    · cases h
    · obtain ⟨base, -, hrest⟩ := bind_eq_ok_iff.1 h
      cases base with
      | none => cases hrest
      | some base =>
        obtain ⟨sliced, hslice, heq⟩ := bind_eq_ok_iff.1 hrest
        cases heq
        exact inRange_of_slice hslice

/-- What an atom stands for is a name or in range. -/
theorem inRange_of_valueOfText {text : List Char} {value : Value}
    (h : Value.ofText text = .ok value) : value.InRange := by
  obtain ⟨found, hfound, hrest⟩ := bind_eq_ok_iff.1 h
  cases found with
  | none => cases hrest; trivial
  | some number => cases hrest; exact inRange_of_literal? hfound

/-- What a token stands for is a name or in range. -/
theorem inRange_of_kindOfText {text : List Char} {kind : TokenKind}
    (h : TokenKind.ofText text = .ok kind) : kind.InRange := by
  obtain ⟨found, hfound, hrest⟩ := bind_eq_ok_iff.1 h
  cases found with
  | none => cases hrest; trivial
  | some number => cases hrest; exact inRange_of_literal? hfound

/-- All numbers in a token of a text are signed 64-bit integers. -/
theorem TokenKind.Spelled.inRange {kind : TokenKind} (h : kind.Spelled) : kind.InRange := by
  cases h with
  | openBlock => trivial
  | closeBlock => trivial
  | comma => trivial
  | string _ _ => trivial
  | list hitems =>
    intro item hitem
    obtain ⟨text, -, htext⟩ := hitems item hitem
    exact inRange_of_valueOfText htext
  | pair _ hkey _ hvalue => exact ⟨inRange_of_valueOfText hkey, inRange_of_valueOfText hvalue⟩
  | atom _ _ hkind => exact inRange_of_kindOfText hkind

end ControlStore
