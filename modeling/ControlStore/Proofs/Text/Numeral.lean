import Mathlib.Algebra.GroupWithZero.Nat
import Mathlib.Tactic.Ring
import ControlStore.Text.Numeral

/-!
# Binary numerals

A number in binary has as many digits as were asked for, or as many as it needs (`length_binary`).
So the digits have a fixed width exactly for the numbers below a power of two
(`length_binary_eq_iff`). Read again, they are the number that was written (`natural?_binary`).
-/

namespace ControlStore

/-- The digits of a binary numeral, from the highest place down. -/
theorem toList_binary (width n : Nat) :
    (binary width n).toList = (List.range (max width (n.log2 + 1))).reverse.map fun place =>
      if n.testBit place then '1' else '0' := by
  rw [binary, String.toList_ofList]

/-- A binary numeral has the given width, or more where the number needs it. -/
theorem length_binary (width n : Nat) : (binary width n).length = max width (n.log2 + 1) := by
  rw [← String.length_toList, toList_binary, List.length_map, List.length_reverse,
    List.length_range]

/-- A binary numeral has binary digits. -/
theorem mem_binary {width n : Nat} {c : Char} (h : c ∈ (binary width n).toList) :
    c = '0' ∨ c = '1' := by
  rw [toList_binary] at h
  obtain ⟨place, -, rfl⟩ := List.mem_map.1 h
  split
  · exact .inr rfl
  · exact .inl rfl

/-- The digits have the width that was asked for exactly if the number fits into it. -/
theorem length_binary_eq_iff {width : Nat} (hwidth : 0 < width) (n : Nat) :
    (binary width n).length = width ↔ n < 2 ^ width := by
  rw [length_binary]
  by_cases hn : n = 0
  · subst hn
    have hzero : Nat.log2 0 = 0 := by decide
    have hpow := Nat.two_pow_pos width
    omega
  · have hlog := Nat.log2_lt (k := width) hn
    omega

/-! ## Reading digits -/

/-- Digits in front of a place stand for twice the number per place, and the digits from the place
on for the number below it. -/
theorem foldlM_binary_digits (n places start : Nat) :
    ((List.range places).reverse.map fun place => if n.testBit place then '1' else '0').foldlM
      (fun value c => (digitValue? 2 c).map (2 * value + ·)) start =
        some (start * 2 ^ places + n % 2 ^ places) := by
  induction places generalizing start with
  | zero => simp [Nat.mod_one]
  | succ place ih =>
    have hdigit : digitValue? 2 (if n.testBit place then '1' else '0') =
        some (n.testBit place).toNat := by
      cases n.testBit place <;> decide
    rw [List.range_succ, List.reverse_append, List.reverse_singleton, List.singleton_append,
      List.map_cons, List.foldlM_cons, hdigit, Option.map_some, Option.bind_eq_bind,
      Option.bind_some, ih]
    -- the first digit counts for its place, the others for the remainder
    have hsplit : n % 2 ^ (place + 1) = n % 2 ^ place + 2 ^ place * (n.testBit place).toNat := by
      rw [Nat.pow_succ, Nat.mod_mul, Nat.toNat_testBit]
    rw [hsplit]
    congr 1
    ring

/-- A number is read back from its binary digits. -/
theorem natural?_binary (width n : Nat) : natural? 2 (binary width n).toList = some n := by
  have hne : (binary width n).toList ≠ [] := by
    rw [← List.length_pos_iff, String.length_toList, length_binary]
    omega
  have hlt : n < 2 ^ max width (n.log2 + 1) :=
    Nat.lt_of_lt_of_le Nat.lt_log2_self (Nat.pow_le_pow_right (by decide) (Nat.le_max_right _ _))
  rw [natural?.eq_2 2 _ hne, toList_binary, foldlM_binary_digits, Nat.zero_mul, Nat.zero_add,
    Nat.mod_eq_of_lt hlt]

end ControlStore
