import Mathlib.Algebra.GroupWithZero.Nat
import ControlStore.Bits.Word
import ControlStore.Proofs.Stage

/-!
# Bits of words

What writing into a range does to the bits of a word, and what is read from a range in turn. A
range inside the word is always written (`Word.exists_writeRange`): its bits become those of the
value (`Mask.bitOf`), and all others stay. The value that is read is the one whose binary digits the
bits are (`Word.valueOf_eq_mod`, `Word.readRange_eq`).

A range that is moved up does the same to the bits above (`Word.exists_writeMask`), as long as its
ends stay within 64 bits. There the sums are the plain ones (`Mask.shift_eq`).
-/

namespace ControlStore

namespace Mask

/-- The range holds the bit at a position. -/
def Covers (mask : Mask) (i : Nat) : Prop := mask.lower ≤ i ∧ i ≤ mask.upper

instance (mask : Mask) (i : Nat) : Decidable (mask.Covers i) :=
  inferInstanceAs (Decidable (_ ∧ _))

/-- The bit that a value puts at a position of the range. Places from the 64th on get none of the
value. -/
def bitOf (mask : Mask) (value i : Nat) : Bool :=
  decide (i - mask.lower < 64) && value.testBit (i - mask.lower)

/-- The smaller end comes first. -/
theorem lower_le_upper (mask : Mask) : mask.lower ≤ mask.upper := by
  simp only [lower, upper]
  omega

/-- Where the upper end stays within 64 bits, both ends move by the offset. -/
theorem shift_eq {mask : Mask} {offset : Nat} (h : mask.upper + offset ≤ maxPattern) :
    mask.shift offset = ⟨mask.msb + offset, mask.lsb + offset⟩ := by
  have hmsb : mask.msb ≤ mask.upper := Nat.le_max_left ..
  have hlsb : mask.lsb ≤ mask.upper := Nat.le_max_right ..
  rw [shift, wrap_of_le (by omega), wrap_of_le (by omega)]

/-- The largest value of a range has all of its bits set, up to the 64th. -/
theorem maxValue_eq (mask : Mask) : mask.maxValue = 2 ^ min mask.length 64 - 1 := by
  rw [maxValue, Nat.one_shiftLeft]

end Mask

namespace Word

/-! ## Numbers and their digits -/

/-- Bits that are the low digits of a value spell the value up to their number. -/
theorem valueOf_eq_mod {bits : List Bool} {value : Nat}
    (h : ∀ i < bits.length, bits[i]? = some (value.testBit i)) :
    valueOf bits = value % 2 ^ bits.length := by
  induction bits generalizing value with
  | nil => simp [valueOf, Nat.mod_one]
  | cons bit bits ih =>
    have hfirst : bit = value.testBit 0 := by
      have hzero := h 0 (Nat.succ_pos _)
      simpa using hzero
    have hrest : valueOf bits = value / 2 % 2 ^ bits.length := by
      apply ih
      intro i hi
      have hnext := h (i + 1) (by simpa using hi)
      simpa [Nat.testBit_add_one] using hnext
    -- the first bit is the remainder, the others spell the half
    have hdigit : bit.toNat = value % 2 := by
      rw [hfirst, Nat.toNat_testBit]
      simp
    rw [valueOf, hdigit, hrest, List.length_cons, Nat.pow_succ', Nat.mod_mul]

/-! ## Writing and reading ranges -/

variable {word : Word} {mask : Mask} {offset value : Nat}

/-- A bit that is there can be read. -/
theorem get_of_getElem? {i : Nat} {bit : Bool} (h : word.bits[i]? = some bit) :
    word.get i = .ok bit := by
  have hlt : i < word.width := (List.getElem?_eq_some_iff.1 h).1
  simp [get, checkIndex, hlt, h, bind, Except.bind, pure, Except.pure]

/-- A range inside the word is written: its bits are those of the value, and the others stay. -/
theorem exists_writeRange {a b : Nat} (ha : a < word.width) (hb : b < word.width) (value : Nat) :
    ∃ written, word.writeRange a b value = .ok written ∧ written.width = word.width ∧
      ∀ i, written.bits[i]? = if (Mask.mk a b).Covers i then
        word.bits[i]?.map fun _ => (Mask.mk a b).bitOf value i else word.bits[i]? := by
  refine ⟨⟨word.bits.mapIdx fun i bit => if (Mask.mk a b).Covers i then
    (Mask.mk a b).bitOf value i else bit⟩, ?_, ?_, ?_⟩
  · simp only [writeRange, checkIndex, ha, hb, if_true]
    rfl
  · simp [width]
  · intro i
    rw [List.getElem?_mapIdx]
    by_cases hcovers : (Mask.mk a b).Covers i
    · simp only [if_pos hcovers]
    · simp only [if_neg hcovers, Option.map_id']

/-- What is read from a range whose bits are those of a value is the value, as far as the range and
64 bits hold it. -/
theorem readRange_eq {a b : Nat} (ha : a < word.width) (hb : b < word.width)
    (hbits : ∀ i, (Mask.mk a b).Covers i → word.bits[i]? = some ((Mask.mk a b).bitOf value i)) :
    word.readRange a b = .ok (value % 2 ^ min (Mask.mk a b).length 64) := by
  have hread : word.readRange a b = .ok (valueOf
      ((word.bits.drop (min a b)).take (min (Mask.mk a b).length 64))) := by
    simp only [readRange, checkIndex, ha, hb, if_true]
    rfl
  have hlength : (Mask.mk a b).length = max a b - min a b + 1 := rfl
  -- both ends are inside the word, so no bit is missing
  have hcount : ((word.bits.drop (min a b)).take (min (Mask.mk a b).length 64)).length =
      min (Mask.mk a b).length 64 := by
    rw [width] at ha hb
    rw [List.length_take, List.length_drop]
    omega
  have hdigits : ∀ i < ((word.bits.drop (min a b)).take (min (Mask.mk a b).length 64)).length,
      ((word.bits.drop (min a b)).take (min (Mask.mk a b).length 64))[i]? =
        some (value.testBit i) := by
    intro i hi
    rw [hcount] at hi
    have hcovers : (Mask.mk a b).Covers (min a b + i) := by
      show min a b ≤ min a b + i ∧ min a b + i ≤ max a b
      omega
    have hplace : min a b + i - (Mask.mk a b).lower = i := Nat.add_sub_cancel_left ..
    have hlow : i < 64 := by omega
    rw [List.getElem?_take_of_lt hi, List.getElem?_drop, hbits _ hcovers, Mask.bitOf, hplace]
    simp [hlow]
  rw [hread, valueOf_eq_mod hdigits, hcount]

/-! ## Ranges that are moved up -/

/-- The bits of a range that has been moved up are the bits of the range, further up. -/
theorem covers_moved {i : Nat} :
    (Mask.mk (mask.msb + offset) (mask.lsb + offset)).Covers i ↔
      offset ≤ i ∧ mask.Covers (i - offset) := by
  simp only [Mask.Covers, Mask.lower, Mask.upper]
  omega

/-- The smaller end of a range moves with the range. -/
theorem lower_moved :
    (Mask.mk (mask.msb + offset) (mask.lsb + offset)).lower = mask.lower + offset := by
  simp only [Mask.lower]
  omega

/-- A range keeps its length when it is moved up. -/
theorem length_moved (mask : Mask) (offset : Nat) :
    (Mask.mk (mask.msb + offset) (mask.lsb + offset)).length = mask.length := by
  simp only [Mask.length, Mask.lower, Mask.upper]
  omega

/-- A range that is moved up ends where its upper end is moved to. -/
theorem moved_lt {width : Nat} (h : mask.upper + offset < width) :
    mask.msb + offset < width ∧ mask.lsb + offset < width := by
  simp only [Mask.upper] at h
  omega

/-- A range that is moved up inside the word is written: its bits are those of the value, and the
others stay. -/
theorem exists_writeMask (hfits : mask.upper + offset ≤ maxPattern)
    (h : mask.upper + offset < word.width) (value : Nat) :
    ∃ written, word.writeMask mask offset value = .ok written ∧ written.width = word.width ∧
      ∀ i, written.bits[i]? = if offset ≤ i ∧ mask.Covers (i - offset) then
        word.bits[i]?.map fun _ => mask.bitOf value (i - offset) else word.bits[i]? := by
  obtain ⟨hmsb, hlsb⟩ := moved_lt h
  obtain ⟨written, hwritten, hwidth, hbits⟩ := exists_writeRange hmsb hlsb value
  refine ⟨written, ?_, hwidth, fun i => ?_⟩
  · rw [writeMask, Mask.shift_eq hfits]
    exact hwritten
  · rw [hbits]
    by_cases hin : offset ≤ i ∧ mask.Covers (i - offset)
    · have hplace : i - (mask.lower + offset) = i - offset - mask.lower := by omega
      rw [if_pos (covers_moved.2 hin), if_pos hin, Mask.bitOf, lower_moved, hplace, Mask.bitOf]
    · rw [if_neg (mt covers_moved.1 hin), if_neg hin]

/-- What is read from a range that is moved up, and whose bits are those of a value, is the value, up
to the length of the range. -/
theorem readMask_eq (hfits : mask.upper + offset ≤ maxPattern)
    (h : mask.upper + offset < word.width)
    (hbits : ∀ i, mask.Covers i → word.bits[i + offset]? = some (mask.bitOf value i)) :
    word.readMask mask offset = .ok (value % 2 ^ min mask.length 64) := by
  obtain ⟨hmsb, hlsb⟩ := moved_lt h
  rw [readMask, Mask.shift_eq hfits, ← length_moved mask offset]
  refine readRange_eq hmsb hlsb fun i hi => ?_
  obtain ⟨hle, hcovers⟩ := covers_moved.1 hi
  have hbit := hbits _ hcovers
  have hplace : i - (mask.lower + offset) = i - offset - mask.lower := by omega
  rw [Nat.sub_add_cancel hle] at hbit
  rw [hbit, Mask.bitOf, Mask.bitOf, lower_moved, hplace]

end Word

end ControlStore
