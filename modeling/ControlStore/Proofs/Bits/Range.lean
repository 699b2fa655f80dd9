import ControlStore.Proofs.Bits.Word

/-!
# Range access

A range of a word is given by its two ends in either order, and only where both lie inside the word
can it be accessed. `Word.store` is writing as a change in place: what is refused leaves the word as
it was. Reading a range gives the bits of the number that stands there
(`Word.readRange_eq`), so what has been written is read back as far as the range and 64 bits hold it
(`Word.store_overwrites`).
-/

namespace ControlStore

namespace Word

open Stage

variable {word written : Word} {a b value i : Nat}

/-- Writes a value into a range of the word in place. -/
def store (a b value : Nat) : Stage BitError Word Unit := do
  let word ← MonadState.get
  let written ← word.writeRange a b value
  MonadStateOf.set written

/-! ## Refused positions -/

/-- A position is refused exactly if it is not in the word. -/
theorem checkIndex_eq_error_iff {error : BitError} : word.checkIndex i = .error error ↔
    word.width ≤ i ∧ error = .indexOutOfRange i word.width := by
  unfold checkIndex
  split
  · next hlt => exact iff_of_false (by simp) fun h => Nat.not_le_of_lt hlt h.1
  · next hle => simp [Nat.le_of_not_lt hle, eq_comm]

/-- Of two positions beyond the end of the word the first one is reported. -/
theorem writeRange_eq_error_iff {error : BitError} : word.writeRange a b value = .error error ↔
    (word.width ≤ a ∨ word.width ≤ b) ∧
      error = .indexOutOfRange (if word.width ≤ a then a else b) word.width := by
  unfold writeRange
  by_cases ha : word.width ≤ a
  · have hcheck : word.checkIndex a = .error (.indexOutOfRange a word.width) :=
      checkIndex_eq_error_iff.2 ⟨ha, rfl⟩
    rw [hcheck, if_pos ha]
    simp [bind, Except.bind, ha, eq_comm]
  · have hcheck : word.checkIndex a = .ok () := if_pos (Nat.lt_of_not_le ha)
    rw [hcheck, if_neg ha]
    by_cases hb : word.width ≤ b
    · have hcheck : word.checkIndex b = .error (.indexOutOfRange b word.width) :=
        checkIndex_eq_error_iff.2 ⟨hb, rfl⟩
      rw [hcheck]
      simp [bind, Except.bind, hb, eq_comm]
    · have hcheck : word.checkIndex b = .ok () := if_pos (Nat.lt_of_not_le hb)
      rw [hcheck]
      simp [bind, Except.bind, pure, Except.pure, ha, hb]

/-- A change in place leaves the word that is written. -/
theorem yields_store_iff {u : Unit} :
    (store a b value).Yields word u written ↔ word.writeRange a b value = .ok written := by
  constructor
  · intro h
    obtain ⟨_, _, hget, h⟩ := yields_bind.1 h
    obtain ⟨rfl, rfl⟩ := yields_get.1 hget
    obtain ⟨_, _, hlift, hset⟩ := yields_bind.1 h
    obtain ⟨hwrite, rfl⟩ := yields_liftM.1 hlift
    obtain rfl := yields_set.1 hset
    exact hwrite
  · intro h
    refine yields_bind.2 ⟨word, word, yields_get.2 ⟨rfl, rfl⟩, ?_⟩
    exact yields_bind.2 ⟨written, word, yields_liftM.2 ⟨h, rfl⟩, yields_set.2 rfl⟩

/-- A write that is refused changes nothing. -/
theorem failsIn_store_iff {cause : BitError} {final : Word} :
    (store a b value).FailsIn word cause final ↔
      word.writeRange a b value = .error cause ∧ word = final := by
  constructor
  · intro h
    rcases failsIn_bind.1 h with hget | ⟨_, _, hget, h⟩
    · exact absurd hget.1 fails_get
    · obtain ⟨rfl, rfl⟩ := yields_get.1 hget
      rcases failsIn_bind.1 h with hwrite | ⟨_, _, -, hset⟩
      · exact failsIn_liftM.1 hwrite
      · exact absurd hset.1 fails_set
  · intro h
    refine failsIn_bind.2 (.inr ⟨word, word, yields_get.2 ⟨rfl, rfl⟩, ?_⟩)
    exact failsIn_bind.2 (.inl (failsIn_liftM.2 h))

/-! ## Bits in a range -/

/-- A bit that is the same in two words of one width is read alike. -/
theorem get_congr (hwidth : written.width = word.width)
    (hbit : written.bits[i]? = word.bits[i]?) : written.get i = word.get i := by
  rw [get, get, checkIndex, checkIndex, hwidth, hbit]

/-- A range can be read in either order of its ends. -/
theorem readRange_comm (ha : a < word.width) (hb : b < word.width) :
    word.readRange b a = word.readRange a b := by
  unfold readRange
  rw [checkIndex, checkIndex, if_pos ha, if_pos hb, Nat.min_comm b a, Nat.max_comm b a]

/-! ## Writing and reading back -/

/-- Whatever the width of a word and the ends of a range: a write is refused exactly if an end is
not in the word, and then the word stays. Otherwise the bits of the range become those of the value,
with zeros from the 64th place on, all other bits stay, and the value is read back in either order
of the ends, as far as the range and 64 bits hold it. -/
theorem store_overwrites (word : Word) (a b value : Nat) :
    (∀ cause final, (store a b value).FailsIn word cause final ↔
      (word.width ≤ a ∨ word.width ≤ b) ∧
        cause = .indexOutOfRange (if word.width ≤ a then a else b) word.width ∧ final = word) ∧
    (a < word.width → b < word.width → ∃ written, (store a b value).Yields word () written ∧
      written.width = word.width ∧
      (∀ i, i < min a b ∨ max a b < i → written.get i = word.get i) ∧
      (∀ i, min a b ≤ i → i ≤ max a b →
        written.get i = .ok (decide (i - min a b < 64) && value.testBit (i - min a b))) ∧
      written.readRange a b = .ok (value % 2 ^ min (max a b - min a b + 1) 64) ∧
      written.readRange b a = .ok (value % 2 ^ min (max a b - min a b + 1) 64)) := by
  refine ⟨fun cause final => ?_, fun ha hb => ?_⟩
  · rw [failsIn_store_iff, writeRange_eq_error_iff, and_assoc, eq_comm (a := word)]
  · obtain ⟨written, hwritten, hwidth, hbits⟩ := exists_writeRange ha hb value
    -- a bit of the range is a bit of the word, so there is one to replace
    have hinside : ∀ i, (Mask.mk a b).Covers i →
        written.bits[i]? = some ((Mask.mk a b).bitOf value i) := by
      intro i hcovers
      have hlt : i < word.bits.length := Nat.lt_of_le_of_lt hcovers.2 (Nat.max_lt.2 ⟨ha, hb⟩)
      rw [hbits, if_pos hcovers, List.getElem?_eq_getElem hlt, Option.map_some]
    have hread : written.readRange a b = .ok (value % 2 ^ min (max a b - min a b + 1) 64) :=
      readRange_eq (hwidth ▸ ha) (hwidth ▸ hb) hinside
    refine ⟨written, yields_store_iff.2 hwritten, hwidth, ?_, ?_, hread, ?_⟩
    · intro i hout
      have hcovers : ¬(Mask.mk a b).Covers i := by
        rintro ⟨hlow, hhigh⟩
        rcases hout with hbelow | habove
        · exact Nat.not_le_of_lt hbelow hlow
        · exact Nat.not_le_of_lt habove hhigh
      exact get_congr hwidth (by rw [hbits, if_neg hcovers])
    · intro i hlow hhigh
      exact get_of_getElem? (hinside i ⟨hlow, hhigh⟩)
    · rw [readRange_comm (hwidth ▸ ha) (hwidth ▸ hb), hread]

/-- A word in which all bits are set. -/
def onesWord : Word := ⟨List.replicate 70 true⟩

/-- A range of 68 bits takes 64 bits of a value and four zeros, and leaves one bit on either side. A
range whose second end is beyond the word is refused for that end. -/
theorem store_overwrites_onesWord : onesWord.width = 70 ∧
    (store 3 99 0).FailsIn onesWord (.indexOutOfRange 99 70) onesWord ∧
    ∃ written, (store 68 1 0xFFFFFFFFFFFFFFFA).Yields onesWord () written ∧
      written.get 0 = .ok true ∧ written.get 1 = .ok false ∧ written.get 64 = .ok true ∧
      written.get 65 = .ok false ∧ written.get 69 = .ok true ∧
      written.readRange 1 68 = .ok 0xFFFFFFFFFFFFFFFA := by
  have hwidth : onesWord.width = 70 := by decide
  refine ⟨hwidth, ?_, ?_⟩
  · exact ((store_overwrites onesWord 3 99 0).1 _ _).2 ⟨by decide, by decide, rfl⟩
  · obtain ⟨written, hwritten, -, houtside, hinside, -, hread⟩ :=
      (store_overwrites onesWord 68 1 0xFFFFFFFFFFFFFFFA).2 (by decide) (by decide)
    refine ⟨written, hwritten, ?_, ?_, ?_, ?_, ?_, hread⟩
    · exact houtside 0 (by decide)
    · exact hinside 1 (by decide) (by decide)
    · exact hinside 64 (by decide) (by decide)
    · exact hinside 65 (by decide) (by decide)
    · exact houtside 69 (by decide)

end Word

end ControlStore
