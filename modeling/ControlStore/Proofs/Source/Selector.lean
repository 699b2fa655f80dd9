import ControlStore.Proofs.Bits.Range
import ControlStore.Proofs.Source.Range
import ControlStore.Proofs.Text.Decimal
import ControlStore.Proofs.Text.Split

/-!
# Bit selectors

A number with a selector behind it, `base[first:second]` or `base[bit]`, is the number that the
selected bits of its pattern are. The bits are cut out by masking and shifting (`slice_eq`), and they
are the bits that are read from a word of 64 bits that holds the pattern
(`Word.readRange_of_pattern`). `TokenKind.ofText_selected` says this of all signed 64-bit numbers and
all pairs of positions, and that nothing but a position beyond 64 bits is refused.
-/

namespace ControlStore

/-! ## Numbers and patterns -/

/-- A pattern of 64 bits is kept by the value it stands for. -/
theorem pattern_ofPattern {n : Nat} (h : n ≤ maxPattern) : pattern (ofPattern n) = n := by
  unfold maxPattern at h
  unfold pattern ofPattern
  rw [Int.bmod_def]
  omega

/-- Masking and shifting cut a slice out of a pattern. -/
theorem slice_eq (value : Int) (mask : Mask) : slice value mask =
    if 64 ≤ mask.upper then .error (.selector (.maskTooWide mask))
    else .ok (ofPattern (pattern value / 2 ^ mask.lower % 2 ^ mask.length)) := by
  unfold slice Mask.toPattern
  by_cases hwide : 64 ≤ mask.upper
  · simp only [if_pos hwide]
  · have hlength : min mask.length 64 = mask.length := by
      rw [Mask.length]
      omega
    -- masking and shifting down is dividing, and then the remainder
    have hbits : (pattern value &&& mask.maxValue <<< mask.lower) >>> mask.lower =
        pattern value / 2 ^ mask.lower % 2 ^ mask.length := by
      rw [Nat.shiftRight_and_distrib, Nat.shiftLeft_shiftRight, Mask.maxValue_eq, hlength,
        Nat.and_two_pow_sub_one_eq_mod, Nat.shiftRight_eq_div_pow]
    simp only [if_neg hwide, hbits]

/-- The bits of a number are stored in a word of 64 bits, and a slice of the number is read from
it. -/
theorem Word.readRange_of_pattern {word : Word} (hwidth : word.width = 64) {a b : Nat}
    (hmax : max a b < 64) (n : Nat) :
    ∃ written, word.writeRange 63 0 n = .ok written ∧
      written.readRange a b = .ok (n / 2 ^ min a b % 2 ^ (max a b - min a b + 1)) := by
  have hlast : 63 < word.width := by omega
  have hfirst : 0 < word.width := by omega
  obtain ⟨written, hwritten, hsame, hbits⟩ := exists_writeRange hlast hfirst n
  have hlength : min (Mask.mk a b).length 64 = max a b - min a b + 1 := by
    simp only [Mask.length, Mask.upper, Mask.lower]
    omega
  refine ⟨written, hwritten, ?_⟩
  rw [← hlength, ← Nat.shiftRight_eq_div_pow]
  refine readRange_eq (by omega) (by omega) fun i hcovers => ?_
  have hle : i < 64 := Nat.lt_of_le_of_lt hcovers.2 hmax
  have hlt : i < word.bits.length := by
    rw [width] at hwidth
    omega
  -- the word holds the pattern bit by bit, so the bits read are those of the quotient
  have hplace : min a b + (i - min a b) = i := Nat.add_sub_cancel' hcovers.1
  rw [hbits, if_pos ⟨Nat.zero_le _, Nat.le_of_lt_succ hle⟩, List.getElem?_eq_getElem hlt,
    Option.map_some]
  simp only [Mask.bitOf, Mask.lower, Nat.testBit_shiftRight, hplace]
  have hlow : i - min a b < 64 := by omega
  simp [hle, hlow]

/-! ## Reading a selector -/

/-- Text without a bracket has no selector. -/
theorem selector?_eq_none {text : List Char} (h : '[' ∉ text) : selector? text = none := by
  unfold selector?
  split
  · rw [splitOnce_eq_none_iff.2 fun hmem => h (List.dropLast_subset _ hmem)]
  · rfl

/-- The base of a selector is what stands in front of the first bracket. -/
theorem selector?_append {base : List Char} (hne : base ≠ []) (hbase : '[' ∉ base)
    (range : List Char) : selector? (base ++ '[' :: range ++ [']']) = some (base, range) := by
  unfold selector?
  rw [if_pos List.getLast?_concat, List.dropLast_concat,
    splitOnce_eq_some_iff.2 ⟨rfl, hbase⟩]
  simp only [if_neg hne]

/-- Two positions with a colon between them are a range. -/
theorem range?_pair {first second : List Char} {a b : Nat} (hfirst : unsigned? first = some a)
    (hsecond : unsigned? second = some b) : range? (first ++ ':' :: second) = some ⟨a, b⟩ := by
  have hcolon : ':' ∉ first := not_mem_of_unsigned? hfirst (by decide) (by decide)
  unfold range?
  rw [splitOnce_eq_some_iff.2 ⟨rfl, hcolon⟩]
  simp [hfirst, hsecond]

/-- One position is the range of this position. -/
theorem range?_single {first : List Char} {a : Nat} (hfirst : unsigned? first = some a) :
    range? first = some (.single a) := by
  have hcolon : ':' ∉ first := not_mem_of_unsigned? hfirst (by decide) (by decide)
  unfold range?
  rw [splitOnce_eq_none_iff.2 hcolon]
  simp [hfirst]

/-- A token is a number exactly if it is a literal. -/
theorem TokenKind.ofText_eq_integer_iff {text : List Char} {value : Int} :
    TokenKind.ofText text = .ok (.integer value) ↔ literal? text = .ok (some value) := by
  unfold TokenKind.ofText
  cases literal? text with
  | error e => simp [bind, Except.bind]
  | ok found => cases found <;> simp [bind, Except.bind, pure, Except.pure]

/-- A selector behind a number cuts a slice out of it. -/
theorem TokenKind.ofText_selector {base : List Char} {value : Int} (hbase : '[' ∉ base)
    (hvalue : TokenKind.ofText base = .ok (.integer value)) {range : List Char} {mask : Mask}
    (hrange : range? range = some mask) :
    TokenKind.ofText (base ++ '[' :: range ++ [']']) = (slice value mask).map .integer := by
  have hnumber : number? base = .ok (some value) := by
    have hliteral := ofText_eq_integer_iff.1 hvalue
    rwa [literal?, selector?_eq_none hbase] at hliteral
  have hne : base ≠ [] := by
    rintro rfl
    cases hnumber
  have hliteral : literal? (base ++ '[' :: range ++ [']']) = (slice value mask).map some := by
    unfold literal?
    rw [selector?_append hne hbase]
    simp only [hrange, hnumber]
    rfl
  unfold TokenKind.ofText
  rw [hliteral]
  cases slice value mask <;> rfl

/-! ## Selected bits -/

/-- What a selector with the positions `a` and `b` makes of a number: the number that has the bits
between the positions as its pattern. They are the bits that are read from a word of 64 bits once the
number is stored there. Only a position beyond 64 bits is an error. -/
structure IsSelected (line : Nat) (value : Int) (a b : Nat)
    (result : Except ParseError TokenKind) : Prop where
  tooWide : result = .error ⟨line, .lexical (.selector (.maskTooWide ⟨a, b⟩))⟩ ↔ 64 ≤ max a b
  slice : max a b < 64 → ∃ sliced, result = .ok (.integer sliced) ∧ InRange sliced ∧
    pattern sliced = pattern value / 2 ^ min a b % 2 ^ (max a b - min a b + 1) ∧
    ∀ word : Word, word.width = 64 → ∃ written,
      word.writeRange 63 0 (pattern value) = .ok written ∧
        written.readRange a b = .ok (pattern sliced)

/-- Slicing a value at two positions is what the selector says, in either order. -/
theorem isSelected_slice (line : Nat) (value : Int) (a b : Nat) :
    IsSelected line value a b (onLine line ((slice value ⟨a, b⟩).map .integer)) := by
  rw [slice_eq]
  by_cases hwide : 64 ≤ max a b
  · have hupper : 64 ≤ (Mask.mk a b).upper := hwide
    rw [if_pos hupper]
    exact ⟨iff_of_true rfl hwide, fun hmax => absurd hwide (Nat.not_le_of_lt hmax)⟩
  · have hupper : ¬64 ≤ (Mask.mk a b).upper := hwide
    -- what is cut out of a pattern is no larger than the pattern
    have hle : pattern value / 2 ^ min a b % 2 ^ (max a b - min a b + 1) ≤ maxPattern :=
      Nat.le_trans (Nat.mod_le _ _) (Nat.le_trans (Nat.div_le_self _ _) (pattern_le value))
    have hpattern := pattern_ofPattern hle
    rw [if_neg hupper]
    refine ⟨iff_of_false (fun h => nomatch h) hwide, fun hmax => ?_⟩
    refine ⟨_, rfl, inRange_ofPattern _, hpattern, fun word hwidth => ?_⟩
    obtain ⟨written, hwritten, hread⟩ := word.readRange_of_pattern hwidth hmax (pattern value)
    exact ⟨written, hwritten, hread.trans (congrArg Except.ok hpattern.symm)⟩

/-- Behind a text that is read as a number, a selector cuts out a slice of the number, whether it has
two positions in either order or one, and however these are spelled. Every position that fits into 64
bits can be spelled. -/
theorem TokenKind.ofText_selected (line : Nat) {base : List Char} {value : Int} (hbase : '[' ∉ base)
    (hvalue : TokenKind.ofText base = .ok (.integer value)) :
    (∀ n ≤ maxPattern, unsigned? (toString n).toList = some n) ∧
    ∀ {first second : List Char} {a b : Nat},
      unsigned? first = some a → unsigned? second = some b →
        IsSelected line value a b
          (onLine line (TokenKind.ofText (base ++ '[' :: (first ++ ':' :: second) ++ [']']))) ∧
        IsSelected line value a a
          (onLine line (TokenKind.ofText (base ++ '[' :: first ++ [']']))) := by
  refine ⟨fun n hn => unsigned?_toString hn, fun {first second a b} hfirst hsecond => ⟨?_, ?_⟩⟩
  · rw [ofText_selector hbase hvalue (range?_pair hfirst hsecond)]
    exact isSelected_slice line value a b
  · rw [ofText_selector hbase hvalue (range?_single hfirst)]
    exact isSelected_slice line value a a

/-- The two highest bits of a negative number, with the lower position first, and a position beyond
its bits. -/
theorem TokenKind.ofText_selected_minusThree :
    '[' ∉ "-3".toList ∧ TokenKind.ofText "-3".toList = .ok (.integer (-3)) ∧
    unsigned? "+62".toList = some 62 ∧ unsigned? "063".toList = some 63 ∧
    IsSelected 1 (-3) 62 63 (onLine 1 (TokenKind.ofText "-3[+62:063]".toList)) ∧
    TokenKind.ofText "-3[+62:063]".toList = .ok (.integer 3) ∧
    onLine 1 (TokenKind.ofText "-3[64:0]".toList) =
      .error ⟨1, .lexical (.selector (.maskTooWide ⟨64, 0⟩))⟩ := by
  have hbase : '[' ∉ "-3".toList := by decide
  have hvalue : TokenKind.ofText "-3".toList = .ok (.integer (-3)) := by decide
  have hlow : unsigned? "+62".toList = some 62 := by decide
  have hhigh : unsigned? "063".toList = some 63 := by decide
  obtain ⟨-, hselected⟩ := ofText_selected 1 hbase hvalue
  refine ⟨hbase, hvalue, hlow, hhigh, (hselected hlow hhigh).1, by decide, ?_⟩
  have hbeyond : unsigned? "64".toList = some 64 := by decide
  have hzero : unsigned? "0".toList = some 0 := by decide
  exact (hselected hbeyond hzero).1.tooWide.2 (by decide)

end ControlStore
