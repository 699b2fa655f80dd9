import Mathlib.Data.List.DropRight
import ControlStore.Text.Character
import ControlStore.Text.Split

/-!
# Texts in pieces

How a text is cut at a separator and how it is put together again. The first cut is characterised by
what it leaves in front of the separator (`splitOnce_eq_some_iff`), and the pieces between all
separators by how they join (`intercalate_splitAll`) and that there is no separator in them
(`not_mem_of_mem_splitAll`). Trimming a text takes blanks off its two ends and is done with one pass
(`trimBlanks_trimBlanks`).
-/

namespace ControlStore

/-! ## The first separator -/

/-- A text is cut at the first separator: there is none in front of the cut. -/
theorem splitOnce_eq_some_iff {sep : Char} {text before after : List Char} :
    splitOnce sep text = some (before, after) ↔ text = before ++ sep :: after ∧ sep ∉ before := by
  induction text generalizing before with
  | nil => simp [splitOnce]
  | cons c cs ih =>
    rw [splitOnce]
    by_cases hc : c = sep
    · subst hc
      rw [if_pos rfl]
      cases before with
      | nil => simp [eq_comm]
      | cons d ds =>
        simp only [Option.some.injEq, Prod.mk.injEq, List.cons_append, List.cons.injEq,
          List.mem_cons, not_or]
        refine iff_of_false (fun h => ?_) fun h => h.2.1 h.1.1
        exact List.cons_ne_nil d ds h.1.symm
    · rw [if_neg hc, Option.map_eq_some_iff]
      constructor
      · rintro ⟨⟨b, a⟩, hsplit, heq⟩
        cases heq
        obtain ⟨rfl, hmem⟩ := ih.1 hsplit
        exact ⟨rfl, by simpa [Ne.symm hc] using hmem⟩
      · rintro ⟨heq, hmem⟩
        cases before with
        | nil => exact absurd (List.cons.inj heq).1 hc
        | cons d ds =>
          obtain ⟨rfl, hrest⟩ := List.cons.inj heq
          exact ⟨(ds, after), ih.2 ⟨hrest, fun hd => hmem (List.mem_cons_of_mem _ hd)⟩, rfl⟩

/-- Text cannot be cut exactly if it does not have the separator. -/
theorem splitOnce_eq_none_iff {sep : Char} {text : List Char} :
    splitOnce sep text = none ↔ sep ∉ text := by
  constructor
  · intro hnone hmem
    obtain ⟨before, after, rfl, hbefore⟩ := List.eq_append_cons_of_mem hmem
    rw [splitOnce_eq_some_iff.2 ⟨rfl, hbefore⟩] at hnone
    cases hnone
  · intro hmem
    cases hsplit : splitOnce sep text with
    | none => rfl
    | some cut =>
      obtain ⟨rfl, -⟩ := splitOnce_eq_some_iff.1 hsplit
      simp at hmem

/-- A cut stays where it is in a text that goes on. -/
theorem splitOnce_append {sep : Char} {text before after : List Char}
    (h : splitOnce sep text = some (before, after)) (more : List Char) :
    splitOnce sep (text ++ more) = some (before, after ++ more) := by
  obtain ⟨rfl, hbefore⟩ := splitOnce_eq_some_iff.1 h
  exact splitOnce_eq_some_iff.2 ⟨by simp, hbefore⟩

/-! ## Pieces between separators -/

/-- Text without the separator is one piece. -/
theorem splitAll_of_not_mem {sep : Char} {text : List Char} (h : sep ∉ text) :
    splitAll sep text = [text] := by
  induction text with
  | nil => rfl
  | cons c cs ih =>
    rw [List.mem_cons, not_or] at h
    rw [splitAll, if_neg (Ne.symm h.1), ih h.2]

/-- The pieces of a text that is joined at a separator are those of its two halves. -/
theorem splitAll_append_cons (sep : Char) (before after : List Char) :
    splitAll sep (before ++ sep :: after) = splitAll sep before ++ splitAll sep after := by
  induction before with
  | nil => simp [splitAll]
  | cons c cs ih =>
    rw [List.cons_append, splitAll, splitAll, ih]
    split
    · rfl
    · cases h : splitAll sep cs with
      | nil => exact absurd h (splitAll_ne_nil sep cs)
      | cons piece pieces => rfl

/-- No piece has the separator. -/
theorem not_mem_of_mem_splitAll {sep : Char} {text piece : List Char}
    (h : piece ∈ splitAll sep text) : sep ∉ piece := by
  induction text generalizing piece with
  | nil =>
    rw [List.mem_singleton.1 h]
    exact List.not_mem_nil
  | cons c cs ih =>
    rw [splitAll] at h
    split at h
    · rcases List.mem_cons.1 h with rfl | h
      · exact List.not_mem_nil
      · exact ih h
    · next hc =>
      split at h
      · rw [List.mem_singleton.1 h, List.mem_singleton]
        exact Ne.symm hc
      · next first rest hpieces =>
        rcases List.mem_cons.1 h with rfl | h
        · rw [List.mem_cons, not_or]
          exact ⟨Ne.symm hc, ih (hpieces ▸ List.mem_cons_self ..)⟩
        · exact ih (hpieces ▸ List.mem_cons_of_mem _ h)

/-- A piece has characters of the text only. -/
theorem subset_of_mem_splitAll {sep : Char} {text piece : List Char}
    (h : piece ∈ splitAll sep text) : piece ⊆ text := by
  induction text generalizing piece with
  | nil =>
    rw [List.mem_singleton.1 h]
    exact List.Subset.refl _
  | cons c cs ih =>
    rw [splitAll] at h
    split at h
    · rcases List.mem_cons.1 h with rfl | h
      · exact List.nil_subset _
      · exact List.subset_cons_of_subset _ (ih h)
    · split at h
      · rw [List.mem_singleton.1 h]
        exact List.cons_subset_cons _ (List.nil_subset _)
      · next hpieces =>
        rcases List.mem_cons.1 h with rfl | h
        · exact List.cons_subset_cons _ (ih (hpieces ▸ List.mem_cons_self ..))
        · exact List.subset_cons_of_subset _ (ih (hpieces ▸ List.mem_cons_of_mem _ h))

/-- The pieces of a text, with the separators between them, are the text. -/
theorem intercalate_splitAll (sep : Char) (text : List Char) :
    [sep].intercalate (splitAll sep text) = text := by
  induction text with
  | nil => rfl
  | cons c cs ih =>
    rw [splitAll]
    cases hpieces : splitAll sep cs with
    | nil => exact absurd hpieces (splitAll_ne_nil sep cs)
    | cons piece pieces =>
      rw [hpieces] at ih
      split
      · next hc => rw [hc, List.intercalate_cons_cons, ih]; rfl
      · rw [← ih]
        cases pieces with
        | nil => rfl
        | cons next rest => simp [List.intercalate_cons_cons]

/-- Pieces that are joined with a separator and a filler between them come apart again, each but the
first with the filler in front. -/
theorem splitAll_intercalate {sep : Char} {filler : List Char} (hfiller : sep ∉ filler)
    {first : List Char} {others : List (List Char)} (hfirst : sep ∉ first)
    (hothers : ∀ piece ∈ others, sep ∉ piece) :
    splitAll sep ((sep :: filler).intercalate (first :: others)) =
      first :: others.map (filler ++ ·) := by
  induction others generalizing first with
  | nil =>
    rw [List.intercalate_singleton, splitAll_of_not_mem hfirst]
    rfl
  | cons second others ih =>
    obtain ⟨hsecond, hothers⟩ := List.forall_mem_cons.1 hothers
    have hfilled : sep ∉ filler ++ second := by
      rw [List.mem_append, not_or]
      exact ⟨hfiller, hsecond⟩
    -- the filler belongs to the second piece
    have hjoined : (sep :: filler).intercalate (first :: second :: others) =
        first ++ sep :: (sep :: filler).intercalate ((filler ++ second) :: others) := by
      cases others <;> simp [List.intercalate_cons_cons]
    rw [hjoined, splitAll_append_cons, splitAll_of_not_mem hfirst, ih hfilled hothers]
    rfl

/-- A character that is in no piece and not between them is not in the text. -/
theorem not_mem_intercalate {c : Char} {sep : List Char} {pieces : List (List Char)}
    (hsep : c ∉ sep) (hpieces : ∀ piece ∈ pieces, c ∉ piece) : c ∉ sep.intercalate pieces := by
  induction pieces with
  | nil => exact List.not_mem_nil
  | cons first rest ih =>
    obtain ⟨hfirst, hrest⟩ := List.forall_mem_cons.1 hpieces
    by_cases hend : rest = []
    · rwa [hend, List.intercalate_singleton]
    · rw [List.intercalate_cons_of_ne_nil hend, List.mem_append, List.mem_append, not_or, not_or]
      exact ⟨⟨hfirst, hsep⟩, ih hrest⟩

/-! ## Blanks at the ends -/

theorem trimBlanks_eq (text : List Char) :
    trimBlanks text = (text.dropWhile isBlank).rdropWhile isBlank := rfl

/-- Trimmed text has characters of the text only. -/
theorem mem_of_mem_trimBlanks {text : List Char} {c : Char} (h : c ∈ trimBlanks text) :
    c ∈ text := by
  rw [trimBlanks_eq] at h
  exact (List.dropWhile_sublist _).subset ((List.rdropWhile_prefix _ _).subset h)

/-- Nothing is left of a text that has nothing but blanks in it. -/
theorem trimBlanks_eq_nil_iff {text : List Char} :
    trimBlanks text = [] ↔ ∀ c ∈ text, isBlank c = true := by
  rw [trimBlanks_eq, List.rdropWhile_eq_nil_iff]
  constructor
  · intro hrest c hc
    rw [← List.takeWhile_append_dropWhile (p := isBlank) (l := text)] at hc
    rcases List.mem_append.1 hc with hc | hc
    · exact List.mem_takeWhile_imp hc
    · exact hrest c hc
  · exact fun hall c hc => hall c ((List.dropWhile_sublist _).subset hc)

/-- A blank in front is trimmed. -/
theorem trimBlanks_cons {c : Char} (hc : isBlank c = true) (text : List Char) :
    trimBlanks (c :: text) = trimBlanks text := by
  rw [trimBlanks_eq, trimBlanks_eq, List.dropWhile_cons_of_pos hc]

/-- What is left of a text has no blanks at its ends any more. -/
theorem trimBlanks_trimBlanks (text : List Char) :
    trimBlanks (trimBlanks text) = trimBlanks text := by
  have hfront : (trimBlanks text).dropWhile isBlank = trimBlanks text := by
    rw [List.dropWhile_eq_self_iff]
    intro hlength
    -- the first character is that of the text without the blanks in front
    have hpart : trimBlanks text <+: text.dropWhile isBlank := List.rdropWhile_prefix _ _
    rw [hpart.getElem hlength]
    exact List.dropWhile_get_zero_not _ text (Nat.lt_of_lt_of_le hlength hpart.length_le)
  rw [trimBlanks_eq (trimBlanks text), hfront, trimBlanks_eq]
  exact List.rdropWhile_idempotent _ _

/-- Text without blanks is trimmed already. -/
theorem trimBlanks_eq_self {text : List Char} (h : ∀ c ∈ text, isBlank c = false) :
    trimBlanks text = text := by
  have hfront : text.dropWhile isBlank = text :=
    List.dropWhile_eq_self_iff.2 fun hlength => by simp [h _ (List.getElem_mem hlength)]
  rw [trimBlanks_eq, hfront]
  exact List.rdropWhile_eq_self_iff.2 fun hne => by simp [h _ (List.getLast_mem hne)]

end ControlStore
