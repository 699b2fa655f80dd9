import Mathlib.Data.List.Induction
import ControlStore.Proofs.Image.Overflow
import ControlStore.Proofs.Source.Definitions

/-!
# The order of signals

Signals that reach different bits are written in any order with the same word. An assertion is made
by setting one control after the other (`Assertion.setAll`). Whether the controls can be set together
does not depend on their order (`Assertion.result_setAll_eq_ok_iff`), and a warning is given exactly
if two of them share a bit (`Assertion.warnsOfOverlap_setAll_iff`).

Where no two share a bit, at most one signal decides a bit of the word, whenever it is written
(`Signal.overwrite_eq_of_perm`). An assertion that has a word has room for all of its signals, so the
signals can be written in another order as well (`Program.encode_eq_of_perm`).

Ranges that share no bit may still meet if one of them is moved beyond 64 bits and starts again at
zero. So the order is free where such a move has no result (`Program.encode64_eq_ok_of_perm`), and in
general for controls that are not moved so far, as those of a program are that was read.
-/

namespace ControlStore

/-- Some bit of a word is in the ranges of both control lines. -/
def Control.SharesBit (control other : Control) : Prop :=
  ∃ i, control.mask.Covers i ∧ other.mask.Covers i

/-- Masks overlap exactly if the controls share a bit. -/
theorem Control.overlaps_iff_sharesBit {control other : Control} :
    control.mask.overlaps other.mask = true ↔ control.SharesBit other :=
  Mask.overlaps_iff _ _

instance (control other : Control) : Decidable (control.SharesBit other) :=
  decidable_of_iff _ Control.overlaps_iff_sharesBit

/-- Sharing a bit goes both ways. -/
theorem Control.SharesBit.symm {control other : Control} (h : control.SharesBit other) :
    other.SharesBit control := by
  obtain ⟨i, hcontrol, hother⟩ := h
  exact ⟨i, hother, hcontrol⟩

/-- One of the notices is the warning that the bits of two signals overlap. -/
def WarnsOfOverlap (log : List Notice) : Prop :=
  ∃ line name mask other otherMask, Notice.signalsOverlap line name mask other otherMask ∈ log

theorem warnsOfOverlap_append {log more : List Notice} :
    WarnsOfOverlap (log ++ more) ↔ WarnsOfOverlap log ∨ WarnsOfOverlap more := by
  simp only [WarnsOfOverlap, List.mem_append, exists_or]

/-! ## Setting controls one after the other -/

namespace Assertion

/-- A control is warned of exactly if it shares a bit with one that is set already. -/
theorem warnsOfOverlap_overlapNotices_iff {a : Assertion} {control : Control} :
    WarnsOfOverlap (a.overlapNotices control) ↔
      ∃ signal ∈ a.signals, signal.control.SharesBit control := by
  simp only [WarnsOfOverlap, overlapNotices, List.mem_map, List.mem_filter,
    Control.overlaps_iff_sharesBit]
  constructor
  · rintro ⟨_, _, _, _, _, signal, ⟨hmem, hshares⟩, -⟩
    exact ⟨signal, hmem, hshares⟩
  · rintro ⟨signal, hmem, hshares⟩
    exact ⟨_, _, _, _, _, signal, ⟨hmem, hshares⟩, rfl⟩

/-- A signal that joins an assertion is only warned of because of overlaps. -/
theorem log_add {a next : Assertion} {control : Control} {value : Value}
    (h : (a.add control value).result = .ok next) :
    (a.add control value).log = a.overlapNotices control := by
  unfold add at h ⊢
  split at h
  · cases h
  · next hbank =>
    split at h
    · cases h
    · next hrepeated => rw [if_neg hbank, if_neg hrepeated]

/-- The assertion on a line in which controls are set to numbers, one after the other. -/
def setAll (line : Nat) (settings : List (Control × Int)) : Report SignalConflict Assertion :=
  settings.foldlM (fun a setting => a.add setting.1 (.integer setting.2)) { line }

/-- All controls are on one bank, and no control is set twice. -/
structure Agree (settings : List (Control × Int)) : Prop where
  oneBank : ∀ setting ∈ settings, ∀ other ∈ settings, setting.1.bank = other.1.bank
  once : (settings.map (·.1.name)).Nodup

/-- The assertion with all settings, on the bank of the last one. -/
def ofSettings (line : Nat) (settings : List (Control × Int)) : Assertion where
  line
  bank := (settings.getLast?.map (·.1.bank)).getD 0
  signals := settings.map fun setting => ⟨setting.1, .integer setting.2⟩

variable {line : Nat} {settings others : List (Control × Int)} {setting : Control × Int}
  {a : Assertion}

theorem setAll_concat (line : Nat) (settings : List (Control × Int)) (setting : Control × Int) :
    setAll line (settings ++ [setting]) =
      setAll line settings >>= fun a => a.add setting.1 (.integer setting.2) := by
  simp [setAll, List.foldlM_append]

/-- The last setting gives the bank and the last signal. -/
theorem ofSettings_concat (line : Nat) (settings : List (Control × Int))
    (setting : Control × Int) :
    ofSettings line (settings ++ [setting]) =
      { ofSettings line settings with
        bank := setting.1.bank
        signals := (ofSettings line settings).signals ++ [⟨setting.1, .integer setting.2⟩] } := by
  simp [ofSettings]

theorem agree_nil : Agree [] := ⟨by simp, List.nodup_nil⟩

/-- One more control agrees with the others if it is on their bank and is not one of them. -/
theorem agree_concat_iff : Agree (settings ++ [setting]) ↔
    Agree settings ∧ (∀ other ∈ settings, other.1.bank = setting.1.bank) ∧
      ∀ other ∈ settings, other.1.name ≠ setting.1.name := by
  constructor
  · rintro ⟨hbank, honce⟩
    rw [List.map_append, List.map_singleton, List.nodup_append] at honce
    refine ⟨⟨fun x hx y hy => ?_, honce.1⟩, fun x hx => ?_, fun x hx => ?_⟩
    · exact hbank x (List.mem_append_left _ hx) y (List.mem_append_left _ hy)
    · exact hbank x (List.mem_append_left _ hx) setting (by simp)
    · exact honce.2.2 x.1.name (List.mem_map_of_mem hx) setting.1.name (by simp)
  · rintro ⟨⟨hbank, honce⟩, hlast, hnew⟩
    refine ⟨?_, ?_⟩
    · simp only [List.mem_append, List.mem_singleton]
      rintro x (hx | rfl) y (hy | rfl)
      · exact hbank x hx y hy
      · exact hlast x hx
      · exact (hlast y hy).symm
      · rfl
    · rw [List.map_append, List.map_singleton, List.nodup_append]
      refine ⟨honce, by simp, ?_⟩
      intro name hname other hother
      obtain ⟨x, hx, rfl⟩ := List.mem_map.1 hname
      rw [List.mem_singleton.1 hother]
      exact hnew x hx

/-- Controls agree in every order. -/
theorem Agree.of_perm (h : Agree settings) (hperm : others.Perm settings) : Agree others where
  oneBank x hx y hy := h.oneBank x (hperm.mem_iff.1 hx) y (hperm.mem_iff.1 hy)
  once := (hperm.map _).nodup_iff.2 h.once

/-- The bank of settings that agree is that of any of them. -/
theorem Agree.bank_eq (h : Agree settings) (hmem : setting ∈ settings) :
    (ofSettings line settings).bank = setting.1.bank := by
  obtain ⟨init, last, rfl⟩ : ∃ init last, settings = init ++ [last] :=
    ⟨_, _, (List.dropLast_concat_getLast (List.ne_nil_of_mem hmem)).symm⟩
  rw [ofSettings_concat]
  exact h.oneBank last (by simp) setting hmem

/-- Settings that agree are on the same bank in every order. -/
theorem Agree.bank_eq_of_perm (h : Agree settings) (hperm : others.Perm settings) :
    (ofSettings line others).bank = (ofSettings line settings).bank := by
  cases settings with
  | nil => rw [hperm.eq_nil]
  | cons setting rest =>
    have hmem : setting ∈ setting :: rest := List.mem_cons_self ..
    rw [h.bank_eq hmem, (h.of_perm hperm).bank_eq (hperm.mem_iff.2 hmem)]

/-- Controls can be set together exactly if they agree, in whatever order they are given. -/
theorem result_setAll_eq_ok_iff :
    (setAll line settings).result = .ok a ↔ Agree settings ∧ a = ofSettings line settings := by
  induction settings using List.reverseRecOn generalizing a with
  | nil =>
    constructor
    · intro h
      cases h
      exact ⟨agree_nil, rfl⟩
    · rintro ⟨-, rfl⟩
      rfl
  | append_singleton settings setting ih =>
    rw [setAll_concat, Report.result_bind_eq_ok_iff, agree_concat_iff, ofSettings_concat]
    constructor
    · rintro ⟨first, hfirst, hadd⟩
      obtain ⟨hagree, rfl⟩ := ih.1 hfirst
      -- the last setting has the bank of the first ones and a name of its own
      obtain ⟨hbank, hnew, rfl⟩ := of_add hadd
      refine ⟨⟨hagree, fun other hother => ?_, fun other hother => ?_⟩, rfl⟩
      · rw [← hagree.bank_eq hother]
        exact hbank (by simpa [ofSettings] using List.ne_nil_of_mem hother)
      · exact hnew ⟨other.1, .integer other.2⟩ (List.mem_map_of_mem hother)
    · rintro ⟨⟨hagree, hbank, hnew⟩, rfl⟩
      refine ⟨_, ih.2 ⟨hagree, rfl⟩, add_eq (fun hne => ?_) fun signal hsignal => ?_⟩
      · obtain ⟨other, hother⟩ := List.exists_mem_of_ne_nil settings (by simpa [ofSettings] using hne)
        rw [hagree.bank_eq hother]
        exact hbank other hother
      · obtain ⟨other, hother, rfl⟩ := List.mem_map.1 hsignal
        exact hnew other hother

/-- While controls that agree are set, a warning of an overlap is given exactly if two of them share
a bit. -/
theorem warnsOfOverlap_setAll_iff (h : Agree settings) :
    WarnsOfOverlap (setAll line settings).log ↔
      ∃ setting ∈ settings, ∃ other ∈ settings, setting ≠ other ∧
        setting.1.SharesBit other.1 := by
  induction settings using List.reverseRecOn with
  | nil => simp [setAll, WarnsOfOverlap, Report.pure_def]
  | append_singleton settings setting ih =>
    obtain ⟨hagree, -, hnew⟩ := agree_concat_iff.1 h
    have hfirst : (setAll line settings).result = .ok (ofSettings line settings) :=
      result_setAll_eq_ok_iff.2 ⟨hagree, rfl⟩
    have hadd : ((ofSettings line settings).add setting.1 (.integer setting.2)).result =
        .ok (ofSettings line (settings ++ [setting])) := by
      have hall : (setAll line (settings ++ [setting])).result = _ :=
        result_setAll_eq_ok_iff.2 ⟨h, rfl⟩
      rw [setAll_concat, Report.result_bind, hfirst] at hall
      exact hall
    -- a warning is one of the earlier settings, or comes from the last one
    have hlog : (setAll line (settings ++ [setting])).log = (setAll line settings).log ++
        (ofSettings line settings).overlapNotices setting.1 := by
      rw [setAll_concat, Report.bind_def, Report.andThen, hfirst, ← log_add hadd]
    have hjoins : WarnsOfOverlap ((ofSettings line settings).overlapNotices setting.1) ↔
        ∃ other ∈ settings, other.1.SharesBit setting.1 := by
      rw [warnsOfOverlap_overlapNotices_iff]
      simp [ofSettings]
    rw [hlog, warnsOfOverlap_append, ih hagree, hjoins]
    simp only [List.mem_append, List.mem_singleton]
    constructor
    · rintro (⟨x, hx, y, hy, hne, hshares⟩ | ⟨x, hx, hshares⟩)
      · exact ⟨x, .inl hx, y, .inl hy, hne, hshares⟩
      · refine ⟨x, .inl hx, setting, .inr rfl, ?_, hshares⟩
        rintro rfl
        exact hnew x hx rfl
    · rintro ⟨x, hx | rfl, y, hy | rfl, hne, hshares⟩
      · exact .inl ⟨x, hx, y, hy, hne, hshares⟩
      · exact .inr ⟨x, hx, hshares⟩
      · exact .inr ⟨y, hy, hshares.symm⟩
      · exact absurd rfl hne

end Assertion

/-! ## Writing signals in another order -/

/-- No two of the signals share a bit. -/
def Signal.Apart (signals : List Signal) : Prop :=
  ∀ signal ∈ signals, ∀ other ∈ signals, signal ≠ other →
    ¬signal.control.SharesBit other.control

/-- Signals that are apart are so in any order. -/
theorem Signal.Apart.of_perm {signals others : List Signal} (h : Apart signals)
    (hperm : others.Perm signals) : Apart others := fun signal hsignal other hother =>
  h signal (hperm.mem_iff.1 hsignal) other (hperm.mem_iff.1 hother)

/-- Where no two signals share a bit, it does not matter in which order they are written. -/
theorem Signal.overwrite_eq_of_perm {signals others : List Signal} (hperm : others.Perm signals)
    (hapart : Apart signals) (i : Nat) (bit : Bool) :
    overwrite others i bit = overwrite signals i bit := by
  refine hperm.foldl_eq' (fun signal hsignal other hother bit => ?_) bit
  by_cases heq : signal = other
  · rw [heq]
  · have hnot := hapart signal (hperm.mem_iff.1 hsignal) other (hperm.mem_iff.1 hother) heq
    by_cases hcovers : signal.control.mask.Covers i
    · have hother : ¬other.control.mask.Covers i := fun hcovers' => hnot ⟨i, hcovers, hcovers'⟩
      simp only [bit?_of_not_covers hother, Option.getD_none]
    · simp only [bit?_of_not_covers hcovers, Option.getD_none]

namespace Word

/-- A range that is written ends inside the word, if it is not moved beyond 64 bits. -/
theorem upper_lt_of_writeMask {word written : Word} {mask : Mask} {offset value : Nat}
    (hfits : mask.upper + offset ≤ maxPattern)
    (h : word.writeMask mask offset value = .ok written) : mask.upper + offset < word.width := by
  rw [writeMask, Mask.shift_eq hfits] at h
  obtain ⟨_, hmsb, h⟩ := bind_eq_ok_iff.1 h
  obtain ⟨_, hlsb, -⟩ := bind_eq_ok_iff.1 h
  unfold checkIndex at hmsb hlsb
  split at hmsb
  · next hmsb' =>
    split at hlsb
    · next hlsb' =>
      dsimp only at hmsb' hlsb'
      simp only [Mask.upper]
      omega
    · cases hlsb
  · cases hmsb

end Word

namespace Program

variable {program : Program} {a b : Assertion}

/-- A signal can be written over a word. -/
structure IsWritten (program : Program) (word : Word) (signal : Signal) : Prop where
  resolved : ∃ value, signal.value = .integer value
  place : program.HasPlace word.width signal.control

/-- A signal that was written was resolved and had its place in the word. -/
theorem isWritten_of_writeSignal {line : Nat} {word written : Word} {signal : Signal}
    (hfits : signal.control.mask.upper + program.bankMask.length ≤ maxPattern)
    (h : (program.writeSignal line word signal).result = .ok written) :
    program.IsWritten word signal := by
  unfold writeSignal at h
  split at h
  · cases h
  · next value hvalue =>
    have hroom := Word.upper_lt_of_writeMask hfits (mapError_eq_ok_iff.1 h)
    exact ⟨⟨value, hvalue⟩, hroom, hfits⟩

/-- If signals are written one after the other, each of them can be written over the first word. -/
theorem isWritten_of_writeSignals {line : Nat} {word written : Word} {signals : List Signal}
    (hfits : ∀ signal ∈ signals,
      signal.control.mask.upper + program.bankMask.length ≤ maxPattern)
    (h : (signals.foldlM (program.writeSignal line) word).result = .ok written) :
    ∀ signal ∈ signals, program.IsWritten word signal := by
  induction signals generalizing word with
  | nil => simp
  | cons signal signals ih =>
    rw [List.foldlM_cons, Report.result_bind_eq_ok_iff] at h
    obtain ⟨first, hfirst, hrest⟩ := h
    obtain ⟨hfit, hfits⟩ := List.forall_mem_cons.1 hfits
    have hwritten := isWritten_of_writeSignal hfit hfirst
    -- writing keeps the width, so there was the same room from the start
    obtain ⟨value, hvalue⟩ := hwritten.resolved
    obtain ⟨same, hsame, hwidth, -, -⟩ := exists_writeSignal line hvalue hwritten.place
    rw [hsame] at hfirst
    cases hfirst
    intro other hother
    rcases List.mem_cons.1 hother with rfl | hother
    · exact hwritten
    · obtain ⟨hresolved, hplace⟩ := ih hfits hrest other hother
      exact ⟨hresolved, hwidth ▸ hplace⟩

/-- An assertion has the word that it has with its signals in another order, if no two of them share
a bit and none is moved beyond 64 bits. -/
theorem encode_eq_of_perm (hline : b.line = a.line) (hbank : b.bank = a.bank)
    (hperm : b.signals.Perm a.signals) (hapart : Signal.Apart a.signals)
    (hfits : ∀ signal ∈ a.signals,
      signal.control.mask.upper + program.bankMask.length ≤ maxPattern) {word : Word}
    (h : (program.encode a).result = .ok word) : (program.encode b).result = .ok word := by
  rw [encode, Report.result_bind_eq_ok_iff] at h ⊢
  obtain ⟨first, hfirst, hword⟩ := h
  have hsame : program.bankWord b = program.bankWord a := by
    rw [bankWord, bankWord, hline, hbank]
  refine ⟨first, hsame ▸ hfirst, ?_⟩
  have hwritten := isWritten_of_writeSignals hfits hword
  obtain ⟨wordA, hwordA, hwidthA, hlowA, hbitsA⟩ := exists_writeSignals a.line
    (fun signal hsignal => (hwritten signal hsignal).resolved)
    (fun signal hsignal => (hwritten signal hsignal).place)
  obtain ⟨wordB, hwordB, hwidthB, hlowB, hbitsB⟩ := exists_writeSignals b.line
    (fun signal hsignal => (hwritten signal (hperm.mem_iff.1 hsignal)).resolved)
    (fun signal hsignal => (hwritten signal (hperm.mem_iff.1 hsignal)).place)
  rw [hwordA] at hword
  cases hword
  rw [hwordB]
  -- both words start alike, and each place is written by one signal at most, whichever comes first
  have hbits : wordB.bits = word.bits := by
    refine List.ext_getElem? fun i => ?_
    by_cases hi : i < program.bankMask.length
    · rw [hlowB i hi, hlowA i hi]
    · obtain ⟨j, rfl⟩ := Nat.exists_eq_add_of_le (Nat.le_of_not_lt hi)
      rw [hbitsB, hbitsA]
      exact Option.map_congr fun bit _ => Signal.overwrite_eq_of_perm hperm hapart j bit
  have hword : wordB = word := by
    cases wordB
    cases word
    exact congrArg Word.mk hbits
  rw [hword]

/-- Without overflow, an assertion of signals that share no bit has the same word in every order. -/
theorem encode64_eq_ok_of_perm (hline : b.line = a.line) (hbank : b.bank = a.bank)
    (hperm : b.signals.Perm a.signals) (hapart : Signal.Apart a.signals) {word : Word}
    (h : (program.encode64 a).run = some (.ok word)) :
    (program.encode64 b).run = some (.ok word) := by
  obtain ⟨hexact, hword⟩ := encode64_eq_ok_iff.1 h
  refine encode64_eq_ok_iff.2 ⟨⟨hexact.selector, fun signal hsignal => ?_⟩, ?_⟩
  · exact hexact.signal signal (hperm.mem_iff.1 hsignal)
  · exact encode_eq_of_perm hline hbank hperm hapart hexact.signal hword

end Program

/-! ## Setting controls in another order -/

namespace Assertion

/-- Two controls side by side, each with its range written from another end. -/
def neighbours : List (Control × Int) :=
  [(⟨"high", ⟨3, 2⟩, 1⟩, 1), (⟨"low", ⟨0, 1⟩, 1⟩, -2)]

/-- A control that reaches into both neighbours. -/
def bridge : Control × Int := (⟨"bridge", ⟨1, 2⟩, 1⟩, 3)

/-- Two controls that share no bit. The first one ends at the largest position there is. -/
def distant : List (Control × Int) :=
  [(⟨"far", ⟨maxPattern, 3⟩, 0⟩, 0), (⟨"near", .single 1, 0⟩, 1)]

/-- Above a selector of one bit, the far control starts again at bit 0 and reaches bit 4, so it meets
the near one: the last of the two decides bit 2. Without overflow there is no word. -/
example : (setAll 1 distant).log = [] ∧
    (Program.encode { wordWidth := 6, bankMask := .single 0 } (ofSettings 1 distant)).result =
      .ok ⟨[false, false, true, false, false, false]⟩ ∧
    (Program.encode { wordWidth := 6, bankMask := .single 0 }
      (ofSettings 1 distant.reverse)).result =
        .ok ⟨[false, false, false, false, false, false]⟩ ∧
    (Program.encode64 { wordWidth := 6, bankMask := .single 0 } (ofSettings 1 distant)).run =
      none := by
  refine ⟨rfl, rfl, rfl, rfl⟩

end Assertion

end ControlStore
