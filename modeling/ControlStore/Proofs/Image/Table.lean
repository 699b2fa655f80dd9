import ControlStore.Image
import ControlStore.Proofs.Layout.Link

/-!
# Words of the image

The word table of a program holds the words of the store in order (`storeWords`), and the plain
text of the table is one line for each of them (`renderWords_plain`). Every word has the width of
the store's words (`Program.width_encode`).

The words of a table are those of the sequences in the order of the layout, followed by the word for
unused addresses as often as there is room (`Program.storeWords_wordTable`). So the words of a
sequence stand behind those of the sequences before it, which is where its address is
(`Program.words_of_sequence`).
-/

namespace ControlStore

/-! ## Lines of text -/

namespace WordLine

/-- The word that a line holds. -/
def word? : WordLine → Option Word
  | word w _ _ => some w
  | heading .. | gap | unused .. => none

theorem isWord_eq (line : WordLine) : line.isWord = line.word?.isSome := by
  cases line <;> rfl

end WordLine

/-- The words of a table in order. -/
def storeWords (lines : List WordLine) : List Word := lines.filterMap WordLine.word?

theorem storeWords_append (lines others : List WordLine) :
    storeWords (lines ++ others) = storeWords lines ++ storeWords others :=
  List.filterMap_append

/-- Counting the word lines counts the words. -/
theorem countP_isWord (lines : List WordLine) :
    lines.countP WordLine.isWord = (storeWords lines).length := by
  induction lines with
  | nil => rfl
  | cons line lines ih =>
    rw [List.countP_cons, ih, storeWords, storeWords, List.filterMap_cons, line.isWord_eq]
    cases line.word? <;> simp

/-- The plain text of a table has one line for each word, and no others. -/
theorem renderWords_plain (lines : List WordLine) :
    renderWords false lines =
      String.join (((storeWords lines).map Word.text).map (· ++ "\n")) := by
  rw [renderWords, if_neg (by simp)]
  induction lines with
  | nil => rfl
  | cons line lines ih =>
    rw [List.map_cons, String.join_cons, ih, storeWords, storeWords, List.filterMap_cons]
    cases line with
    | word w labels address => simp [WordLine.plainText, WordLine.word?]
    | heading name address => simp [WordLine.plainText, WordLine.word?]
    | gap => simp [WordLine.plainText, WordLine.word?]
    | unused count => simp [WordLine.plainText, WordLine.word?]

namespace Word

/-- A word is printed with a digit for each bit. -/
theorem length_text (word : Word) : word.text.length = word.width := by
  simp [text, width]

/-- A word is printed with binary digits. -/
theorem mem_text {word : Word} {c : Char} (h : c ∈ word.text.toList) : c = '0' ∨ c = '1' := by
  rw [text, String.toList_ofList] at h
  obtain ⟨bit, -, rfl⟩ := List.mem_map.1 h
  cases bit
  · exact .inl rfl
  · exact .inr rfl

/-- Writing a value keeps the width of a word. -/
theorem width_writeMask {word written : Word} {mask : Mask} {offset value : Nat}
    (h : word.writeMask mask offset value = .ok written) : written.width = word.width := by
  unfold writeMask writeRange at h
  obtain ⟨_, -, h⟩ := bind_eq_ok_iff.1 h
  obtain ⟨_, -, h⟩ := bind_eq_ok_iff.1 h
  cases h
  simp [width]

end Word

namespace Program

variable {program : Program}

/-- Writing a signal keeps the width of the word. -/
theorem width_writeSignal {line : Nat} {word written : Word} {signal : Signal}
    (h : (program.writeSignal line word signal).result = .ok written) :
    written.width = word.width := by
  unfold writeSignal at h
  split at h
  · cases h
  · exact Word.width_writeMask (mapError_eq_ok_iff.1 h)

/-- An encoded assertion has the width of the store's words. -/
theorem width_encode {assertion : Assertion} {word : Word}
    (h : (program.encode assertion).result = .ok word) : word.width = program.wordWidth := by
  obtain ⟨first, hfirst, h⟩ := Report.result_bind_eq_ok_iff.1 h
  rw [Report.result_foldlM] at h
  have hwidth : first.width = program.wordWidth := by
    rw [Word.width_writeMask (mapError_eq_ok_iff.1 hfirst), Word.width_zero]
  -- every signal keeps the width
  clear hfirst
  generalize assertion.signals = signals at h
  induction signals generalizing first with
  | nil =>
    cases h
    exact hwidth
  | cons signal signals ih =>
    rw [List.foldlM_cons] at h
    obtain ⟨next, hnext, h⟩ := bind_eq_ok_iff.1 h
    exact ih next ((width_writeSignal hnext).trans hwidth) h

/-- The word of a step has the width of the store. -/
theorem width_encodeStep {step : Step} {word : Word}
    (h : (program.encodeStep step).result = .ok word) : word.width = program.wordWidth := by
  cases step with
  | assertion a => exact width_encode h
  | reference r => cases h

/-! ## Words of sequences -/

/-- The words are the encoded steps. -/
def Encodes (program : Program) (steps : List Step) (words : List Word) : Prop :=
  List.Forall₂ (fun step word => (program.encodeStep step).result = .ok word) steps words

/-- The lines of steps hold their encodings in order. -/
theorem encodes_of_stepLines {code : Code} {locals : SymbolTree} {steps : List Step} {start : Nat}
    {lines : List WordLine}
    (h : ((steps.zipIdx start).mapM fun (step, index) =>
      program.stepLine code locals step index).result = .ok lines) :
    program.Encodes steps (storeWords lines) := by
  rw [Report.result_mapM, mapM_eq_ok_iff] at h
  induction steps generalizing start lines with
  | nil =>
    cases h
    exact .nil
  | cons step steps ih =>
    rw [List.zipIdx_cons, List.forall₂_cons_left_iff] at h
    obtain ⟨line, rest, hline, hrest, rfl⟩ := h
    obtain ⟨word, hword, hpure⟩ := Report.result_bind_eq_ok_iff.1 hline
    cases hpure
    exact .cons hword (ih hrest)

/-- The placed sequence with a name is the one that the name finds, and no macro. -/
theorem placedSequence_eq_ok_iff {name : String} {code : Code} {locals : SymbolTree} :
    program.placedSequence name = .ok (code, locals) ↔
      program.symbols.find? name = some (.sequence code locals) ∧ code.isMacro = false := by
  unfold placedSequence
  split
  · next found names hfind =>
    rw [hfind]
    split
    · next hkind =>
      simp only [reduceCtorEq, Option.some.injEq, Symbol.sequence.injEq, false_iff]
      rintro ⟨⟨rfl, -⟩, hother⟩
      rw [hkind] at hother
      cases hother
    · next hkind =>
      simp only [Except.ok.injEq, Prod.mk.injEq, Option.some.injEq, Symbol.sequence.injEq]
      refine (and_iff_left_of_imp ?_).symm
      rintro ⟨rfl, -⟩
      exact eq_false_of_ne_true hkind
  · next hother =>
    simp only [reduceCtorEq, false_iff]
    exact fun h => hother code locals h.1

/-- The words of a sequence's lines are its encoded steps. -/
theorem encodes_of_sequenceLines (hlink : program.symbols.Linkable) {name : String}
    {lines : List WordLine} (h : (program.sequenceLines name).result = .ok lines) :
    ∃ code locals, (name, .sequence code locals) ∈ program.symbols.entries ∧
      program.Encodes code.steps (storeWords lines) := by
  obtain ⟨⟨code, locals⟩, hplaced, h⟩ := Report.result_bind_eq_ok_iff.1 h
  obtain ⟨words, hwords, h⟩ := Report.result_bind_eq_ok_iff.1 h
  cases h
  refine ⟨code, locals, ?_, ?_⟩
  · exact hlink.find?_eq_sequence_iff.1 (placedSequence_eq_ok_iff.1 hplaced).1
  · have hlines : storeWords (.heading locals.name code.address :: words ++ [.gap]) =
        storeWords words := by
      rw [storeWords_append]
      exact List.append_nil _
    rw [hlines]
    exact encodes_of_stepLines hwords

/-- The words for unused addresses fill the store, and each is the encoded assertion for them. -/
theorem storeWords_unusedLines {filled : Nat} {lines : List WordLine}
    (h : (program.unusedLines filled).result = .ok lines) :
    (storeWords lines).length = program.length - filled ∧
      ∀ word ∈ storeWords lines, program.fillerWord.result = .ok word := by
  unfold unusedLines at h
  dsimp only at h
  split at h
  · next hfull =>
    cases h
    exact ⟨hfull.symm, by simp [storeWords, WordLine.word?]⟩
  · obtain ⟨word, hword, h⟩ := Report.result_bind_eq_ok_iff.1 h
    cases h
    have hwords : storeWords (.unused (program.length - filled) ::
        (List.range (program.length - filled)).map fun i => .word word [] (filled + i)) =
          List.replicate (program.length - filled) word := by
      -- all unused lines have the same word
      have hconst : WordLine.word? ∘ (fun i => .word word [] (filled + i)) =
          some ∘ fun _ => word := rfl
      rw [storeWords, List.filterMap_cons_none rfl, List.filterMap_map, hconst,
        List.filterMap_eq_map, List.map_const', List.length_range]
    rw [hwords]
    refine ⟨List.length_replicate, fun other hother => ?_⟩
    rw [(List.mem_replicate.1 hother).2]
    exact hword

/-! ## The whole table -/

/-- The words are those of the sequence with the given name. -/
def EncodesSequence (program : Program) (name : String) (words : List Word) : Prop :=
  ∃ code locals, (name, .sequence code locals) ∈ program.symbols.entries ∧
    program.Encodes code.steps words

/-- The words of the table: those of the sequences one after the other, then those for unused
addresses. -/
theorem storeWords_wordTable (hlink : program.symbols.Linkable) {layout : List String}
    {table : List WordLine} (h : (program.wordTable layout).result = .ok table) :
    ∃ parts unused, storeWords table = parts.flatten ++ unused ∧
      List.Forall₂ program.EncodesSequence layout parts ∧
      unused.length = program.length - parts.flatten.length ∧
      ∀ word ∈ unused, program.fillerWord.result = .ok word := by
  obtain ⟨lines, hlines, h⟩ := Report.result_bind_eq_ok_iff.1 h
  obtain ⟨filling, hfilling, h⟩ := Report.result_bind_eq_ok_iff.1 h
  cases h
  have hused : storeWords lines.flatten = (lines.map storeWords).flatten := by
    rw [storeWords, List.filterMap_flatten]
    rfl
  rw [countP_isWord, hused] at hfilling
  obtain ⟨hlength, hunused⟩ := storeWords_unusedLines hfilling
  refine ⟨lines.map storeWords, storeWords filling, ?_, ?_, hlength, hunused⟩
  · rw [storeWords_append, hused]
  · rw [Report.result_mapM, mapM_eq_ok_iff] at hlines
    refine List.forall₂_map_right_iff.2 (hlines.imp fun name part hpart => ?_)
    exact encodes_of_sequenceLines hlink hpart

/-- A sequence is encoded in as many words as it has steps. -/
theorem EncodesSequence.length_eq (hnodup : program.symbols.names.Nodup) {name : String}
    {words : List Word} (h : program.EncodesSequence name words) :
    words.length = program.symbols.wordCount name := by
  obtain ⟨code, locals, hmem, hwords⟩ := h
  rw [SymbolTree.wordCount_of_mem hnodup hmem]
  exact hwords.length_eq.symm

/-- All sequences together have as many words as their steps. -/
theorem length_flatten_parts (hnodup : program.symbols.names.Nodup) {layout : List String}
    {parts : List (List Word)} (h : List.Forall₂ program.EncodesSequence layout parts) :
    parts.flatten.length = (layout.map program.symbols.wordCount).sum := by
  induction h with
  | nil => rfl
  | cons hfirst _ ih =>
    rw [List.flatten_cons, List.length_append, ih, hfirst.length_eq hnodup, List.map_cons,
      List.sum_cons]

/-- The words of a sequence stand at its address. -/
theorem words_of_sequence (hnodup : program.symbols.names.Nodup) {layout : List String}
    {parts : List (List Word)} (h : List.Forall₂ program.EncodesSequence layout parts)
    {name : String} (hname : name ∈ layout) :
    ∃ before words after, parts.flatten = before ++ words ++ after ∧
      program.EncodesSequence name words ∧
      before.length = program.symbols.addressIn layout name := by
  induction h with
  | nil => cases hname
  | @cons first words layout parts hfirst hrest ih =>
    -- the words of the first sequence stand at the start, those of a later one behind them
    by_cases hsame : first = name
    · subst hsame
      refine ⟨[], words, parts.flatten, by simp, hfirst, ?_⟩
      rw [SymbolTree.addressIn_cons_self, List.length_nil]
    · have hlater : name ∈ layout := by
        rcases List.mem_cons.1 hname with heq | hlater
        · exact absurd heq.symm hsame
        · exact hlater
      obtain ⟨before, own, after, hflatten, hown, hlength⟩ := ih hlater
      refine ⟨words ++ before, own, after, ?_, hown, ?_⟩
      · rw [List.flatten_cons, hflatten]
        simp only [List.append_assoc]
      · rw [List.length_append, hlength, hfirst.length_eq hnodup,
          SymbolTree.addressIn_cons_of_ne hsame]

/-- The words of all lines fill the store, if the words of the sequences fit into it. -/
theorem length_storeWords (hlink : program.symbols.Linkable) {layout : List String}
    {table : List WordLine} (h : (program.wordTable layout).result = .ok table)
    (hfits : (layout.map program.symbols.wordCount).sum ≤ program.length) :
    (storeWords table).length = program.length := by
  obtain ⟨parts, unused, htable, hparts, hunused, -⟩ := storeWords_wordTable hlink h
  have hused := length_flatten_parts hlink.nodup hparts
  rw [htable, List.length_append, hunused, hused]
  omega

/-- The word of a step stands as far behind the address of its sequence as the step behind the
first one. -/
theorem word_of_step (hlink : program.symbols.Linkable) {layout : List String}
    {table : List WordLine} (h : (program.wordTable layout).result = .ok table)
    {name : String} (hname : name ∈ layout) {code : Code} {locals : SymbolTree}
    (hcode : (name, .sequence code locals) ∈ program.symbols.entries) {i : Nat} {step : Step}
    (hstep : code.steps[i]? = some step) :
    ∃ word, (program.encodeStep step).result = .ok word ∧
      (storeWords table)[program.symbols.addressIn layout name + i]? = some word := by
  obtain ⟨parts, unused, htable, hparts, -, -⟩ := storeWords_wordTable hlink h
  obtain ⟨before, words, after, hflatten, ⟨code', locals', hcode', hwords⟩, hlength⟩ :=
    words_of_sequence hlink.nodup hparts hname
  cases entry_unique hlink.nodup hcode hcode'
  obtain ⟨word, hword, hencoded⟩ := exists_getElem?_of_forall₂ hwords hstep
  have hlt : i < words.length := (List.getElem?_eq_some_iff.1 hword).1
  refine ⟨word, hencoded, ?_⟩
  rw [htable, hflatten, ← hlength, List.append_assoc, List.append_assoc,
    List.getElem?_append_right (Nat.le_add_right _ _), Nat.add_sub_cancel_left,
    List.getElem?_append_left hlt, hword]

/-- Behind the words of the sequences, there are words for unused addresses only. -/
theorem word_of_unused (hlink : program.symbols.Linkable) {layout : List String}
    {table : List WordLine} (h : (program.wordTable layout).result = .ok table) {i : Nat}
    (hused : (layout.map program.symbols.wordCount).sum ≤ i) (hi : i < program.length) :
    ∃ word, program.fillerWord.result = .ok word ∧ (storeWords table)[i]? = some word := by
  obtain ⟨parts, unused, htable, hparts, hunused, hfiller⟩ := storeWords_wordTable hlink h
  rw [← length_flatten_parts hlink.nodup hparts] at hused
  have hlt : i - parts.flatten.length < unused.length := by omega
  refine ⟨unused[i - parts.flatten.length], hfiller _ (List.getElem_mem hlt), ?_⟩
  rw [htable, List.getElem?_append_right hused, List.getElem?_eq_getElem hlt]

/-- The word for unused addresses has the width of the store. -/
theorem width_fillerWord {word : Word} (h : program.fillerWord.result = .ok word) :
    word.width = program.wordWidth := by
  unfold fillerWord at h
  split at h
  · exact width_encode h
  · cases h
    exact Word.width_zero _

/-- All words of the store have the same width. -/
theorem width_of_mem_storeWords (hlink : program.symbols.Linkable) {layout : List String}
    {table : List WordLine} (h : (program.wordTable layout).result = .ok table) {word : Word}
    (hword : word ∈ storeWords table) : word.width = program.wordWidth := by
  obtain ⟨parts, unused, htable, hparts, -, hfiller⟩ := storeWords_wordTable hlink h
  rw [htable, List.mem_append] at hword
  rcases hword with hword | hword
  · obtain ⟨part, hpart, hword⟩ := List.mem_flatten.1 hword
    obtain ⟨name, -, code, locals, -, hencodes⟩ := exists_of_forall₂_of_mem hparts hpart
    obtain ⟨step, -, hstep⟩ := exists_of_forall₂_of_mem hencodes hword
    exact width_encodeStep hstep
  · exact width_fillerWord (hfiller word hword)

end Program

end ControlStore
