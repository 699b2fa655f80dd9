import ControlStore.Image
import ControlStore.Proofs.Image.Encoding
import ControlStore.Proofs.Image.Table
import ControlStore.Proofs.Layout.Progress

/-!
# Stages fit together

Linking and image generation make checks that only a mistake in an earlier stage could trip: whether
macros are expanded, symbols resolved and sequences placed, and whether a word has the bits that are
written. `Program.Consistent` is what image generation relies on, and every linked program has it
(`Compilation.consistent`): the control lines in its assertions are those that were checked when the
text was read, and they are still there after expansion and resolution.

So the words of a compiled text can always be written (`Program.Consistent.exists_wordTable`), and
what is left to go wrong are the entrypoints (`Program.of_entryTable_eq_error`). `compile_safe` says
both for all texts.
-/

namespace ControlStore

/-- The failure blames what an earlier stage has left. -/
def Failure.IsInternal : Failure → Prop
  | .link (.unexpandedMacro _) => True
  | .write (.unexpandedMacro _) | .write (.unresolved ..) | .write (.unplaced _)
  | .write (.bits ..) => True
  | _ => False

/-! ## Writing consistent programs -/

namespace Program

/-- All values of the assertion are numbers, and all writes for it are inside a word, whose bits can
be counted with 64 bits. -/
structure IsWritable (program : Program) (a : Assertion) : Prop where
  resolved : a.IsResolved
  width : program.wordWidth ≤ maxPattern
  selector : program.bankMask.upper < program.wordWidth
  signal : ∀ signal ∈ a.signals,
    signal.control.mask.upper + program.bankMask.length < program.wordWidth

/-- Every name of the layout is that of a sequence whose steps are assertions that can be written,
and so can the assertion for unused addresses. -/
structure Consistent (program : Program) (layout : List String) : Prop where
  sequence : ∀ name ∈ layout, ∃ code locals,
    program.symbols.find? name = some (.sequence code locals) ∧ code.isMacro = false ∧
      ∀ step ∈ code.steps, ∃ a, step = .assertion a ∧ program.IsWritable a
  empty : ∃ a, program.emptyAssertion = some a ∧ program.IsWritable a

variable {program : Program} {layout : List String}

/-- A writable assertion has a word. -/
theorem IsWritable.exists_encode {a : Assertion} (h : program.IsWritable a) :
    ∃ word, (program.encode a).result = .ok word := by
  -- the selector and every mask behind it end inside the word, and so below the largest number
  have hselector : program.bankMask.upper + 0 < (Word.zero program.wordWidth).width := by
    rw [Word.width_zero]
    exact h.selector
  have hfits : program.bankMask.upper + 0 ≤ maxPattern :=
    Nat.le_trans (Nat.le_of_lt h.selector) h.width
  obtain ⟨first, hfirst, hwidth, -⟩ := Word.exists_writeMask hfits hselector a.bank
  have hplaces : ∀ signal ∈ a.signals, program.HasPlace first.width signal.control := by
    intro signal hsignal
    rw [hwidth, Word.width_zero]
    have hroom := h.signal signal hsignal
    exact ⟨hroom, Nat.le_trans (Nat.le_of_lt hroom) h.width⟩
  obtain ⟨word, hword, -⟩ := exists_writeSignals a.line h.resolved hplaces
  refine Report.exists_result_bind (mapError_eq_ok_iff.2 hfirst) ⟨word, ?_⟩
  rw [hword]

namespace Consistent

/-- In a consistent program every sequence of the layout has its lines. -/
theorem exists_sequenceLines (h : program.Consistent layout) {name : String}
    (hname : name ∈ layout) : ∃ lines, (program.sequenceLines name).result = .ok lines := by
  obtain ⟨code, locals, hfind, hkind, hsteps⟩ := h.sequence name hname
  have hplaced : program.placedSequence name = .ok (code, locals) :=
    placedSequence_eq_ok_iff.2 ⟨hfind, hkind⟩
  have hlines : ∀ entry ∈ code.steps.zipIdx,
      ∃ line, (program.stepLine code locals entry.1 entry.2).result = .ok line := by
    intro entry hentry
    obtain ⟨a, hstep, ha⟩ := hsteps entry.1 (List.fst_mem_of_mem_zipIdx hentry)
    obtain ⟨word, hword⟩ := ha.exists_encode
    rw [hstep]
    exact Report.exists_result_bind hword ⟨_, rfl⟩
  obtain ⟨lines, hlines⟩ := exists_mapM_eq_ok hlines
  refine Report.exists_result_bind (a := (code, locals)) hplaced ?_
  exact Report.exists_result_bind ((Report.result_mapM _ _).trans hlines) ⟨_, rfl⟩

/-- In a consistent program the rest of the store has its lines. -/
theorem exists_unusedLines (h : program.Consistent layout) (filled : Nat) :
    ∃ lines, (program.unusedLines filled).result = .ok lines := by
  obtain ⟨a, hempty, ha⟩ := h.empty
  obtain ⟨word, hword⟩ := ha.exists_encode
  have hfiller : program.fillerWord.result = .ok word := by
    rw [fillerWord, hempty]
    exact hword
  unfold unusedLines
  dsimp only
  split
  · exact ⟨_, rfl⟩
  · exact Report.exists_result_bind hfiller ⟨_, rfl⟩

/-- The words of a consistent program can be written. -/
theorem exists_wordTable (h : program.Consistent layout) :
    ∃ lines, (program.wordTable layout).result = .ok lines := by
  obtain ⟨used, hused⟩ := exists_mapM_eq_ok fun name hname => h.exists_sequenceLines hname
  obtain ⟨unused, hunused⟩ := h.exists_unusedLines (used.flatten.countP WordLine.isWord)
  refine Report.exists_result_bind ((Report.result_mapM _ _).trans hused) ?_
  exact Report.exists_result_bind hunused ⟨_, rfl⟩

end Consistent

/-- The table of opcodes fails for a binding that does not lead to a sequence. -/
theorem of_entryTable_eq_error {error : WriteError} (h : program.entryTable = .error error) :
    ∃ symbol opcode,
      error = .macroEntrypoint symbol opcode ∨ error = .undefinedEntrypoint symbol opcode := by
  rcases bind_eq_error_iff.1 h with htargets | ⟨_, -, hpure⟩
  · obtain ⟨⟨opcode, symbol⟩, -, htarget⟩ := exists_of_mapM_eq_error htargets
    refine ⟨symbol, opcode, ?_⟩
    dsimp only at htarget
    unfold entryTarget at htarget
    split at htarget
    · split at htarget
      · cases htarget
        exact .inl rfl
      · cases htarget
    · cases htarget
      exact .inr rfl
  · cases hpure

/-- The image of a consistent program fails only in the table of opcodes. -/
theorem Consistent.of_image_eq_error (h : program.Consistent layout) {debug : Bool}
    {error : WriteError} (himage : (program.image layout debug).result = .error error) :
    program.entryTable = .error error := by
  obtain ⟨lines, hlines⟩ := h.exists_wordTable
  rcases Report.result_bind_eq_error_iff.1 himage with hwords | ⟨_, -, himage⟩
  · rw [hlines] at hwords
    cases hwords
  rcases Report.result_bind_eq_error_iff.1 himage with hentries | ⟨_, -, hpure⟩
  · exact hentries
  · cases hpure

end Program

/-! ## Control lines through expansion and linking -/

section Expansion

variable {macros : SymbolTree} {controls : ControlTable}

/-- The words of a tree are on the control lines of the assertions that they come from. -/
theorem Inlines.grounded {frame : Frame} {taken : List String} {steps : List Step} {inl : Inlining}
    (hmacros : ∀ name code locals, (name, .sequence code locals) ∈ macros.entries →
      StepsBuiltFrom controls code.steps)
    (h : Inlines macros frame taken steps inl) (hsteps : StepsBuiltFrom controls steps) :
    ∀ a ∈ inl.words, a.Grounded controls := by
  induction h with
  | done => exact fun a ha => absurd ha List.not_mem_nil
  | @word frame taken a rest inl _ ih =>
    -- substitution changes values only, never the control they go to
    have hrest := ih fun b hb => hsteps b (List.mem_cons_of_mem _ hb)
    refine List.forall_mem_cons.2 ⟨?_, hrest⟩
    have ha := (hsteps a (List.mem_cons_self ..)).grounded
    exact ha.congr rfl (by simp [Frame.assertion])
  | block hdef _ _ _ _ _ ihbody ihrest =>
    have hbody := ihbody (hmacros _ _ _ hdef.mem)
    have hrest := ihrest fun b hb => hsteps b (List.mem_cons_of_mem _ hb)
    exact List.forall_mem_append.2 ⟨hbody, hrest⟩

end Expansion

/-- Resolving an assertion changes no control, so it stays in place. -/
theorem Assertion.ResolvesTo.grounded {lookup : Lookup} {controls : ControlTable} {a b : Assertion}
    (h : a.ResolvesTo lookup b) (ha : a.Grounded controls) : b.Grounded controls := by
  refine ha.congr h.bank ?_
  have hsame := h.signals.imp fun _ _ hsignal => hsignal.control.symm
  rw [← List.forall₂_eq_eq_eq, List.forall₂_map_left_iff, List.forall₂_map_right_iff]
  exact hsame.flip.imp fun _ _ heq => heq.symm

/-- After expansion, all assertions of sequences are on control lines of the program. -/
theorem Program.grounded_of_expand {program expanded : Program} {n : Nat}
    (hsymbols : program.symbols.WellFormed) (hprogram : program.Grounded)
    (h : Program.expand.Yields program n expanded) {name : String} {code : Code}
    {locals : SymbolTree} (hmem : (name, .sequence code locals) ∈ expanded.symbols.entries)
    (hkind : code.isMacro = false) :
    ∀ a, Step.assertion a ∈ code.steps → a.Grounded program.controls := by
  obtain ⟨trees, htrees, -, rfl⟩ := Program.eq_of_expand hsymbols h
  -- the sequence was one before, and its steps are the words of its tree
  obtain ⟨⟨other, symbol⟩, hold, heq⟩ := List.mem_map.1 hmem
  have hplaced : symbol.isPlaced = true := by
    rw [← isPlaced_expandEntry trees (other, symbol), heq, isPlaced_eq_true_iff]
    exact ⟨code, locals, rfl, hkind⟩
  obtain ⟨code', locals', rfl, hkind'⟩ := isPlaced_eq_true_iff.1 hplaced
  rw [expandEntry_sequence trees other hkind'] at heq
  cases heq
  intro a ha
  obtain ⟨b, hb, heq⟩ := List.mem_map.1 ha
  cases heq
  exact (htrees _ _ _ hold hkind').grounded hprogram.steps (hprogram.steps _ _ _ hold) a hb

/-! ## Compiled texts -/

namespace Compilation

variable {text : String} (c : Compilation text)

/-- Only the symbols and the assertion for unused addresses change between reading and linking. -/
theorem linked_eq : ∃ symbols, c.expanded = { c.program with symbols } ∧
    ∃ symbols empty, c.linked = { c.program with symbols, emptyAssertion := empty } := by
  obtain ⟨trees, -, -, hexpanded⟩ :=
    Program.eq_of_expand c.readFrom.wellFormed.symbols c.expands
  obtain ⟨placed, steps, empty, filled, hplace, -, -, hlinked, -⟩ :=
    Program.eq_of_link c.linkable c.links
  obtain ⟨fetch, s, -, -, -, -, rfl, -⟩ := Program.eq_of_place c.linkable hplace
  refine ⟨_, hexpanded, ?_⟩
  rw [hlinked, hexpanded]
  exact ⟨_, _, rfl⟩

/-- An assertion with numbers on control lines of the program can be written. -/
theorem isWritable {a : Assertion} (hgrounded : a.Grounded c.program.controls)
    (hresolved : a.IsResolved) : c.linked.IsWritable a := by
  have hroom := c.readFrom.hasRoom
  have hselector := c.readFrom.grounded.selector
  have hsized := c.readFrom.sized
  have hwidth : c.program.wordWidth ≤ maxPattern := Nat.le_trans (Nat.le_of_lt hsized.wordWidth)
    (by decide)
  have hsignals := fun signal hsignal =>
    (Program.hasPlace hsized hroom hgrounded signal hsignal).room
  obtain ⟨-, -, symbols, empty, hlinked⟩ := c.linked_eq
  rw [hlinked]
  refine ⟨hresolved, hwidth, ?_, hsignals⟩
  -- the selector starts at bit 0, so its length says where it ends
  have hwidth := hroom.selector
  simp only [Mask.length, Mask.upper, Mask.lower, hselector] at hwidth ⊢
  omega

/-- What linking leaves can be written. -/
theorem consistent : c.linked.Consistent c.layout := by
  have hlinks := c.linksTo
  refine ⟨?_, ?_⟩
  · intro name hname
    obtain ⟨fetch, s, -, hfetch, hkind, hlayout⟩ := hlinks.order
    rw [hlayout] at hname
    obtain ⟨code, locals, hmem, hcode⟩ := SymbolTree.lists_layout hfetch hkind name hname
    obtain ⟨steps, hlinked, hsteps⟩ := hlinks.sequence name code locals hmem hcode
    refine ⟨_, _, hlinks.linkable.find?_eq_sequence_iff.2 hlinked, hcode, fun step hstep => ?_⟩
    -- a step is a resolved word of the expanded program, whose controls are those of the text
    obtain ⟨old, hold, hresolves⟩ := exists_of_forall₂_of_mem hsteps hstep
    cases hresolves with
    | assertion ha =>
      have hgrounded := Program.grounded_of_expand c.readFrom.wellFormed.symbols
        c.readFrom.grounded c.expands hmem hcode _ hold
      exact ⟨_, rfl, c.isWritable (ha.grounded hgrounded) ha.isResolved⟩
  · obtain ⟨empty, filled, hempty, hfilled, hresolves⟩ := hlinks.empty
    obtain ⟨symbols, hexpanded, -⟩ := c.linked_eq
    rw [hexpanded] at hempty
    have hgrounded := (c.readFrom.grounded.empty empty hempty).grounded
    exact ⟨filled, hfilled, c.isWritable (hresolves.grounded hgrounded) hresolves.isResolved⟩

end Compilation

/-- A text that cannot be had is not read. -/
theorem compile_error (failure : ReadFailure) (debug : Bool) :
    ∃ error, (compile (.error failure) debug).result = .error (.parse error) :=
  ⟨_, rfl⟩

/-- Whatever stage fails, it fails with an error of its own. -/
theorem FailsWith.not_isInternal {text : String} {debug : Bool} {failure : Failure}
    (h : FailsWith text debug failure) : ¬failure.IsInternal := by
  cases h with
  | parse error => exact not_false
  | expansion _ _ => exact not_false
  | @link program expanded n error hread hexpand hfails =>
    -- an expanded program has no references, which is the one thing linking could trip over
    have hlink := Program.linkable_of_expand hread.wellFormed.symbols hexpand
    have hne := Program.ne_unexpandedMacro_of_link hlink
      (Program.isExpanded_of_expand hexpand) hfails
    cases error with
    | unexpandedMacro line => exact absurd rfl (hne line)
    | _ => exact not_false
  | write c hfails =>
    obtain ⟨symbol, opcode, rfl | rfl⟩ :=
      Program.of_entryTable_eq_error (c.consistent.of_image_eq_error hfails)
    · exact not_false
    · exact not_false

/-- No stage trips over what the stages before it have left, whatever the input is. Once a text has
been read, expanded and linked, every name of the layout is that of a sequence, every step is an
assertion with numbers, and every write is inside a word. So the words of the store can be written,
and only the entrypoints of opcodes can still be refused. -/
theorem compile_safe :
    (∀ input debug failure, (compile input debug).result = .error failure →
      ¬failure.IsInternal) ∧
    ∀ text (c : Compilation text), c.linked.Consistent c.layout ∧
      (∃ lines, (c.linked.wordTable c.layout).result = .ok lines) ∧
      ∀ debug error, (c.linked.image c.layout debug).result = .error error →
        ∃ symbol opcode,
          error = .macroEntrypoint symbol opcode ∨ error = .undefinedEntrypoint symbol opcode := by
  refine ⟨fun input debug failure h => ?_, fun text c => ⟨c.consistent, ?_, ?_⟩⟩
  · cases input with
    | ok text => exact (failsWith_of_compile h).not_isInternal
    | error missing =>
      obtain ⟨error, herror⟩ := compile_error missing debug
      rw [herror] at h
      cases h
      exact not_false
  · exact c.consistent.exists_wordTable
  · intro debug error himage
    exact Program.of_entryTable_eq_error (c.consistent.of_image_eq_error himage)

/-- A text that binds an opcode to a sequence that it does not define. -/
def strayText : String :=
  "config { controlwordwidth 3 microprogramlength 2 opwidth 1 bankmask 0 } control c 0 0 " ++
  "macro m(x) { assert { c: x } } sequence s { m(s) } empty { c: 1 } entrypoints { fetch: s 1: t }"

/-- A binding to a name that is nothing is what remains to be refused. -/
theorem compile_strayText : (compile (.ok strayText) false).result =
    .error (.write (.undefinedEntrypoint "t" 1)) := by
  decide +kernel

/-- All words of the text can be written, and it is refused because of its opcode. -/
theorem compile_safe_strayText :
    (compile (.ok strayText) false).result = .error (.write (.undefinedEntrypoint "t" 1)) ∧
    ¬(Failure.write (.undefinedEntrypoint "t" 1)).IsInternal ∧
    ∃ c : Compilation strayText, c.linked.Consistent c.layout ∧
      ∃ lines, (c.linked.wordTable c.layout).result = .ok lines := by
  refine ⟨compile_strayText, compile_safe.1 _ _ _ compile_strayText, ?_⟩
  cases failsWith_of_compile compile_strayText with
  | write c _ =>
    obtain ⟨hconsistent, hlines, -⟩ := compile_safe.2 strayText c
    exact ⟨c, hconsistent, hlines⟩

end ControlStore
