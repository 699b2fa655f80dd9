import ControlStore.Proofs.Image.Table

/-!
# The store

Addresses are decided when a program is linked, and lines are written when its image is made. The
two agree: the word of a step is on the line that its sequence's address says.

`Contiguous` describes sequences that follow each other without a gap. `Compilation.LaidOut` says
how the sequences of a text are laid out, and `Compilation.Stores` what the lines of the store hold.
-/

namespace ControlStore

/-! ## Sequences without gaps -/

/-- The sequences follow each other from an address on, and end in front of another one. -/
inductive Contiguous : Nat → List Code → Nat → Prop
  | nil (address : Nat) : Contiguous address [] address
  | cons {address stop : Nat} {code : Code} {rest : List Code} (hstart : code.address = address)
      (hrest : Contiguous (address + code.steps.length) rest stop) :
      Contiguous address (code :: rest) stop

namespace Contiguous

variable {address stop : Nat} {codes : List Code}

/-- No sequence of a run starts before the run does. -/
theorem le_address (h : Contiguous address codes stop) {code : Code} (hcode : code ∈ codes) :
    address ≤ code.address := by
  induction h with
  | nil => cases hcode
  | cons hstart _ ih =>
    rcases List.mem_cons.1 hcode with rfl | hcode
    · omega
    · have := ih hcode
      omega

/-- A run does not stop before it starts. -/
theorem start_le_stop (h : Contiguous address codes stop) : address ≤ stop := by
  induction h with
  | nil => exact Nat.le_refl _
  | cons _ _ ih => omega

/-- Every sequence ends before the stop. -/
theorem stop_le (h : Contiguous address codes stop) {code : Code} (hcode : code ∈ codes) :
    code.address + code.steps.length ≤ stop := by
  induction h with
  | nil => cases hcode
  | cons hstart hrest ih =>
    rcases List.mem_cons.1 hcode with rfl | hcode
    · rw [hstart]
      exact hrest.start_le_stop
    · exact ih hcode

/-- No two sequences share an address. -/
theorem pairwise (h : Contiguous address codes stop) :
    codes.Pairwise fun code later => code.address + code.steps.length ≤ later.address := by
  induction h with
  | nil => exact .nil
  | cons hstart hrest ih =>
    refine .cons (fun later hlater => ?_) ih
    rw [hstart]
    exact hrest.le_address hlater

end Contiguous

/-- The sequences of a layout without repetitions follow each other, if each has its address in the
layout. -/
theorem contiguous_of_addressIn {symbols : SymbolTree} {layout : List String} {codes : List Code}
    (hnodup : layout.Nodup) (start : Nat)
    (h : List.Forall₂ (fun name code => code.address = start + symbols.addressIn layout name ∧
      code.steps.length = symbols.wordCount name) layout codes) :
    Contiguous start codes (start + (layout.map symbols.wordCount).sum) := by
  induction layout generalizing start codes with
  | nil =>
    cases h
    exact .nil start
  | cons name layout ih =>
    rw [List.nodup_cons] at hnodup
    obtain ⟨code, codes, ⟨haddress, hcount⟩, hrest, rfl⟩ := List.forall₂_cons_left_iff.1 h
    rw [SymbolTree.addressIn_cons_self, Nat.add_zero] at haddress
    apply Contiguous.cons haddress
    rw [List.map_cons, List.sum_cons, ← Nat.add_assoc, hcount]
    apply ih hnodup.2
    -- the later sequences count the words of the first one, too
    have hlater : ∀ other ∈ layout, symbols.addressIn (name :: layout) other =
        symbols.wordCount name + symbols.addressIn layout other := by
      intro other hother
      have hne : name ≠ other := fun heq => hnodup.1 (heq ▸ hother)
      exact SymbolTree.addressIn_cons_of_ne hne layout
    refine ((List.forall₂_and_left _ _).2 ⟨fun _ h => h, hrest⟩).imp ?_
    rintro other code ⟨hother, haddress, hcount⟩
    refine ⟨?_, hcount⟩
    rw [haddress, hlater other hother]
    omega

/-! ## The layout of a text -/

variable {text : String}

/-- How the sequences of a text are laid out. The linked sequences are `codes` in the order of the
layout, and `stop` is the address behind the last one. -/
structure Compilation.LaidOut (c : Compilation text) (codes : List Code) (stop : Nat) : Prop where
  /-- The fetch sequence comes first, and the others in the order of their definition. -/
  order : ∃ fetch others, c.program.fetch = some fetch ∧ c.layout = fetch :: others ∧
    others.Sublist c.program.symbols.names
  nodup : c.layout.Nodup
  /-- All sequences are laid out, and no macros. -/
  mem_iff : ∀ name, name ∈ c.layout ↔
    ∃ code locals, (name, .sequence code locals) ∈ c.program.symbols.entries ∧ code.isMacro = false
  linked : List.Forall₂ (fun name code => ∃ locals,
    (name, .sequence code locals) ∈ c.linked.symbols.entries ∧ code.isMacro = false) c.layout codes
  contiguous : Contiguous 0 codes stop
  disjoint : codes.Pairwise fun code later => code.address + code.steps.length ≤ later.address
  fits : stop ≤ c.program.length

/-- A linked sequence of the layout has its address there. -/
theorem Program.LinksTo.exists_code {expanded linked : Program} {layout : List String}
    (h : expanded.LinksTo layout linked) (hlink : expanded.symbols.Linkable) {name : String}
    (hname : name ∈ layout) :
    ∃ code locals, (name, .sequence code locals) ∈ linked.symbols.entries ∧
      code.isMacro = false ∧ code.address = expanded.symbols.addressIn layout name ∧
      code.steps.length = expanded.symbols.wordCount name := by
  obtain ⟨fetch, s, -, hmem, hkind, hlayout⟩ := h.order
  rw [hlayout] at hname
  obtain ⟨s', hmem', hkind'⟩ := (SymbolTree.mem_layout_iff hmem hkind).1 hname
  obtain ⟨code, locals, rfl, hcode⟩ := isPlaced_eq_true_iff.1 hkind'
  obtain ⟨steps, hlinked, hsteps⟩ := h.sequence name code locals hmem' hcode
  refine ⟨_, _, hlinked, hcode, rfl, ?_⟩
  rw [SymbolTree.wordCount_of_mem hlink.nodup hmem']
  exact hsteps.length_eq.symm

/-- Expansion keeps the order of definition and the kinds of symbols. -/
theorem Program.layout_of_expand {program expanded : Program} {n : Nat}
    (hsymbols : program.symbols.WellFormed) (h : Program.expand.Yields program n expanded)
    (fetch : String) : expanded.symbols.layout fetch = program.symbols.layout fetch := by
  obtain ⟨trees, -, -, rfl⟩ := Program.eq_of_expand hsymbols h
  rw [SymbolTree.layout, SymbolTree.layout, List.filter_map, List.map_map]
  congr 1
  have hfilter : (fun entry : String × Symbol => decide (entry.1 ≠ fetch) && entry.2.isPlaced) ∘
      expandEntry trees = fun entry => decide (entry.1 ≠ fetch) && entry.2.isPlaced := by
    funext entry
    rw [Function.comp, expandEntry_fst, isPlaced_expandEntry]
  have hname : Prod.fst ∘ expandEntry trees = Prod.fst := funext (expandEntry_fst trees)
  exact congrArg₂ List.map hname (congrArg (List.filter · program.symbols.entries) hfilter)

/-- The dimensions of the store are those that were read. -/
theorem Compilation.dimensions (c : Compilation text) :
    c.linked.length = c.program.length ∧ c.linked.wordWidth = c.program.wordWidth := by
  obtain ⟨trees, -, -, hexpanded⟩ :=
    Program.eq_of_expand c.readFrom.wellFormed.symbols c.expands
  rw [c.linksTo.length, c.linksTo.wordWidth, hexpanded]
  exact ⟨rfl, rfl⟩

/-- The layout of a text in terms of the program that was read. -/
theorem Compilation.layout_eq (c : Compilation text) :
    ∃ fetch s, c.program.fetch = some fetch ∧ (fetch, s) ∈ c.program.symbols.entries ∧
      s.isPlaced = true ∧ c.layout = c.program.symbols.layout fetch := by
  have hsymbols := c.readFrom.wellFormed.symbols
  obtain ⟨fetch, s, hfetch, hmem, hkind, hlayout⟩ := c.linksTo.order
  obtain ⟨trees, -, -, hexpanded⟩ := Program.eq_of_expand hsymbols c.expands
  rw [Program.layout_of_expand hsymbols c.expands] at hlayout
  rw [hexpanded] at hfetch hmem
  -- expansion keeps names and kinds, so the fetch sequence was one before
  obtain ⟨entry, hentry, heq⟩ := List.mem_map.1 hmem
  have hname := expandEntry_fst trees entry
  have hplaced := isPlaced_expandEntry trees entry
  rw [heq] at hname hplaced
  refine ⟨fetch, entry.2, hfetch, ?_, hplaced ▸ hkind, hlayout⟩
  rw [show fetch = entry.1 from hname]
  exact hentry

/-- The sequences of a compiled text are laid out. -/
theorem Compilation.exists_laidOut (c : Compilation text) :
    ∃ codes, c.LaidOut codes (c.layout.map c.expanded.symbols.wordCount).sum := by
  obtain ⟨fetch, s, hfetch, hmem, hkind, hlayout⟩ := c.layout_eq
  have hnodup : c.layout.Nodup :=
    hlayout ▸ SymbolTree.nodup_layout c.readFrom.wellFormed.symbols.nodup
  choose! code hcode using fun name (hname : name ∈ c.layout) =>
    c.linksTo.exists_code c.linkable hname
  have hcontiguous : Contiguous 0 (c.layout.map code)
      (0 + (c.layout.map c.expanded.symbols.wordCount).sum) := by
    apply contiguous_of_addressIn hnodup
    refine List.forall₂_map_right_iff.2 (List.forall₂_same.2 fun name hname => ?_)
    obtain ⟨locals, -, -, haddress, hcount⟩ := hcode name hname
    exact ⟨by rw [haddress, Nat.zero_add], hcount⟩
  rw [Nat.zero_add] at hcontiguous
  refine ⟨c.layout.map code, ?_, hnodup, ?_, ?_, hcontiguous, hcontiguous.pairwise, ?_⟩
  · exact ⟨fetch, _, hfetch, hlayout, List.filter_sublist.map Prod.fst⟩
  · intro name
    rw [hlayout, SymbolTree.mem_layout_iff hmem hkind]
    constructor
    · rintro ⟨s', hmem', hkind'⟩
      obtain ⟨code, locals, rfl, hsequence⟩ := isPlaced_eq_true_iff.1 hkind'
      exact ⟨code, locals, hmem', hsequence⟩
    · rintro ⟨code, locals, hmem', hsequence⟩
      exact ⟨_, hmem', isPlaced_eq_true_iff.2 ⟨code, locals, rfl, hsequence⟩⟩
  · refine List.forall₂_map_right_iff.2 (List.forall₂_same.2 fun name hname => ?_)
    obtain ⟨locals, hlinked, hsequence, -⟩ := hcode name hname
    exact ⟨locals, hlinked, hsequence⟩
  · rw [← c.dimensions.1, c.linksTo.length]
    exact c.linksTo.fits

/-- Linked sequences are in the layout. -/
theorem Compilation.mem_layout (c : Compilation text) {name : String}
    (h : c.linked.symbols.IsSequence name) : name ∈ c.layout := by
  obtain ⟨codes, hcodes⟩ := c.exists_laidOut
  exact (hcodes.mem_iff name).2 (c.isSequence_linked_iff.1 h)

/-! ## The lines of a text's store -/

/-- What the lines of the store hold, for sequences that are laid out. -/
structure Compilation.Stores (c : Compilation text) (codes : List Code) (stop : Nat)
    (lines : List String) : Prop where
  length : lines.length = c.program.length
  digits : ∀ line ∈ lines, line.length = c.program.wordWidth ∧
    ∀ digit ∈ line.toList, digit = '0' ∨ digit = '1'
  /-- The step with index `i` of a sequence is encoded `i` lines behind the sequence's address. -/
  step : ∀ code ∈ codes, ∀ i step, code.steps[i]? = some step →
    ∃ word, (c.linked.encodeStep step).result = .ok word ∧
      lines[code.address + i]? = some word.text
  /-- All lines behind the last sequence are the encoded assertion for unused addresses. -/
  unused : ∃ empty, c.linked.emptyAssertion = some empty ∧ empty.IsResolved ∧
    ∀ i, stop ≤ i → i < c.program.length → ∃ word, (c.linked.encode empty).result = .ok word ∧
      lines[i]? = some word.text

/-- A linked sequence has its address in the layout. -/
theorem Compilation.address_eq (c : Compilation text) {name : String} (hname : name ∈ c.layout)
    {code : Code} {locals : SymbolTree}
    (hcode : (name, .sequence code locals) ∈ c.linked.symbols.entries) :
    code.address = c.linked.symbols.addressIn c.layout name := by
  obtain ⟨code', locals', hcode', -, haddress, -⟩ := c.linksTo.exists_code c.linkable hname
  cases entry_unique c.linksTo.linkable.nodup hcode hcode'
  rw [haddress, SymbolTree.addressIn, SymbolTree.addressIn, c.linksTo.wordCount]

/-- A linked sequence ends within the store. -/
theorem Compilation.stop_le_length (c : Compilation text) {name : String} (hname : name ∈ c.layout)
    {code : Code} {locals : SymbolTree}
    (hcode : (name, .sequence code locals) ∈ c.linked.symbols.entries) :
    code.address + code.steps.length ≤ c.program.length := by
  obtain ⟨codes, hcodes⟩ := c.exists_laidOut
  obtain ⟨code', hmem', locals', hcode', -⟩ := exists_of_forall₂_of_mem hcodes.linked.flip hname
  cases entry_unique c.linksTo.linkable.nodup hcode hcode'
  have hstop := hcodes.contiguous.stop_le hmem'
  have hfits := hcodes.fits
  omega

/-- The table has a line for each address of the store: the words of the sequences where they are
placed, the empty assertion behind them. -/
theorem Compilation.stores (c : Compilation text) {table : List WordLine}
    (htable : (c.linked.wordTable c.layout).result = .ok table) {codes : List Code}
    (hcodes : c.LaidOut codes (c.layout.map c.expanded.symbols.wordCount).sum) :
    c.Stores codes (c.layout.map c.expanded.symbols.wordCount).sum
      ((storeWords table).map Word.text) := by
  have hlinkable := c.linksTo.linkable
  obtain ⟨hlength, hwidth⟩ := c.dimensions
  have hfits : (c.layout.map c.linked.symbols.wordCount).sum ≤ c.linked.length := by
    rw [c.linksTo.wordCount, hlength]
    exact hcodes.fits
  obtain ⟨empty, filled, -, hfilled, hresolves⟩ := c.linksTo.empty
  refine ⟨?_, ?_, ?_, filled, hfilled, hresolves.isResolved, ?_⟩
  · rw [List.length_map, Program.length_storeWords hlinkable htable hfits, hlength]
  · intro line hline
    obtain ⟨word, hword, rfl⟩ := List.mem_map.1 hline
    refine ⟨?_, fun digit hdigit => Word.mem_text hdigit⟩
    rw [Word.length_text, Program.width_of_mem_storeWords hlinkable htable hword, hwidth]
  · intro code hcode i step hstep
    obtain ⟨name, ⟨hname, locals, hmem, -⟩⟩ := exists_of_forall₂_of_mem hcodes.linked hcode
    obtain ⟨word, hencoded, hword⟩ := Program.word_of_step hlinkable htable hname hmem hstep
    refine ⟨word, hencoded, ?_⟩
    rw [c.address_eq hname hmem, List.getElem?_map, hword]
    rfl
  · intro i hstop hi
    rw [← c.linksTo.wordCount] at hstop
    obtain ⟨word, hencoded, hword⟩ := Program.word_of_unused hlinkable htable hstop (hlength ▸ hi)
    rw [Program.fillerWord, hfilled] at hencoded
    refine ⟨word, hencoded, ?_⟩
    rw [List.getElem?_map, hword]
    rfl

/-- The words of an image are those of a table. -/
theorem Program.wordTable_of_image {program : Program} {layout : List String} {debug : Bool}
    {image : Image} (h : (program.image layout debug).result = .ok image) :
    ∃ table, (program.wordTable layout).result = .ok table ∧
      image.microprogram = renderWords debug table := by
  obtain ⟨table, htable, h⟩ := Report.result_bind_eq_ok_iff.1 h
  obtain ⟨entries, -, h⟩ := Report.result_bind_eq_ok_iff.1 h
  cases h
  exact ⟨table, htable, rfl⟩

/-- The plain image of a text has a line for each address of the store. Every sequence is laid out
once, without gaps, and the words of its steps are on the lines of its addresses. -/
theorem compile_stores {text : String} {image : Image}
    (h : (compile (.ok text) false).result = .ok image) :
    ∃ (c : Compilation text) (codes : List Code) (stop : Nat) (lines : List String),
      (c.linked.image c.layout false).result = .ok image ∧
      image.microprogram = String.join (lines.map (· ++ "\n")) ∧
      c.LaidOut codes stop ∧ c.Stores codes stop lines := by
  obtain ⟨c, himage⟩ := compile_eq_ok_iff.1 h
  obtain ⟨table, htable, hwords⟩ := Program.wordTable_of_image himage
  obtain ⟨codes, hcodes⟩ := c.exists_laidOut
  refine ⟨c, codes, _, (storeWords table).map Word.text, himage, ?_, hcodes,
    c.stores htable hcodes⟩
  rw [hwords, renderWords_plain]

/-- The sample text has a plain image, and its lines are those of the store. -/
theorem compile_stores_sampleText : ∃ image, (compile (.ok sampleText) false).result = .ok image ∧
    ∃ (c : Compilation sampleText) (codes : List Code) (stop : Nat) (lines : List String),
      image.microprogram = String.join (lines.map (· ++ "\n")) ∧
      c.LaidOut codes stop ∧ c.Stores codes stop lines := by
  obtain ⟨image, hcompile, -⟩ := exists_image_sampleText
  obtain ⟨c, codes, stop, lines, -, hlines, hcodes, hstores⟩ := compile_stores hcompile
  exact ⟨image, hcompile, c, codes, stop, lines, hlines, hcodes, hstores⟩

end ControlStore
