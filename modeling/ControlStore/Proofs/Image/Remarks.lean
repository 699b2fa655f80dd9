import ControlStore.Proofs.Image.EntryWidth
import ControlStore.Proofs.Source.Naming

/-!
# Images with and without remarks

An image with remarks is the plain image with more on its lines, and with lines that are remarks
altogether. `withoutRemarks` takes remarks out of a text line by line: it drops the lines that are
empty or start with `//`, and cuts all others at their first space.

Remarks quote names of the program, and a line break in a name would make a line of its own. Names
come from the text, where a line break ends a word, so there is none in them, at whatever depth of
scopes a label ends up (`Inlines.namesOneLine_scopes`). Words and addresses are digits, so they have no
space and no slash. `Compilation.image_withoutRemarks` puts this together.
-/

namespace ControlStore

/-! ## Lines of text -/

/-- The text has no line break in it. -/
def OneLine (text : String) : Prop := '\n' ∉ text.toList

instance (text : String) : Decidable (OneLine text) :=
  inferInstanceAs (Decidable ('\n' ∉ text.toList))

/-- What is left of a line without its remark: nothing of a line that is empty or starts with `//`,
and of any other line what comes before the first space. -/
def bareLine (line : List Char) : List Char :=
  if line = [] ∨ ['/', '/'] <+: line then [] else line.takeWhile (· ≠ ' ') ++ ['\n']

/-- The text without the remarks on its lines. -/
def withoutRemarks (text : String) : String :=
  String.ofList ((splitAll '\n' text.toList).flatMap bareLine)

/-- The image without the remarks in its files. -/
def Image.withoutRemarks (image : Image) : Image :=
  ⟨ControlStore.withoutRemarks image.microprogram, ControlStore.withoutRemarks image.entrypoints⟩

namespace OneLine

theorem append {text other : String} (h : OneLine text) (h' : OneLine other) :
    OneLine (text ++ other) := not_mem_append h h'

theorem toString (n : Nat) : OneLine (toString n) := not_mem_toString (by decide) n

theorem join {texts : List String} (h : ∀ text ∈ texts, OneLine text) :
    OneLine (String.join texts) := by
  induction texts with
  | nil => simp [OneLine]
  | cons text texts ih =>
    rw [String.join_cons]
    obtain ⟨hfirst, hrest⟩ := List.forall_mem_cons.1 h
    exact hfirst.append (ih hrest)

/-- A name that a text can spell has no line break. -/
theorem of_isName {name : String} (h : IsName name) : OneLine name := by
  intro hbreak
  have hplain := h.plain _ hbreak
  revert hplain
  decide

/-- A qualified name stands on one line if both parts do. -/
theorem qualify {parent name : String} (h : OneLine parent) (h' : OneLine name) :
    OneLine (qualify parent name) := by
  by_cases hparent : parent = ""
  · rwa [ControlStore.qualify, if_pos hparent]
  · rw [ControlStore.qualify, if_neg hparent]
    exact (h.append (by decide)).append h'

end OneLine

/-- Digits that a remark follows are what is left of their line. -/
theorem bareLine_digits {digits remark : List Char} (hne : digits ≠ [])
    (hdigits : ∀ c ∈ digits, c = '0' ∨ c = '1') (hremark : ∀ c ∈ remark.head?, c = ' ') :
    bareLine (digits ++ remark) = digits ++ ['\n'] := by
  -- digits are neither slashes nor blanks, so the line is cut where the remark starts
  have hslash : ¬['/', '/'] <+: digits ++ remark := by
    cases digits with
    | nil => exact absurd rfl hne
    | cons c digits =>
      intro hprefix
      rw [List.cons_append, List.cons_prefix_cons] at hprefix
      rcases hdigits c (List.mem_cons_self ..) with rfl | rfl
      · exact absurd hprefix.1 (by decide)
      · exact absurd hprefix.1 (by decide)
  have hspace : ∀ c ∈ digits, decide (c ≠ ' ') = true := by
    intro c hc
    rcases hdigits c hc with rfl | rfl <;> decide
  have hcut : remark.takeWhile (· ≠ ' ') = [] := by
    cases remark with
    | nil => rfl
    | cons c remark =>
      rw [hremark c rfl]
      rfl
  rw [bareLine, if_neg (by simp [hne, hslash]), List.takeWhile_append_of_pos hspace, hcut,
    List.append_nil]

/-- A line comes first in a text, with a line break behind it. -/
theorem withoutRemarks_line {line : String} (h : OneLine line) (rest : String) :
    withoutRemarks (line ++ "\n" ++ rest) =
      String.ofList (bareLine line.toList) ++ withoutRemarks rest := by
  have hlist : (line ++ "\n" ++ rest).toList = line.toList ++ '\n' :: rest.toList := by
    simp [String.toList_append]
  rw [withoutRemarks, hlist, splitAll_append_cons, splitAll_of_not_mem h, List.singleton_append,
    List.flatMap_cons, String.ofList_append, withoutRemarks]

/-- One line of a text, with its line break, of which `plain` is left without its remark. -/
inductive Bares : String → String → Prop
  | remark {line : String} (hline : OneLine line)
      (hremark : line = "" ∨ ['/', '/'] <+: line.toList) : Bares (line ++ "\n") ""
  | digits {digits remark : String} (hne : digits ≠ "")
      (hdigits : ∀ c ∈ digits.toList, c = '0' ∨ c = '1') (hremark : OneLine remark)
      (hspace : ∀ c ∈ remark.toList.head?, c = ' ') :
      Bares (digits ++ remark ++ "\n") (digits ++ "\n")

/-- Stripping a text strips its first line and then the rest. -/
theorem Bares.withoutRemarks_append {line plain : String} (h : Bares line plain) (rest : String) :
    withoutRemarks (line ++ rest) = plain ++ withoutRemarks rest := by
  cases h with
  | remark hline hremark =>
    rw [withoutRemarks_line hline, bareLine, if_pos (by simpa using hremark)]
  | @digits digits remark hne hdigits hremark hspace =>
    have hline : OneLine digits := by
      intro hbreak
      rcases hdigits _ hbreak with h | h <;> exact absurd h (by decide)
    rw [withoutRemarks_line (hline.append hremark), String.toList_append,
      bareLine_digits (by simpa using hne) hdigits hspace, String.ofList_append,
      String.ofList_toList]

/-- A text of such lines without its remarks. -/
theorem withoutRemarks_join {α : Type} {debug plain : α → String} {lines : List α}
    (h : ∀ line ∈ lines, Bares (debug line) (plain line)) :
    withoutRemarks (String.join (lines.map debug)) = String.join (lines.map plain) := by
  induction lines with
  | nil => rfl
  | cons line lines ih =>
    obtain ⟨hfirst, hrest⟩ := List.forall_mem_cons.1 h
    rw [List.map_cons, List.map_cons, String.join_cons, String.join_cons,
      hfirst.withoutRemarks_append, ih hrest]

/-! ## Lines of the tables -/

/-- The word of a line is not empty, and the names that it quotes have no line breaks. -/
inductive WordLine.Printable : WordLine → Prop
  | heading {name : String} {address : Nat} (hname : OneLine name) :
      Printable (.heading name address)
  | word {word : Word} {labels : List String} {address : Nat} (hwidth : 0 < word.width)
      (hlabels : ∀ label ∈ labels, OneLine label) : Printable (.word word labels address)
  | gap : Printable .gap
  | unused (count : Nat) : Printable (.unused count)

namespace WordLine

/-- The remark of a word stands on one line, if its labels do. -/
theorem oneLine_remark {labels : List String} (h : ∀ label ∈ labels, OneLine label)
    (address : Nat) : OneLine (remark labels address) := by
  unfold remark
  split
  · decide
  · refine (OneLine.append (by decide) (.join ?_)).append
      ((OneLine.append (by decide) (.toString address)).append (by decide))
    intro text htext
    obtain ⟨label, hlabel, rfl⟩ := List.mem_map.1 htext
    exact (OneLine.append (by decide) (h label hlabel)).append (by decide)

/-- A remark keeps its distance from the word. -/
theorem head?_remark (labels : List String) (address : Nat) :
    ∀ c ∈ (remark labels address).toList.head?, c = ' ' := by
  unfold remark
  split
  · simp
  · have hspace : "   //" = " " ++ "  //" := rfl
    rw [hspace]
    simp [String.toList_append]

/-- A printable line of the store, stripped of its remark, is the plain line. -/
theorem Printable.bares {line : WordLine} (h : line.Printable) :
    Bares line.debugText line.plainText := by
  cases h with
  | @heading name address hname =>
    have hline : OneLine ("//Sequence '" ++ name ++ "' at address " ++ toString address) :=
      ((OneLine.append (by decide) hname).append (by decide)).append (.toString address)
    refine .remark hline (.inr ?_)
    simp only [String.toList_append]
    exact ⟨_, rfl⟩
  | @word word labels address hwidth hlabels =>
    refine .digits ?_ (fun c hc => Word.mem_text hc) (oneLine_remark hlabels address)
      (head?_remark labels address)
    intro hempty
    rw [← word.length_text, hempty] at hwidth
    cases hwidth
  | gap =>
    have hline : OneLine "" := by decide
    exact .remark hline (.inl rfl)
  | unused count =>
    have hline : OneLine ("//Empty space (" ++ toString count ++ " unused addresses)") :=
      (OneLine.append (by decide) (.toString count)).append (by decide)
    have htext : (WordLine.unused count).debugText =
        "//Empty space (" ++ toString count ++ " unused addresses)" ++ "\n" := by
      rw [String.append_assoc]
      rfl
    rw [htext]
    refine .remark hline (.inr ?_)
    simp only [String.toList_append]
    exact ⟨_, rfl⟩

end WordLine

/-- The store with remarks, stripped of them, is the plain store. -/
theorem withoutRemarks_renderWords {lines : List WordLine} (h : ∀ line ∈ lines, line.Printable) :
    withoutRemarks (renderWords true lines) = renderWords false lines :=
  withoutRemarks_join fun line hline => (h line hline).bares

namespace EntryLine

/-- An address has a digit at least. -/
theorem digits_ne_empty {width : Nat} (hwidth : 0 < width) (line : EntryLine) :
    line.digits width ≠ "" := by
  unfold digits
  intro hempty
  split at hempty
  · next address _ =>
    have hlength := length_binary width address
    rw [hempty, String.length_empty] at hlength
    omega
  · have hlength := congrArg String.length hempty
    rw [String.length_ofList, List.length_replicate, String.length_empty] at hlength
    omega

/-- The remark of a binding stands on one line, if the name of its sequence does. -/
theorem oneLine_remark {line : EntryLine}
    (h : ∀ symbol address, line.target = some (symbol, address) → OneLine symbol) :
    OneLine line.remark := by
  have hopcode : OneLine (" //Instruction entrypoint " ++ toString line.opcode) :=
    OneLine.append (by decide) (.toString line.opcode)
  unfold remark
  split
  · next symbol address htarget =>
    exact ((((hopcode.append (by decide)).append (h symbol address htarget)).append
      (by decide)).append (.toString address)).append (by decide)
  · exact hopcode.append (by decide)

/-- The remark of a binding keeps its distance from the address. -/
theorem head?_remark (line : EntryLine) : ∀ c ∈ line.remark.toList.head?, c = ' ' := by
  have hspace : (toString " //Instruction entrypoint ").toList.head? = some ' ' := by decide
  unfold remark
  split <;> simp [String.toList_append, hspace]

/-- A line of the opcode table, stripped of its remark, is the plain line. -/
theorem bares {width : Nat} (hwidth : 0 < width) {line : EntryLine}
    (h : ∀ symbol address, line.target = some (symbol, address) → OneLine symbol) :
    Bares (line.debugText width) (line.plainText width) :=
  .digits (line.digits_ne_empty hwidth) (fun _ hc => mem_digits hc) (oneLine_remark h)
    line.head?_remark

end EntryLine

/-! ## Names at any depth -/

/-- None of the names among the entries has a line break, nor has one in a tree among them. -/
inductive NamesOneLine : List (String × Symbol) → Prop
  | nil : NamesOneLine []
  | cons {key : String} {symbol : Symbol} {rest : List (String × Symbol)} (hkey : OneLine key)
      (hinner : ∀ inner, symbol.tree? = some inner → NamesOneLine inner.entries)
      (hrest : NamesOneLine rest) : NamesOneLine ((key, symbol) :: rest)

namespace NamesOneLine

variable {entries added : List (String × Symbol)}

/-- Entries with names on one line, and more of them. -/
theorem append (h : NamesOneLine entries) (hadded : NamesOneLine added) :
    NamesOneLine (entries ++ added) := by
  induction h with
  | nil => exact hadded
  | cons hkey hinner _ _ ih => exact .cons hkey hinner ih

/-- Moving labels keeps the names. -/
theorem mapLabels (h : NamesOneLine entries) (f : Label → Label) :
    NamesOneLine (mapLabelEntries f entries) := by
  induction h with
  | nil => exact .nil
  | cons hkey _ _ ihinner ihrest =>
    refine .cons hkey (fun inner htree => ?_) ihrest
    rw [Symbol.tree?_mapLabels] at htree
    obtain ⟨old, hold, rfl⟩ := Option.map_eq_some_iff.1 htree
    rw [SymbolTree.mapLabels_entries, ← mapLabelEntries_eq_map]
    exact ihinner old hold

/-- The dotted names of labels are made of the names on the way to them. -/
theorem labels (h : NamesOneLine entries) {parent : String} (hparent : OneLine parent) :
    ∀ label ∈ labelEntries parent entries, OneLine label.1 := by
  induction h generalizing parent with
  | nil => exact fun label hlabel => absurd hlabel List.not_mem_nil
  | @cons key symbol rest hkey _ _ ihinner ihrest =>
    rw [labelEntries]
    refine List.forall_mem_append.2 ⟨?_, ihrest hparent⟩
    have hname := hparent.qualify hkey
    cases symbol with
    | constant value => exact fun label hlabel => absurd hlabel List.not_mem_nil
    | label l => simpa [Symbol.labels] using hname
    | sequence code locals =>
      obtain ⟨_, _⟩ := locals
      exact ihinner _ rfl hname
    | scope locals =>
      obtain ⟨_, _⟩ := locals
      exact ihinner _ rfl hname

end NamesOneLine

/-- The labels of a sequence as it is written have names that a text can spell. -/
theorem Code.Named.namesOneLine {code : Code} {locals : SymbolTree} {count : Nat}
    (h : code.Named locals) (hlabels : locals.OnlyLabels count) : NamesOneLine locals.entries := by
  -- a label has no names below it, and its own is a name of the language
  have hnames := h.labels
  have hlabel := hlabels.label
  rw [SymbolTree.names] at hnames
  generalize locals.entries = entries at hnames hlabel
  induction entries with
  | nil => exact .nil
  | cons entry entries ih =>
    obtain ⟨hname, hnames⟩ := List.forall_mem_cons.1 hnames
    obtain ⟨⟨offset, -, heq⟩, hlabel⟩ := List.forall_mem_cons.1 hlabel
    refine .cons (.of_isName hname) (fun inner htree => ?_) (ih hnames hlabel)
    rw [heq] at htree
    cases htree

/-- The scope of an expansion is called by the name of its macro and a number. -/
theorem OneLine.scopeKey {r : Reference} (h : OneLine r.symbol) (taken : List String) :
    OneLine (r.scopeKey taken) :=
  ((OneLine.append (by decide) h).append (by decide)).append (.toString _)

/-- The scopes that expansion makes have no line breaks in their names. -/
theorem Inlines.namesOneLine_scopes {program : Program} (hsymbols : program.symbols.WellFormed)
    (hnamed : program.Named) {frame : Frame} {taken : List String} {steps : List Step}
    {inl : Inlining} (h : Inlines program.symbols frame taken steps inl)
    (hsteps : ∀ r ∈ references steps, IsName r.symbol) (name : String) (start : Nat) :
    NamesOneLine (inl.scopes name start) := by
  induction h generalizing name start with
  | done => exact .nil
  | word _ ih => exact ih hsteps name (start + 1)
  | @block frame taken r rest code locals inst key body inl hdef _ hkey hinst _ _ ihbody ihrest =>
    obtain ⟨hsymbol, hrest⟩ := List.forall_mem_cons.1 hsteps
    have hcode := hnamed.code _ _ _ hdef.mem
    have hlabels := (hsymbols.isWritten hdef).1.labels
    rw [Inlining.scopes, hkey, hinst]
    refine .cons (.scopeKey (.of_isName hsymbol) taken) (fun inner htree => ?_) (ihrest hrest _ _)
    cases htree
    exact ((hcode.namesOneLine hlabels).mapLabels _).append (ihbody hcode.references _ _)

/-! ## Images of compiled texts -/

namespace Compilation

variable {text : String} (c : Compilation text)

/-- The names that are printed for a linked sequence have no line breaks. -/
theorem namesOneLine {name : String} {linked : Code} {names : SymbolTree}
    (hmem : (name, .sequence linked names) ∈ c.linked.symbols.entries)
    (hkind : linked.isMacro = false) : OneLine names.name ∧ NamesOneLine names.entries := by
  have hsymbols := c.readFrom.wellFormed.symbols
  have hnamed := c.readFrom.named
  obtain ⟨code, locals, hcode, hsequence⟩ := c.isSequence_linked_iff.1 ⟨linked, names, hmem, hkind⟩
  obtain ⟨inl, linked', names', hlinked⟩ := c.exists_sequenced hcode hsequence
  cases entry_unique c.linksTo.linkable.nodup hmem hlinked.mem
  rw [hlinked.names_eq, SymbolTree.basedAt]
  refine ⟨?_, ?_⟩
  · rw [SymbolTree.mapLabels_name]
    show OneLine locals.name
    rw [hnamed.tree name code locals hcode, hsymbols.root]
    exact .of_isName (hnamed.name name (List.mem_map_of_mem hcode))
  · have hwritten : code.IsWritten locals := hsymbols.symbol _ hcode
    have hown := (hnamed.code name code locals hcode).namesOneLine hwritten.labels
    have hscopes := hlinked.inlines.namesOneLine_scopes hsymbols hnamed
      (hnamed.code name code locals hcode).references locals.name 0
    exact ((hown.mapLabels _).append hscopes).mapLabels _

/-- A word has a bit at least. -/
theorem wordWidth_pos : 0 < c.linked.wordWidth := by
  have hselector := c.readFrom.hasRoom.selector
  rw [c.dimensions.2]
  omega

omit c in
/-- The labels listed at a word stand on one line. -/
theorem oneLine_labelsAt {locals : SymbolTree} (h : NamesOneLine locals.entries) (index : Nat) :
    ∀ label ∈ Program.labelsAt locals index, OneLine label := by
  intro label hlabel
  obtain ⟨⟨name, l⟩, hl, rfl⟩ := List.mem_map.1 hlabel
  obtain ⟨tree, entries⟩ := locals
  have hempty : OneLine "" := by decide
  exact h.labels hempty _ (List.mem_filter.1 hl).1

/-- All lines of a sequence can be printed. -/
theorem printable_sequenceLines {name : String} {lines : List WordLine}
    (h : (c.linked.sequenceLines name).result = .ok lines) : ∀ line ∈ lines, line.Printable := by
  obtain ⟨⟨code, locals⟩, hplaced, h⟩ := Report.result_bind_eq_ok_iff.1 h
  obtain ⟨words, hwords, h⟩ := Report.result_bind_eq_ok_iff.1 h
  cases h
  obtain ⟨hfind, hkind⟩ := Program.placedSequence_eq_ok_iff.1 hplaced
  -- the heading has the name of the sequence, a word those of its labels
  have hnames : OneLine locals.name ∧ NamesOneLine locals.entries :=
    c.namesOneLine (c.linksTo.linkable.find?_eq_sequence_iff.1 hfind) hkind
  rw [Report.result_mapM, mapM_eq_ok_iff] at hwords
  refine List.forall_mem_cons.2 ⟨.heading hnames.1, List.forall_mem_append.2 ⟨?_, ?_⟩⟩
  · intro line hline
    obtain ⟨⟨step, index⟩, -, hstep⟩ := exists_of_forall₂_of_mem hwords hline
    obtain ⟨word, hword, hpure⟩ := Report.result_bind_eq_ok_iff.1 hstep
    cases hpure
    refine .word ?_ (oneLine_labelsAt hnames.2 index)
    rw [Program.width_encodeStep hword]
    exact c.wordWidth_pos
  · exact List.forall_mem_singleton.2 .gap

/-- The lines behind the last sequence are printable. -/
theorem printable_unusedLines {filled : Nat} {lines : List WordLine}
    (h : (c.linked.unusedLines filled).result = .ok lines) : ∀ line ∈ lines, line.Printable := by
  unfold Program.unusedLines at h
  dsimp only at h
  split at h
  · cases h
    exact List.forall_mem_singleton.2 (.unused 0)
  · obtain ⟨word, hword, h⟩ := Report.result_bind_eq_ok_iff.1 h
    cases h
    refine List.forall_mem_cons.2 ⟨.unused _, fun line hline => ?_⟩
    obtain ⟨i, -, rfl⟩ := List.mem_map.1 hline
    refine .word ?_ (by simp)
    rw [Program.width_fillerWord hword]
    exact c.wordWidth_pos

/-- All lines of the word table can be printed. -/
theorem printable_wordTable {table : List WordLine}
    (h : (c.linked.wordTable c.layout).result = .ok table) : ∀ line ∈ table, line.Printable := by
  obtain ⟨lines, hlines, h⟩ := Report.result_bind_eq_ok_iff.1 h
  obtain ⟨unused, hunused, h⟩ := Report.result_bind_eq_ok_iff.1 h
  cases h
  refine List.forall_mem_append.2 ⟨fun line hline => ?_, c.printable_unusedLines hunused⟩
  rw [Report.result_mapM, mapM_eq_ok_iff] at hlines
  obtain ⟨part, hpart, hline⟩ := List.mem_flatten.1 hline
  obtain ⟨name, -, hname⟩ := exists_of_forall₂_of_mem hlines hpart
  exact c.printable_sequenceLines hname line hline

/-- The symbols that the table of opcodes names are words of the text. -/
theorem oneLine_target {lines : List EntryLine} (h : c.linked.entryTable = .ok lines)
    {line : EntryLine} (hline : line ∈ lines) :
    ∀ symbol address, line.target = some (symbol, address) → OneLine symbol := by
  intro symbol address htarget
  obtain ⟨opcode, hopcode⟩ := List.getElem?_of_mem hline
  have henters := (Program.of_entryTable_eq_ok c.linksTo.linkable (fun _ => c.opcode_lt) h).2
    opcode line hopcode
  rw [htarget, c.entrypoints_eq.1] at henters
  generalize hbinding : c.program.entrypoints[opcode]? = binding at henters
  cases henters with
  | bound _ _ => exact .of_isName (c.readFrom.named.entrypoint opcode symbol hbinding)

/-- Without its remarks, the image of a compiled text for debugging is the plain one, and it fails
where the plain one fails. -/
theorem image_withoutRemarks : (c.linked.image c.layout false).result =
    (c.linked.image c.layout true).result.map Image.withoutRemarks := by
  obtain ⟨table, htable, himage⟩ := c.consistent.image_eq
  rw [himage, himage]
  cases hentries : c.linked.entryTable with
  | error error => rfl
  | ok lines =>
    have hwords := withoutRemarks_renderWords (c.printable_wordTable htable)
    have hopcodes : withoutRemarks (renderEntries true c.linked.addressWidth lines) =
        renderEntries false c.linked.addressWidth lines :=
      withoutRemarks_join fun line hline =>
        EntryLine.bares (Nat.succ_pos _) (c.oneLine_target hentries hline)
    rw [Except.map, Except.map, Except.map, Image.withoutRemarks, hwords, hopcodes]

end Compilation

/-- A text with slashes in its names, and a label in a scope inside a scope. -/
def slashedText : String :=
  "config { controlwordwidth 3 microprogramlength 2 opwidth 1 bankmask 0 } control c 0 1:0 " ++
  "macro in { ::l:: assert { c: l } } macro out { in() } sequence //s { ::/:: out() } " ++
  "empty { c: 2 } entrypoints { fetch: //s 1: //s }"

/-- The image of the text for debugging. -/
def slashedImage : Image where
  microprogram :=
    "//Sequence '//s' at address 0\n" ++
    "000   // ::/:: | ::_out_0._in_0.l:: | (address 0)\n" ++
    "\n" ++
    "//Empty space (1 unused addresses)\n" ++
    "100\n"
  entrypoints :=
    "0 //Instruction entrypoint 0 is unused\n" ++
    "0 //Instruction entrypoint 1 at sequence //s (address 0)\n"

/-- A name that starts with two slashes is only ever part of a remark. -/
theorem compile_slashedText :
    (compile (.ok slashedText) true).result = .ok slashedImage ∧
    slashedImage.withoutRemarks = ⟨"000\n100\n", "0\n0\n"⟩ := by
  decide +kernel

/-- Without remarks, the text has two words and two opcodes. -/
theorem Compilation.image_withoutRemarks_slashedText : ∃ c : Compilation slashedText,
    (c.linked.image c.layout true).result = .ok slashedImage ∧
    (c.linked.image c.layout false).result = .ok ⟨"000\n100\n", "0\n0\n"⟩ := by
  obtain ⟨hcompile, hplain⟩ := compile_slashedText
  obtain ⟨c, himage⟩ := compile_eq_ok_iff.1 hcompile
  refine ⟨c, himage, ?_⟩
  rw [c.image_withoutRemarks, himage, ← hplain]
  rfl

end ControlStore
