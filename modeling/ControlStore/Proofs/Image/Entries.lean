import ControlStore.Proofs.Image.Safety
import ControlStore.Proofs.Image.Target
import ControlStore.Proofs.Source.Bindings
import ControlStore.Proofs.Text.Numeral

/-!
# The table of opcodes

An opcode is bound in a text, its sequence is placed when the program is linked, and the address is
written into the opcode's line of the table. `Program.Enters` says what the line of an opcode names,
and `SymbolTree.Refuses` why a binding has no line. A table has a line for each opcode
(`Program.of_entryTable_eq_ok`), or it fails at the smallest opcode whose binding is refused
(`Program.refuses_of_entryTable`).

`Compilation.LeadsTo` says the same about a compiled text, down to the digits that are written.
-/

namespace ControlStore

/-! ## Bindings and their targets -/

/-- What the line of an opcode names: the sequence that the opcode is bound to, with its address, or
nothing. -/
inductive Program.Enters (program : Program) : Option String → Option (String × Nat) → Prop
  | unbound : Enters program none none
  | bound {symbol : String} {code : Code} {locals : SymbolTree}
      (hcode : (symbol, .sequence code locals) ∈ program.symbols.entries)
      (hkind : code.isMacro = false) : Enters program (some symbol) (some (symbol, code.address))

/-- Why the binding of an opcode is refused: its symbol is a macro, or it is no sequence at all. -/
inductive SymbolTree.Refuses (symbols : SymbolTree) (opcode : Nat) (symbol : String) :
    WriteError → Prop
  | isMacro {code : Code} {locals : SymbolTree} (hdef : symbols.IsMacro symbol code locals) :
      Refuses symbols opcode symbol (.macroEntrypoint symbol opcode)
  | undefined (hother : ∀ code locals, (symbol, .sequence code locals) ∉ symbols.entries) :
      Refuses symbols opcode symbol (.undefinedEntrypoint symbol opcode)

/-- A symbol is refused only if it is no sequence. -/
theorem SymbolTree.Refuses.not_isSequence {symbols : SymbolTree} (hnodup : symbols.names.Nodup)
    {opcode : Nat} {symbol : String} {error : WriteError}
    (h : symbols.Refuses opcode symbol error) : ¬symbols.IsSequence symbol := by
  rintro ⟨code, locals, hcode, hkind⟩
  cases h with
  | isMacro hdef =>
    cases entry_unique hnodup hcode hdef.mem
    rw [hdef.isMacro] at hkind
    cases hkind
  | undefined hother => exact hother code locals hcode

namespace Program

variable {program : Program} {opcode : Nat} {symbol : String}

/-- A binding that has a target enters its sequence. -/
theorem enters_of_entryTarget (hlink : program.symbols.Linkable) {target : Nat × String × Nat}
    (h : program.entryTarget opcode symbol = .ok target) :
    target.1 = opcode ∧ program.Enters (some symbol) (some target.2) := by
  unfold entryTarget at h
  split at h
  · next code locals hfind =>
    split at h
    · cases h
    · next hkind =>
      cases h
      exact ⟨rfl, .bound (hlink.find?_eq_sequence_iff.1 hfind) (by simpa using hkind)⟩
  · cases h

/-- A symbol that is entered is a sequence. -/
theorem Enters.isSequence {target : Option (String × Nat)}
    (h : program.Enters (some symbol) target) : program.symbols.IsSequence symbol := by
  cases h with
  | bound hcode hkind => exact ⟨_, _, hcode, hkind⟩

/-- A binding without a target is refused, as a macro or as nothing placed. -/
theorem refuses_of_entryTarget (hlink : program.symbols.Linkable) {error : WriteError}
    (h : program.entryTarget opcode symbol = .error error) :
    program.symbols.Refuses opcode symbol error := by
  unfold entryTarget at h
  split at h
  · next code locals hfind =>
    split at h
    · next hkind =>
      cases h
      exact .isMacro ⟨hlink.find?_eq_sequence_iff.1 hfind, hkind⟩
    · cases h
  · next hother =>
    cases h
    refine .undefined fun code locals hmem => ?_
    exact hother code locals (hlink.find?_eq_sequence_iff.2 hmem)

/-- Among the targets of bindings, an opcode is found with the target of its binding. -/
theorem enters_lookup (hlink : program.symbols.Linkable) {bound : List (Nat × String)}
    {targets : List (Nat × String × Nat)}
    (h : List.Forall₂ (fun binding target =>
      program.entryTarget binding.1 binding.2 = .ok target) bound targets) (opcode : Nat) :
    program.Enters (bound.lookup opcode) (targets.lookup opcode) := by
  induction h with
  | nil => exact .unbound
  | @cons binding target _ _ hfirst _ ih =>
    obtain ⟨hopcode, henters⟩ := enters_of_entryTarget hlink hfirst
    rw [List.lookup_cons, List.lookup_cons, hopcode]
    split
    · exact henters
    · exact ih

/-! ## The table -/

/-- The bindings of a program in the order of their opcodes are looked up like the table itself. -/
theorem lookup_toList (map : Std.TreeMap Nat String) (opcode : Nat) :
    map.toList.lookup opcode = map[opcode]? := by
  have hnodup : (map.toList.map Prod.fst).Nodup := by
    rw [Std.TreeMap.map_fst_toList_eq_keys]
    exact Std.TreeMap.nodup_keys
  refine Option.ext fun symbol => ?_
  rw [lookup_eq_some_iff hnodup, Std.TreeMap.mem_toList_iff_getElem?_eq_some]

/-- Where all bound opcodes exist, no binding is left out of the table. -/
theorem entryTable_eq (hbound : ∀ opcode ∈ program.entrypoints, opcode < program.opcodeCount) :
    program.entryTable = do
      let targets ← program.entrypoints.toList.mapM fun binding =>
        program.entryTarget binding.1 binding.2
      return (List.range program.opcodeCount).map fun opcode =>
        ⟨opcode, targets.lookup opcode⟩ := by
  rw [entryTable, List.filter_eq_self.2]
  intro binding hbinding
  have hsome := Std.TreeMap.mem_toList_iff_getElem?_eq_some.1 hbinding
  exact decide_eq_true (hbound _ (Std.TreeMap.mem_iff_isSome_getElem?.2 (by simp [hsome])))

/-- The table has a line for each opcode in order, which names what the opcode is bound to. -/
theorem of_entryTable_eq_ok (hlink : program.symbols.Linkable)
    (hbound : ∀ opcode ∈ program.entrypoints, opcode < program.opcodeCount) {lines : List EntryLine}
    (h : program.entryTable = .ok lines) :
    lines.length = program.opcodeCount ∧
      ∀ (opcode : Nat) (line : EntryLine), lines[opcode]? = some line →
        program.Enters program.entrypoints[opcode]? line.target := by
  rw [entryTable_eq hbound, bind_eq_ok_iff] at h
  obtain ⟨targets, htargets, hlines⟩ := h
  cases hlines
  refine ⟨by rw [List.length_map, List.length_range], fun opcode line hline => ?_⟩
  obtain ⟨hlt, rfl⟩ := List.getElem?_eq_some_iff.1 hline
  rw [List.getElem_map, List.getElem_range, ← lookup_toList]
  exact enters_lookup hlink (mapM_eq_ok_iff.1 htargets) opcode

/-- A table that fails does so at the smallest opcode whose binding is refused. -/
theorem refuses_of_entryTable (hlink : program.symbols.Linkable)
    (hbound : ∀ opcode ∈ program.entrypoints, opcode < program.opcodeCount) {error : WriteError}
    (h : program.entryTable = .error error) :
    ∃ opcode symbol, program.entrypoints[opcode]? = some symbol ∧
      program.symbols.Refuses opcode symbol error ∧
      ∀ earlier < opcode, ∀ other, program.entrypoints[earlier]? = some other →
        program.symbols.IsSequence other := by
  rw [entryTable_eq hbound] at h
  rcases bind_eq_error_iff.1 h with htargets | ⟨_, -, hpure⟩
  · obtain ⟨before, ⟨opcode, symbol⟩, after, hsplit, hfails, hbefore⟩ :=
      exists_split_of_mapM_eq_error htargets
    have hmem : (opcode, symbol) ∈ program.entrypoints.toList := by simp [hsplit]
    refine ⟨opcode, symbol, Std.TreeMap.mem_toList_iff_getElem?_eq_some.1 hmem,
      refuses_of_entryTarget hlink hfails, fun earlier hlt other hother => ?_⟩
    -- bindings are in the order of their opcodes, so smaller ones come before the first failure
    have hordered := Std.TreeMap.ordered_keys_toList (t := program.entrypoints)
    have hlisted := Std.TreeMap.mem_toList_iff_getElem?_eq_some.2 hother
    rw [hsplit] at hordered hlisted
    have hearlier : (earlier, other) ∈ before := by
      rcases List.mem_append.1 hlisted with hbefore | hrest
      · exact hbefore
      · rcases List.mem_cons.1 hrest with heq | hafter
        · cases heq
          omega
        · -- the bindings behind the failure have larger opcodes
          have hlater := (List.pairwise_append.1 hordered).2.1
          have hgt := Nat.compare_eq_lt.1 ((List.pairwise_cons.1 hlater).1 _ hafter)
          dsimp only at hgt
          omega
    obtain ⟨target, htarget⟩ := hbefore _ hearlier
    exact (enters_of_entryTarget hlink htarget).2.isSequence
  · cases hpure

end Program

/-- The image of a consistent program is there as soon as its table of opcodes is. -/
theorem Program.Consistent.image_eq {program : Program} {layout : List String}
    (h : program.Consistent layout) :
    ∃ table, (program.wordTable layout).result = .ok table ∧
      ∀ debug, (program.image layout debug).result = program.entryTable.map fun entries =>
        { microprogram := renderWords debug table
          entrypoints := renderEntries debug program.addressWidth entries } := by
  obtain ⟨table, htable⟩ := h.exists_wordTable
  refine ⟨table, htable, fun debug => ?_⟩
  rw [image, Report.result_bind, htable]
  show (liftM program.entryTable >>= _ : Report WriteError Image).result = _
  rw [Report.result_bind, Report.result_liftM]
  cases program.entryTable <;> rfl

/-! ## Opcodes of a compiled text -/

namespace Compilation

variable {text : String} (c : Compilation text)

/-- What opcodes are bound to and how their lines look is settled when the text is read. -/
theorem entrypoints_eq : c.linked.entrypoints = c.program.entrypoints ∧
    c.linked.opcodeCount = 2 ^ c.program.opcodeWidth ∧
    c.linked.addressWidth = c.program.addressWidth := by
  rw [← c.readFrom.checked.opcodeCount]
  obtain ⟨-, -, symbols, empty, hlinked⟩ := c.linked_eq
  rw [hlinked]
  exact ⟨rfl, rfl, rfl⟩

/-- Every bound opcode has a line. -/
theorem opcode_lt {opcode : Nat} (h : opcode ∈ c.linked.entrypoints) :
    opcode < c.linked.opcodeCount := by
  obtain ⟨hentrypoints, hcount, -⟩ := c.entrypoints_eq
  rw [hcount, ← c.readFrom.checked.opcodeCount]
  exact c.readFrom.checked.opcode_lt (hentrypoints ▸ h)

/-- An image is made of the words and of the lines for the opcodes that were read. -/
theorem entries_of_image {debug : Bool} {image : Image}
    (h : (c.linked.image c.layout debug).result = .ok image) :
    ∃ (table : List WordLine) (lines : List EntryLine),
      (c.linked.wordTable c.layout).result = .ok table ∧
      image = ⟨renderWords debug table, renderEntries debug c.program.addressWidth lines⟩ ∧
      lines.length = 2 ^ c.program.opcodeWidth ∧
      ∀ (opcode : Nat) (line : EntryLine), lines[opcode]? = some line →
        c.linked.Enters c.program.entrypoints[opcode]? line.target := by
  obtain ⟨hentrypoints, hcount, hwidth⟩ := c.entrypoints_eq
  obtain ⟨table, htable, himage⟩ := c.consistent.image_eq
  rw [himage, hwidth, map_eq_ok_iff] at h
  obtain ⟨lines, hlines, rfl⟩ := h
  obtain ⟨hlength, henters⟩ :=
    Program.of_entryTable_eq_ok c.linksTo.linkable (fun _ => c.opcode_lt) hlines
  rw [hcount] at hlength
  rw [hentrypoints] at henters
  exact ⟨table, lines, htable, rfl, hlength, henters⟩

/-- A binding is refused because of the symbols that were read. -/
theorem refuses_of_linked {opcode : Nat} {symbol : String} {error : WriteError}
    (h : c.linked.symbols.Refuses opcode symbol error) :
    c.program.symbols.Refuses opcode symbol error := by
  cases h with
  | isMacro hdef => exact .isMacro (c.isMacro_linked_iff.1 hdef)
  | undefined hother =>
    refine .undefined fun code locals hmem => ?_
    by_cases hkind : code.isMacro = true
    · exact hother code locals (c.isMacro_linked_iff.2 ⟨hmem, hkind⟩).mem
    · have hsequence : c.program.symbols.IsSequence symbol :=
        ⟨code, locals, hmem, by simpa using hkind⟩
      obtain ⟨code', locals', hmem', -⟩ := c.isSequence_linked_iff.2 hsequence
      exact hother code' locals' hmem'

/-- An image that cannot be made is refused for the smallest opcode with a bad binding. -/
theorem refuses_of_image {debug : Bool} {error : WriteError}
    (h : (c.linked.image c.layout debug).result = .error error) :
    ∃ opcode symbol, c.program.entrypoints[opcode]? = some symbol ∧
      c.program.symbols.Refuses opcode symbol error ∧
      ∀ earlier < opcode, ∀ other, c.program.entrypoints[earlier]? = some other →
        c.program.symbols.IsSequence other := by
  obtain ⟨opcode, symbol, hsymbol, hrefuses, hearlier⟩ := Program.refuses_of_entryTable
    c.linksTo.linkable (fun _ => c.opcode_lt) (c.consistent.of_image_eq_error h)
  simp only [c.entrypoints_eq.1, c.isSequence_linked_iff] at hsymbol hearlier
  exact ⟨opcode, symbol, hsymbol, c.refuses_of_linked hrefuses, hearlier⟩

/-- Where the digits of a line lead to, for the symbol that the opcode is bound to: to the address
of its sequence, where the sequence's first word is, or to address zero. -/
inductive LeadsTo (words : List Word) : Option String → String → Prop
  | unbound : LeadsTo words none (String.ofList (List.replicate c.program.addressWidth '0'))
  | bound {symbol digits : String} {code : Code} {locals : SymbolTree}
      (hlisted : symbol ∈ c.layout)
      (hcode : (symbol, .sequence code locals) ∈ c.linked.symbols.entries)
      (hkind : code.isMacro = false) (hdigits : natural? 2 digits.toList = some code.address)
      (hfirst : ∀ step rest, code.steps = step :: rest →
        ∃ word, (c.linked.encodeStep step).result = .ok word ∧ words[code.address]? = some word) :
      LeadsTo words (some symbol) digits

/-- The first word of a linked sequence is at its address. -/
theorem firstWord {table : List WordLine}
    (htable : (c.linked.wordTable c.layout).result = .ok table) {name : String}
    (hname : name ∈ c.layout) {code : Code} {locals : SymbolTree}
    (hcode : (name, .sequence code locals) ∈ c.linked.symbols.entries) {step : Step}
    {rest : List Step} (hsteps : code.steps = step :: rest) :
    ∃ word, (c.linked.encodeStep step).result = .ok word ∧
      (storeWords table)[code.address]? = some word := by
  have hstep : code.steps[0]? = some step := by rw [hsteps]; rfl
  obtain ⟨word, hencoded, hword⟩ :=
    Program.word_of_step c.linksTo.linkable htable hname hcode hstep
  rw [← c.address_eq hname hcode] at hword
  exact ⟨word, hencoded, hword⟩

/-- The digits of a line that enters a sequence lead to its words in the store. -/
theorem leadsTo_of_enters {table : List WordLine}
    (htable : (c.linked.wordTable c.layout).result = .ok table) {binding : Option String}
    {line : EntryLine} (h : c.linked.Enters binding line.target) :
    c.LeadsTo (storeWords table) binding (line.digits c.program.addressWidth) := by
  unfold EntryLine.digits
  generalize line.target = target at h
  cases h with
  | unbound => exact .unbound
  | bound hcode hkind =>
    have hlisted := c.mem_layout ⟨_, _, hcode, hkind⟩
    exact .bound hlisted hcode hkind (natural?_binary _ _)
      fun step rest hsteps => c.firstWord htable hlisted hcode hsteps

end Compilation

/-- The text of the table, line by line. -/
theorem renderEntries_eq (debug : Bool) (width : Nat) (lines : List EntryLine) :
    renderEntries debug width lines = String.join (lines.map fun line =>
      line.digits width ++ (if debug then line.remark else "") ++ "\n") := by
  cases debug with
  | false =>
    simp only [renderEntries, Bool.false_eq_true, if_false, String.append_empty]
    rfl
  | true => rfl

/-- The image of a compiled text is refused for the smallest opcode that is not bound to a sequence,
if there is one. Otherwise it has a line for each opcode, and the line leads to the sequence of the
opcode's last binding in the text. -/
theorem Compilation.image_leadsTo {text : String} (c : Compilation text) (debug : Bool) :
    ∃ tokens, tokenize text = .ok tokens ∧
      (∀ opcode symbol, lastBinding tokens opcode = some symbol →
        opcode < 2 ^ c.program.opcodeWidth) ∧
      ((∀ opcode symbol, lastBinding tokens opcode = some symbol →
          c.program.symbols.IsSequence symbol) →
        ∃ (image : Image) (table : List WordLine) (lines : List EntryLine),
          (c.linked.image c.layout debug).result = .ok image ∧
          (c.linked.wordTable c.layout).result = .ok table ∧
          image.microprogram = renderWords debug table ∧
          image.entrypoints = String.join (lines.map fun line =>
            line.digits c.program.addressWidth ++ (if debug then line.remark else "") ++ "\n") ∧
          lines.length = 2 ^ c.program.opcodeWidth ∧
          ∀ (opcode : Nat) (line : EntryLine), lines[opcode]? = some line →
            c.LeadsTo (storeWords table) (lastBinding tokens opcode)
              (line.digits c.program.addressWidth)) ∧
      ((∃ opcode symbol, lastBinding tokens opcode = some symbol ∧
          ¬c.program.symbols.IsSequence symbol) →
        ∃ opcode symbol error, lastBinding tokens opcode = some symbol ∧
          c.program.symbols.Refuses opcode symbol error ∧
          (∀ earlier < opcode, ∀ other, lastBinding tokens earlier = some other →
            c.program.symbols.IsSequence other) ∧
          (c.linked.image c.layout debug).result = .error error) := by
  obtain ⟨tokens, htokens, hbindings⟩ := c.readFrom.entrypoints
  refine ⟨tokens, htokens, ?_⟩
  simp only [← hbindings]
  have hbound : ∀ (opcode : Nat) (symbol : String), c.program.entrypoints[opcode]? = some symbol →
      opcode < 2 ^ c.program.opcodeWidth := by
    intro opcode symbol hsymbol
    rw [← c.readFrom.checked.opcodeCount]
    exact c.readFrom.checked.opcode_lt (Std.TreeMap.mem_iff_isSome_getElem?.2 (by simp [hsymbol]))
  refine ⟨hbound, ?_⟩
  -- the image decides: where it is written all bindings are sequences, where not one is refused
  cases hresult : (c.linked.image c.layout debug).result with
  | ok image =>
    obtain ⟨table, lines, htable, rfl, hlength, henters⟩ := c.entries_of_image hresult
    refine ⟨fun _ => ⟨_, table, lines, rfl, htable, rfl, renderEntries_eq _ _ _, hlength, ?_⟩, ?_⟩
    · intro opcode line hline
      exact c.leadsTo_of_enters htable (henters opcode line hline)
    · -- each bound opcode has a line, which names a sequence
      rintro ⟨opcode, symbol, hsymbol, hother⟩
      have hlt := hbound opcode symbol hsymbol
      have hline := henters opcode _ (List.getElem?_eq_getElem (hlength ▸ hlt))
      rw [hsymbol] at hline
      exact absurd (c.isSequence_linked_iff.1 hline.isSequence) hother
  | error error =>
    obtain ⟨opcode, symbol, hsymbol, hrefuses, hearlier⟩ := c.refuses_of_image hresult
    refine ⟨fun hsequences => ?_, fun _ => ?_⟩
    · have hnodup := c.readFrom.wellFormed.symbols.nodup
      exact absurd (hsequences opcode symbol hsymbol) (hrefuses.not_isSequence hnodup)
    · exact ⟨opcode, symbol, error, hsymbol, hrefuses, hearlier, rfl⟩

/-- A text that binds an opcode twice, the second time to its other sequence. -/
def reboundText : String :=
  "config { controlwordwidth 4 microprogramlength 4 opwidth 1 bankmask 0 } control c 0 2:0 " ++
  "sequence s { assert { c: 1 } assert { c: 2 } } sequence t { assert { c: t } } empty { c: 7 } " ++
  "entrypoints { fetch: s 1: s 1: t }"

/-- The second binding of an opcode is the one in the image. -/
theorem compile_reboundText :
    (compile (.ok reboundText) false).result =
      .ok ⟨"0010\n0100\n0100\n1110\n", "00\n10\n"⟩ ∧
    (tokenize reboundText).toOption.map (lastBinding · 1) = some (some "t") := by
  decide +kernel

/-- The opcode of the text leads to the sequence of its second binding. -/
theorem Compilation.image_leadsTo_reboundText :
    ∃ (c : Compilation reboundText) (table : List WordLine) (line : EntryLine),
      (c.linked.image c.layout false).result =
        .ok ⟨"0010\n0100\n0100\n1110\n", "00\n10\n"⟩ ∧
      c.LeadsTo (storeWords table) (some "t") (line.digits c.program.addressWidth) := by
  obtain ⟨hcompile, hlast⟩ := compile_reboundText
  obtain ⟨c, himage⟩ := compile_eq_ok_iff.1 hcompile
  obtain ⟨tokens, htokens, hbound, hleads, hrefused⟩ := c.image_leadsTo false
  rw [htokens] at hlast
  have hlast : lastBinding tokens 1 = some "t" := Option.some.inj hlast
  -- the image is there, so no binding was refused
  have hsequences : ∀ opcode symbol, lastBinding tokens opcode = some symbol →
      c.program.symbols.IsSequence symbol := by
    intro opcode symbol hsymbol
    by_contra hother
    obtain ⟨_, _, _, -, -, -, herror⟩ := hrefused ⟨opcode, symbol, hsymbol, hother⟩
    rw [himage] at herror
    cases herror
  obtain ⟨_, table, lines, -, -, -, -, hlength, hlines⟩ := hleads hsequences
  have hlt : 1 < lines.length := hlength ▸ hbound 1 "t" hlast
  refine ⟨c, table, lines.get ⟨1, hlt⟩, himage, ?_⟩
  rw [← hlast]
  exact hlines 1 _ (List.getElem?_eq_getElem hlt)

end ControlStore
