import ControlStore.Proofs.Image.Entries

/-!
# The width of an opcode's line

The lines of the opcode table have the digits of the highest address in the store. That is enough
for the address of every sequence with steps. A sequence without steps may stand behind the last
word of a full store, and if the length of the store is a power of two, its address has a digit more
(`Compilation.IsBehindStore`). `Compilation.length_digits` says that there are no other exceptions.
-/

namespace ControlStore

/-- The store has no more addresses than numbers with the digits of an address. -/
theorem Program.length_le_two_pow (program : Program) :
    program.length ≤ 2 ^ program.addressWidth := by
  have hlt := Nat.lt_log2_self (n := program.length - 1)
  rw [addressWidth]
  omega

/-- The symbol is a sequence without steps that stands behind the last word of a full store, and the
length of the store is a power of two. So its address has more digits than those in the store. -/
def Compilation.IsBehindStore {text : String} (c : Compilation text) (symbol : String) : Prop :=
  ∃ code locals, (symbol, .sequence code locals) ∈ c.linked.symbols.entries ∧
    code.isMacro = false ∧ code.steps = [] ∧ code.address = c.program.length ∧
    c.program.length = 2 ^ c.program.addressWidth

/-- A line has one digit more than an address exactly where it enters a sequence without words
behind a full store whose length is a power of two. -/
theorem Compilation.length_digits {text : String} (c : Compilation text) {binding : Option String}
    {line : EntryLine} (h : c.linked.Enters binding line.target) :
    ((∃ symbol, binding = some symbol ∧ c.IsBehindStore symbol) →
      (line.digits c.program.addressWidth).length = c.program.addressWidth + 1) ∧
    ((¬∃ symbol, binding = some symbol ∧ c.IsBehindStore symbol) →
      (line.digits c.program.addressWidth).length = c.program.addressWidth) := by
  have hpos : 0 < c.program.addressWidth := Nat.succ_pos _
  have hlength := c.program.length_le_two_pow
  unfold EntryLine.digits
  generalize line.target = target at h
  cases h with
  | unbound =>
    refine ⟨?_, fun _ => ?_⟩
    · rintro ⟨symbol, hsymbol, -⟩
      cases hsymbol
    · rw [String.length_ofList, List.length_replicate]
  | @bound symbol code locals hcode hkind =>
    -- an address is at most the length of the store, and equal to it only without words
    have hstop := c.stop_le_length (c.mem_layout ⟨code, locals, hcode, hkind⟩) hcode
    refine ⟨?_, fun hother => ?_⟩
    · rintro ⟨_, hsymbol, code', locals', hcode', -, -, haddress, hpower⟩
      cases hsymbol
      cases entry_unique c.linksTo.linkable.nodup hcode hcode'
      rw [length_binary, haddress, hpower, Nat.log2_two_pow]
      omega
    · -- a sequence that is not behind the store has an address in it, or one that still fits
      rw [length_binary_eq_iff hpos]
      by_contra hle
      refine hother ⟨symbol, rfl, code, locals, hcode, hkind, ?_, ?_, ?_⟩
      · exact List.length_eq_zero_iff.1 (by omega)
      · omega
      · omega

/-- A line has binary digits only. -/
theorem EntryLine.mem_digits {width : Nat} {line : EntryLine} {c : Char}
    (h : c ∈ (line.digits width).toList) : c = '0' ∨ c = '1' := by
  unfold digits at h
  split at h
  · exact mem_binary h
  · rw [String.toList_ofList] at h
    exact .inl (List.eq_of_mem_replicate h)

/-- The lines of the plain table of opcodes are binary digits in the width of the store's addresses,
but for opcodes whose sequence is behind the store: their lines have one digit more. -/
theorem compile_entry_widths {text : String} {image : Image}
    (h : (compile (.ok text) false).result = .ok image) :
    ∃ (c : Compilation text) (tokens : List Token) (lines : List String),
      (c.linked.image c.layout false).result = .ok image ∧ tokenize text = .ok tokens ∧
      image.entrypoints = String.join (lines.map (· ++ "\n")) ∧
      lines.length = 2 ^ c.program.opcodeWidth ∧
      ∀ (opcode : Nat) (line : String), lines[opcode]? = some line →
        (∀ digit ∈ line.toList, digit = '0' ∨ digit = '1') ∧
        ((∃ symbol, lastBinding tokens opcode = some symbol ∧ c.IsBehindStore symbol) →
          line.length = c.program.addressWidth + 1) ∧
        ((¬∃ symbol, lastBinding tokens opcode = some symbol ∧ c.IsBehindStore symbol) →
          line.length = c.program.addressWidth) := by
  obtain ⟨c, himage⟩ := compile_eq_ok_iff.1 h
  obtain ⟨tokens, htokens, hbindings⟩ := c.readFrom.entrypoints
  obtain ⟨table, lines, -, rfl, hlength, henters⟩ := c.entries_of_image himage
  refine ⟨c, tokens, lines.map (EntryLine.digits c.program.addressWidth), himage, htokens, ?_, ?_,
    ?_⟩
  · rw [List.map_map]
    rfl
  · rw [List.length_map, hlength]
  · intro opcode digits hdigits
    rw [List.getElem?_map, Option.map_eq_some_iff] at hdigits
    obtain ⟨line, hline, rfl⟩ := hdigits
    have henters := henters opcode line hline
    rw [hbindings] at henters
    exact ⟨fun digit hdigit => EntryLine.mem_digits hdigit, c.length_digits henters⟩

/-- A text that fills its store and binds an opcode to a sequence behind it. -/
def fullText : String :=
  "config { controlwordwidth 4 microprogramlength 2 opwidth 1 bankmask 0 } control c 0 1:0 " ++
  "sequence s { assert { c: 1 } assert { c: 2 } } sequence e { } empty { c: 0 } " ++
  "entrypoints { fetch: s, 1: e }"

/-- A sequence without words behind a full store is given two digits. -/
theorem compile_fullText :
    (compile (.ok fullText) false).result = .ok ⟨"0010\n0100\n", "0\n10\n"⟩ ∧
    (Program.ofText fullText).addressWidth = 1 := by
  decide +kernel

/-- The digits of the text's lines are binary and have their widths. -/
theorem compile_entry_widths_fullText :
    (compile (.ok fullText) false).result = .ok ⟨"0010\n0100\n", "0\n10\n"⟩ ∧
    ∃ (c : Compilation fullText) (tokens : List Token) (lines : List String),
      tokenize fullText = .ok tokens ∧ "0\n10\n" = String.join (lines.map (· ++ "\n")) ∧
      lines.length = 2 ^ c.program.opcodeWidth ∧
      ∀ (opcode : Nat) (line : String), lines[opcode]? = some line →
        ((∃ symbol, lastBinding tokens opcode = some symbol ∧ c.IsBehindStore symbol) →
          line.length = c.program.addressWidth + 1) := by
  obtain ⟨c, tokens, lines, -, htokens, hlines, hlength, hline⟩ :=
    compile_entry_widths compile_fullText.1
  exact ⟨compile_fullText.1, c, tokens, lines, htokens, hlines, hlength,
    fun opcode line h => (hline opcode line h).2.1⟩

/-- The addresses of the text's store have one digit, but not all lines of its table have. -/
theorem fullText_width_refuted :
    (compile (.ok fullText) false).result = .ok ⟨"0010\n0100\n", "0\n10\n"⟩ ∧
    (∀ program : Program, program.ReadFrom fullText → program.addressWidth = 1) ∧
    ¬∃ lines : List String, "0\n10\n" = String.join (lines.map (· ++ "\n")) ∧
      ∀ line ∈ lines, line.length = 1 := by
  refine ⟨compile_fullText.1, fun program hread => ?_, ?_⟩
  · rw [hread.eq_ofText]
    exact compile_fullText.2
  · rintro ⟨lines, hjoin, hlines⟩
    -- lines of one digit come to an even number of characters
    have hlength := congrArg String.length hjoin
    have heach : lines.map (String.length ∘ (· ++ "\n")) = lines.map fun _ => 2 := by
      refine List.map_congr_left fun line hline => ?_
      rw [Function.comp, String.length_append, hlines line hline]
      rfl
    rw [String.length_join, List.map_map, heach, List.map_const', List.sum_replicate_nat] at hlength
    have hfive : "0\n10\n".length = 5 := rfl
    rw [hfive] at hlength
    omega

end ControlStore
