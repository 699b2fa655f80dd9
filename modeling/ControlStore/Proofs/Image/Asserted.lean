import ControlStore.Proofs.Expansion.Names
import ControlStore.Proofs.Image.Target

/-!
# What asserted names stand for

Every name in an assertion is replaced by a number. `Compilation.StandsFor` lists where the number
can come from: a constant, the address of a sequence, or a label between the start and the end of a
sequence. These are all in the layout. But a path can also lead into a macro, which is never placed.
Its labels keep the base 0, so that such a path stands for the bare offset of the label in the
macro's body (`Compilation.StandsFor.macroLabel`).
-/

namespace ControlStore

variable {text : String}

/-- The label is between the first step of a placed sequence and the end of its last one. -/
structure Code.Spans (code : Code) (label : Label) : Prop where
  start : code.address ≤ label.address
  stop : label.address ≤ code.address + code.steps.length

/-- A number that a name stands for in a linked program, where the names in `scope` come first. -/
inductive Compilation.StandsFor (c : Compilation text) (scope : SymbolTree) (x : String) :
    Int → Prop
  | constant {value : Int} (hmem : (x, .constant value) ∈ c.program.symbols.entries) :
      StandsFor c scope x value
  | sequence {code : Code} {names : SymbolTree} (hlisted : x ∈ c.layout)
      (hcode : (x, .sequence code names) ∈ c.linked.symbols.entries)
      (hkind : code.isMacro = false) : StandsFor c scope x code.address
  /-- A label of the sequence in which the name is asserted. -/
  | ownLabel {name : String} {code : Code} {target : Label} (hlisted : name ∈ c.layout)
      (hcode : (name, .sequence code scope) ∈ c.linked.symbols.entries)
      (hkind : code.isMacro = false) (hfind : scope.find? x = some (.label target))
      (hspans : code.Spans target) : StandsFor c scope x target.address
  /-- A label of a sequence, by the name of the sequence and a path in it. -/
  | label {name : String} {path : Path} {code : Code} {names : SymbolTree} {target : Label}
      (hlisted : name ∈ c.layout) (hcode : (name, .sequence code names) ∈ c.linked.symbols.entries)
      (hkind : code.isMacro = false) (hpath : Path.ofName x = name :: path)
      (hget : names.get? path = some (.label target)) (hspans : code.Spans target) :
      StandsFor c scope x target.address
  /-- A label in the body of a macro, which has no address. -/
  | macroLabel {name label : String} {code : Code} {locals : SymbolTree} {offset : Nat}
      (hdef : c.program.symbols.IsMacro name code locals) (hpath : Path.ofName x = [name, label])
      (hlabel : (label, .label { offset }) ∈ locals.entries) :
      StandsFor c scope x (ofPattern offset)

/-! ## Labels of sequences -/

/-- Everything that is found among the names of an expanded sequence and stands for a number is a
label within the sequence's words. -/
theorem Inlines.exists_label_of_get? {macros locals : SymbolTree} (hmacros : macros.WellFormed)
    {steps : List Step} {inl : Inlining} {count : Nat} (hlabels : locals.OnlyLabels count)
    (h : Inlines macros none locals.names steps inl) {name : String} {path : Path} {found : Symbol}
    (hget : (inl.tree name 0 locals.entries).get? path = some found) :
    (∃ label : Label, found = .label label ∧ label.offset ≤ inl.size) ∨
      ∃ inner, found = .scope inner := by
  rcases h.names_of_get?_tree hmacros hlabels hget with
    ⟨label, offset, -, -, rfl⟩ | ⟨block, hblock, hnames⟩
  · have hplace := inl.offset_place_le 0 { offset }
    exact .inl ⟨_, rfl, by omega⟩
  · -- the words of an instance are among those of the host, so its labels are too
    obtain ⟨before, after, hwords, hstart⟩ := Inlining.words_of_mem_blocks hblock
    generalize Path.ofScope (Frame.scope none) ++ path = whole at hnames
    cases hnames with
    | scope name => exact .inr ⟨_, rfl⟩
    | @label _ offset hlabel =>
      have hplace := block.body.offset_place_le block.start { offset }
      have hsize : before.length + block.body.size ≤ inl.size := by
        rw [Inlining.size, Inlining.size, hwords, List.length_append, List.length_append]
        omega
      exact .inl ⟨_, rfl, by omega⟩

namespace Compilation

variable (c : Compilation text)

/-- What is found among the names of a linked sequence and stands for a number is a label of it. -/
theorem exists_spans {name : String} {code : Code} {names : SymbolTree} (hlisted : name ∈ c.layout)
    (hcode : (name, .sequence code names) ∈ c.linked.symbols.entries) {path : Path} {found : Symbol}
    (hget : names.get? path = some found) {value : Int} (hvalue : found.resolve = some value) :
    ∃ target, found = .label target ∧ code.Spans target ∧ value = target.address := by
  have hsymbols := c.readFrom.wellFormed.symbols
  obtain ⟨codes, hcodes⟩ := c.exists_laidOut
  obtain ⟨written, locals, hmem, hkind⟩ := (hcodes.mem_iff name).1 hlisted
  obtain ⟨inl, linked, names', hsequenced⟩ := c.exists_sequenced hmem hkind
  cases entry_unique c.linksTo.linkable.nodup hcode hsequenced.mem
  have hlabels : locals.OnlyLabels written.steps.length := (hsymbols.symbol _ hmem).labels
  -- the label is one of the expanded sequence with the address of the sequence added
  rw [hsequenced.names_eq, SymbolTree.basedAt, SymbolTree.get?_mapLabels,
    Option.map_eq_some_iff] at hget
  obtain ⟨old, hold, rfl⟩ := hget
  rcases hsequenced.inlines.exists_label_of_get? hsymbols hlabels hold with
    ⟨label, rfl, hoffset⟩ | ⟨inner, rfl⟩
  · have hsize : code.steps.length = inl.size := by
      rw [← hsequenced.steps.length_eq, List.length_map, Inlining.size]
    have hstop := c.stop_le_length hlisted hcode
    have hlt := c.readFrom.wellFormed.length_lt
    have haddress : Label.address ⟨label.offset, code.address⟩ = code.address + label.offset := rfl
    refine ⟨⟨label.offset, code.address⟩, rfl, ⟨?_, ?_⟩, ?_⟩
    · omega
    · omega
    · rw [Symbol.mapLabels, Symbol.resolve, ofPattern_of_lt (by omega)] at hvalue
      exact (Option.some.inj hvalue).symm
  · rw [Symbol.mapLabels, Symbol.resolve] at hvalue
    cases hvalue

/-! ## Global names -/

/-- What a global symbol stands for. -/
theorem standsFor_of_mem {x : String} {found : Symbol}
    (hmem : (x, found) ∈ c.linked.symbols.entries) {value : Int}
    (hvalue : found.resolve = some value) (scope : SymbolTree) : c.StandsFor scope x value := by
  have hsymbols := c.readFrom.wellFormed.symbols
  cases found with
  | constant _ =>
    cases hvalue
    exact .constant ((c.mem_linked_iff rfl).1 hmem)
  | label l => exact (hsymbols.symbol _ ((c.mem_linked_iff rfl).1 hmem)).elim
  | scope locals => cases hvalue
  | sequence code names =>
    rw [Symbol.resolve] at hvalue
    split at hvalue
    · cases hvalue
    · next hkind =>
      have hkind : code.isMacro = false := by simpa using hkind
      -- a sequence stands for its address, which fits into the value
      have hlisted := c.mem_layout ⟨code, names, hmem, hkind⟩
      have hstop := c.stop_le_length hlisted hmem
      have hlt := c.readFrom.wellFormed.length_lt
      rw [ofPattern_of_lt (by omega)] at hvalue
      cases hvalue
      exact .sequence hlisted hmem hkind

/-- What a name stands for among the global symbols. -/
theorem standsFor_of_find? {x : String} {found : Symbol}
    (hfind : c.linked.symbols.find? x = some found) {value : Int}
    (hvalue : found.resolve = some value) (scope : SymbolTree) : c.StandsFor scope x value := by
  have hsymbols := c.readFrom.wellFormed.symbols
  rcases SymbolTree.mem_or_get?_of_find? hfind with
    hmem | ⟨⟨name, outer⟩, hmem, inner, path, hpath, htree, hget⟩
  · exact c.standsFor_of_mem hmem hvalue scope
  · cases outer with
    | constant _ => cases htree
    | label l => cases htree
    | scope locals => exact (hsymbols.symbol _ ((c.mem_linked_iff rfl).1 hmem)).elim
    | sequence code names =>
      obtain rfl := Option.some.inj htree
      by_cases hkind : code.isMacro = true
      · -- placement has left the macro as it was read
        have hdef := c.isMacro_linked_iff.1 ⟨hmem, hkind⟩
        obtain ⟨label, offset, rfl, hlabel, rfl⟩ :=
          (hsymbols.isWritten hdef).1.labels.of_get? hget
        rw [Symbol.resolve, Label.address, Nat.zero_add] at hvalue
        obtain rfl := Option.some.inj hvalue
        exact .macroLabel hdef hpath hlabel
      · have hkind : code.isMacro = false := by simpa using hkind
        have hlisted := c.mem_layout ⟨code, _, hmem, hkind⟩
        obtain ⟨target, rfl, hspans, rfl⟩ := c.exists_spans hlisted hmem hget hvalue
        exact .label hlisted hmem hkind hpath hget hspans

/-- The names that come first where a signal is asserted are those of a sequence in the layout, or
there are none. -/
theorem LinksSignal.scope {c : Compilation text} {scope : SymbolTree} {signal resolved : Signal}
    (h : c.LinksSignal scope signal resolved) :
    scope = .empty ∨ ∃ name code, name ∈ c.layout ∧ code.isMacro = false ∧
      (name, .sequence code scope) ∈ c.linked.symbols.entries := by
  cases h with
  | empty _ _ _ _ => exact .inl rfl
  | @sequence name code linked locals names i j a b _ _ hcode hkind hlinked ha hb hsignal
      hresolved =>
    obtain ⟨steps, hmem, -⟩ := c.linksTo.sequence name code locals hcode hkind
    cases entry_unique c.linksTo.linkable.nodup hlinked hmem
    have hlisted := c.mem_layout ⟨_, _, hlinked, hkind⟩
    exact .inr ⟨name, { code with address := _, steps }, hlisted, hkind, hlinked⟩

end Compilation

/-- Every name that is asserted in a linked program has become a number that it stands for. No name
of a macro has, and no number is out of the layout but for the labels of macros. -/
theorem Compilation.signal_standsFor {text : String} {c : Compilation text} {scope : SymbolTree}
    {signal resolved : Signal} (h : c.LinksSignal scope signal resolved) {x : String}
    (hx : signal.value = .symbol x) :
    ∃ value, resolved.value = .integer value ∧ c.StandsFor scope x value := by
  have hresolves := h.resolvesTo.value
  rw [hx] at hresolves
  generalize resolved.value = number at hresolves
  cases hresolves with
  | @symbol _ found value hfound hvalue =>
    refine ⟨value, rfl, ?_⟩
    -- a name of the sequence itself comes before the global one
    cases hown : scope.find? x with
    | none =>
      rw [lookupIn, hown, Option.none_or] at hfound
      exact c.standsFor_of_find? hfound hvalue scope
    | some own =>
      rw [lookupIn, hown, Option.some_or] at hfound
      cases hfound
      rcases h.scope with rfl | ⟨name, code, hlisted, hkind, hcode⟩
      · rw [SymbolTree.find?_empty] at hown
        cases hown
      · obtain ⟨target, rfl, hspans, rfl⟩ := c.exists_spans hlisted hcode hown hvalue
        exact .ownLabel hlisted hcode hkind hown hspans

/-- A text that asserts a label in the body of a macro. -/
def macroPathText : String :=
  "config { controlwordwidth 6 microprogramlength 2 opwidth 1 bankmask 0 } control c 0 3:0 " ++
  "macro m { assert { c: 0 } assert { c: 0 } assert { c: 0 } ::l:: } " ++
  "sequence s { assert { c: m.l } } empty { c: m.l } entrypoints { fetch: s }"

/-- Both words of the text's image assert the number 3, in a store of two words. -/
theorem compile_macroPathText :
    (compile (.ok macroPathText) false).result = .ok ⟨"000110\n000110\n", "0\n0\n"⟩ ∧
    (Program.ofText macroPathText).length = 2 ∧
    ((Program.ofText macroPathText).emptyAssertion.bind (·.signals[0]?)).map Signal.value =
      some (.symbol "m.l") ∧
    ((Program.link.run (Program.expand.run (.ofText macroPathText)).state).state.emptyAssertion.bind
      (·.signals[0]?)).map Signal.value = some (.integer 3) := by
  decide +kernel

/-- The signal of the text that fills unused addresses, before and after linking. -/
theorem exists_linksSignal_macroPathText :
    ∃ (c : Compilation macroPathText) (signal resolved : Signal),
      c.LinksSignal .empty signal resolved ∧ signal.value = .symbol "m.l" ∧
      resolved.value = .integer 3 ∧ c.program.length = 2 := by
  obtain ⟨hcompile, hlength, hbefore, hafter⟩ := compile_macroPathText
  obtain ⟨c, -⟩ := compile_eq_ok_iff.1 hcompile
  rw [← c.readFrom.eq_ofText] at hlength hbefore hafter
  rw [c.expands.2, c.links.2] at hafter
  obtain ⟨signal, hsignal, hvalue⟩ := Option.map_eq_some_iff.1 hbefore
  obtain ⟨a, ha, hsignal⟩ := Option.bind_eq_some_iff.1 hsignal
  obtain ⟨resolved, hresolved, hnumber⟩ := Option.map_eq_some_iff.1 hafter
  obtain ⟨b, hb, hresolved⟩ := Option.bind_eq_some_iff.1 hresolved
  obtain ⟨trees, -, -, hexpanded⟩ :=
    Program.eq_of_expand c.readFrom.wellFormed.symbols c.expands
  have ha : c.expanded.emptyAssertion = some a := by rw [hexpanded]; exact ha
  exact ⟨c, signal, resolved, .empty ha hb hsignal hresolved, hvalue, hnumber, hlength⟩

/-- The number that the text asserts stands for a label. -/
theorem Compilation.signal_standsFor_macroPathText :
    ∃ (c : Compilation macroPathText) (signal resolved : Signal),
      c.LinksSignal .empty signal resolved ∧ signal.value = .symbol "m.l" ∧
      ∃ value, resolved.value = .integer value ∧ c.StandsFor .empty "m.l" value := by
  obtain ⟨c, signal, resolved, hsignal, hvalue, -⟩ := exists_linksSignal_macroPathText
  exact ⟨c, signal, resolved, hsignal, hvalue, Compilation.signal_standsFor hsignal hvalue⟩

/-- The number that the text asserts for a label is no address of its store. -/
theorem macroPathText_refuted :
    (compile (.ok macroPathText) false).result = .ok ⟨"000110\n000110\n", "0\n0\n"⟩ ∧
    ∃ (c : Compilation macroPathText) (signal resolved : Signal),
      c.LinksSignal .empty signal resolved ∧ signal.value = .symbol "m.l" ∧
      resolved.value = .integer 3 ∧
      (∀ value, ("m.l", .constant value) ∉ c.program.symbols.entries) ∧
      ∀ name code names, (name, .sequence code names) ∈ c.linked.symbols.entries →
        name ∈ c.layout → code.address + code.steps.length < 3 := by
  obtain ⟨c, signal, resolved, hsignal, hvalue, hnumber, hlength⟩ :=
    exists_linksSignal_macroPathText
  refine ⟨compile_macroPathText.1, c, signal, resolved, hsignal, hvalue, hnumber, ?_, ?_⟩
  · intro value hmem
    -- no constant has a dot in its name, and no placed sequence reaches as far as 3
    have hdotless : Dotless "m.l" :=
      c.readFrom.wellFormed.symbols.dotless _ (List.mem_map_of_mem hmem)
    exact hdotless (by decide)
  · intro name code names hcode hlisted
    have hstop := c.stop_le_length hlisted hcode
    omega

end ControlStore
