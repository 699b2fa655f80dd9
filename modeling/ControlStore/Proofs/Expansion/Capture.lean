import ControlStore.Proofs.Compilation
import ControlStore.Proofs.Expansion.Names
import ControlStore.Proofs.Layout.Resolution
import ControlStore.Proofs.Symbol.Built

/-!
# Names that instances capture

The scope of an instance gets a name that is new among the names of its host. A name in the host is
looked up there first, and then globally, where the instance's name may be in use. So an own label
of a host is always found again after expansion, but a global name is hidden if it happens to be the
path of an instance, or of a label in one (`Inlining.Captures`). `FindsAfter` is the full account.
-/

namespace ControlStore

/-- The name leads into an instance of a host: it is the path of the instance's scope, or that of a
label in it. -/
def Inlining.Captures (inl : Inlining) (name : String) : Prop :=
  ∃ block ∈ inl.blocks 0, ∃ symbol, block.Names (.ofName name) symbol

/-- What a global name is bound to before expansion, and the same definition after it. Constants and
macros stay, and so do the labels of macros. A sequence gets the words of its tree, and its labels
are moved to the places that they mark. -/
inductive Relocates (symbols : SymbolTree) (trees : String → Inlining) (x : String) :
    Symbol → Symbol → Prop
  | constant {value : Int} (hmem : (x, .constant value) ∈ symbols.entries) :
      Relocates symbols trees x (.constant value) (.constant value)
  | isMacro {code : Code} {locals : SymbolTree} (hdef : symbols.IsMacro x code locals) :
      Relocates symbols trees x (.sequence code locals) (.sequence code locals)
  | sequence {code : Code} {locals : SymbolTree}
      (hmem : (x, .sequence code locals) ∈ symbols.entries) (hkind : code.isMacro = false) :
      Relocates symbols trees x (.sequence code locals)
        (.sequence { code with steps := (trees x).words.map .assertion }
          ((trees x).tree locals.name 0 locals.entries))
  | macroLabel {name label : String} {code : Code} {locals : SymbolTree} {offset : Nat}
      (hdef : symbols.IsMacro name code locals) (hpath : Path.ofName x = [name, label])
      (hlabel : (label, .label { offset }) ∈ locals.entries) :
      Relocates symbols trees x (.label { offset }) (.label { offset })
  | label {name label : String} {code : Code} {locals : SymbolTree} {offset : Nat}
      (hmem : (name, .sequence code locals) ∈ symbols.entries) (hkind : code.isMacro = false)
      (hpath : Path.ofName x = [name, label])
      (hlabel : (label, .label { offset }) ∈ locals.entries) :
      Relocates symbols trees x (.label { offset }) (.label ((trees name).place 0 { offset }))

/-- What a name finds in a host before expansion, and after it. -/
inductive FindsAfter (symbols : SymbolTree) (trees : String → Inlining) (host : String)
    (locals : SymbolTree) (x : String) : Symbol → Symbol → Prop
  /-- An own label of the host is found again at the place that it marks. -/
  | own {offset : Nat} (hlabel : (x, .label { offset }) ∈ locals.entries) :
      FindsAfter symbols trees host locals x (.label { offset })
        (.label ((trees host).place 0 { offset }))
  /-- A global definition is found again unless the name leads into an instance. -/
  | global {found moved : Symbol} (hother : x ∉ locals.names)
      (hmoved : Relocates symbols trees x found moved) (hfree : ¬(trees host).Captures x) :
      FindsAfter symbols trees host locals x found moved
  /-- If it does, the global definition is hidden behind the instance. -/
  | captured {found moved shadow : Symbol} {block : Block} (hother : x ∉ locals.names)
      (hmoved : Relocates symbols trees x found moved) (hblock : block ∈ (trees host).blocks 0)
      (hnames : block.Names (.ofName x) shadow) :
      FindsAfter symbols trees host locals x found shadow

/-! ## Global names -/

section Global

variable {symbols : SymbolTree} {trees : String → Inlining} {x : String} {found : Symbol}

/-- A global symbol is found again after expansion. -/
theorem relocates_of_mem (h : symbols.WellFormed) (hmem : (x, found) ∈ symbols.entries) :
    Relocates symbols trees x found (expandEntry trees (x, found)).2 := by
  have hsymbol := h.symbol _ hmem
  cases found with
  | constant value => exact .constant hmem
  | label l => exact hsymbol.elim
  | scope locals => exact hsymbol.elim
  | sequence code locals =>
    by_cases hkind : code.isMacro = true
    · rw [expandEntry, if_pos hkind]
      exact .isMacro ⟨hmem, hkind⟩
    · have hkind : code.isMacro = false := by simpa using hkind
      rw [expandEntry_sequence trees x hkind]
      exact .sequence hmem hkind

/-- A label of a global sequence or macro is found again after expansion. -/
theorem relocates_of_label (h : symbols.WellFormed) {name label : String} {code : Code}
    {locals : SymbolTree} {offset : Nat} (hmem : (name, .sequence code locals) ∈ symbols.entries)
    (hpath : Path.ofName x = [name, label]) (hlabel : (label, .label { offset }) ∈ locals.entries) :
    ∃ moved, Relocates symbols trees x (.label { offset }) moved ∧
      (expandEntry trees (name, .sequence code locals)).2.tree?.bind (·.local? label) =
        some moved := by
  have hlabels : locals.OnlyLabels code.steps.length := (h.symbol _ hmem).labels
  by_cases hkind : code.isMacro = true
  · refine ⟨_, .macroLabel ⟨hmem, hkind⟩ hpath hlabel, ?_⟩
    rw [expandEntry, if_pos hkind]
    exact (lookup_eq_some_iff hlabels.nodup).2 hlabel
  · have hkind : code.isMacro = false := by simpa using hkind
    refine ⟨_, .label hmem hkind hpath hlabel, ?_⟩
    rw [expandEntry_sequence trees name hkind]
    exact Inlining.local?_tree hlabels.nodup hlabel _ _ _

/-- Expansion keeps the global names, so they stay distinct. -/
theorem nodup_map_expandEntry (h : symbols.names.Nodup) (trees : String → Inlining) :
    ((symbols.entries.map (expandEntry trees)).map Prod.fst).Nodup := by
  rw [List.map_map, show Prod.fst ∘ expandEntry trees = Prod.fst from
    funext (expandEntry_fst trees)]
  exact h

/-- Whatever a name finds globally is found again after expansion. -/
theorem exists_relocates (h : symbols.WellFormed) (trees : String → Inlining)
    (hfind : symbols.find? x = some found) :
    ∃ moved, Relocates symbols trees x found moved ∧
      (⟨symbols.name, symbols.entries.map (expandEntry trees)⟩ : SymbolTree).find? x =
        some moved := by
  -- each global entry is found behind the expansion under the name it had
  have hlocal : ∀ name symbol, (name, symbol) ∈ symbols.entries →
      (⟨symbols.name, symbols.entries.map (expandEntry trees)⟩ : SymbolTree).local? name =
        some (expandEntry trees (name, symbol)).2 := by
    intro name symbol hmem
    refine (lookup_eq_some_iff (nodup_map_expandEntry h.nodup trees)).2
      (List.mem_map.2 ⟨_, hmem, ?_⟩)
    exact Prod.ext (expandEntry_fst trees _) rfl
  -- the name is a global one, or a path to a label of a sequence or macro
  rcases SymbolTree.mem_or_get?_of_find? hfind with
    hmem | ⟨⟨name, outer⟩, hmem, inner, path, hpath, htree, hget⟩
  · refine ⟨_, relocates_of_mem h hmem, ?_⟩
    rw [SymbolTree.find?, Path.ofName_of_dotless (h.dotless x (List.mem_map_of_mem hmem))]
    exact hlocal x found hmem
  · have hsymbol := h.symbol _ hmem
    cases outer with
    | constant value => cases htree
    | label l => cases htree
    | scope locals => exact hsymbol.elim
    | sequence code locals =>
      cases htree
      obtain ⟨label, offset, rfl, hlabel, rfl⟩ := hsymbol.labels.of_get? hget
      obtain ⟨moved, hmoved, hfound⟩ := relocates_of_label h hmem hpath hlabel
      refine ⟨moved, hmoved, ?_⟩
      rw [SymbolTree.find?, hpath, SymbolTree.get?_cons (by simp), hlocal name _ hmem]
      exact hfound

end Global

/-! ## Names in a host -/

section Host

variable {macros locals : SymbolTree} {steps : List Step} {inl : Inlining} {count : Nat}
  {x : String}

/-- Among the own names of a host, a name without dots finds a label, and no other name finds
anything. -/
theorem SymbolTree.OnlyLabels.of_find? {found : Symbol} (h : locals.OnlyLabels count)
    (hfind : locals.find? x = some found) :
    ∃ offset, (x, .label { offset }) ∈ locals.entries ∧ found = .label { offset } := by
  obtain ⟨label, offset, hpath, hlabel, rfl⟩ := h.of_get? hfind
  obtain ⟨-, rfl⟩ := Path.eq_of_ofName_eq_singleton hpath
  exact ⟨offset, hlabel, rfl⟩

/-- An own label of a host is found again after expansion. -/
theorem Inlining.find?_tree_of_label (h : locals.OnlyLabels count) {offset : Nat}
    (hlabel : (x, .label { offset }) ∈ locals.entries) (name : String) :
    (inl.tree name 0 locals.entries).find? x = some (.label (inl.place 0 { offset })) := by
  rw [SymbolTree.find?, Path.ofName_of_dotless (h.dotless x (List.mem_map_of_mem hlabel)),
    SymbolTree.get?]
  exact local?_tree h.nodup hlabel inl name 0

/-- Any other name that is found among the names of a host leads into an instance. -/
theorem Inlines.names_of_find? (hmacros : macros.WellFormed) (hlabels : locals.OnlyLabels count)
    (h : Inlines macros none locals.names steps inl) (hother : x ∉ locals.names) {name : String}
    {found : Symbol} (hfind : (inl.tree name 0 locals.entries).find? x = some found) :
    ∃ block ∈ inl.blocks 0, block.Names (.ofName x) found := by
  rcases h.names_of_get?_tree hmacros hlabels hfind with
    ⟨label, offset, hpath, hlabel, -⟩ | hblock
  · obtain ⟨-, rfl⟩ := Path.eq_of_ofName_eq_singleton hpath
    exact absurd (List.mem_map_of_mem hlabel) hother
  · exact hblock

/-- Labels are found under their own names: a name that is not found is none of them. -/
theorem SymbolTree.OnlyLabels.not_mem_of_find? (h : locals.OnlyLabels count)
    (hfind : locals.find? x = none) : x ∉ locals.names := by
  intro hname
  obtain ⟨⟨_, symbol⟩, hentry, rfl⟩ := List.mem_map.1 hname
  rw [find?_eq_of_mem h.nodup h.dotless hentry] at hfind
  cases hfind

/-- A name that is not one of the host's own finds its global definition again after expansion,
unless it leads into an instance. -/
theorem Inlines.findsAfter_global {trees : String → Inlining} {host : String}
    (hmacros : macros.WellFormed) (hlabels : locals.OnlyLabels count)
    (h : Inlines macros none locals.names steps (trees host)) (hother : x ∉ locals.names)
    {found moved : Symbol} (hmoved : Relocates macros trees x found moved) {globals : SymbolTree}
    (hglobal : globals.find? x = some moved) (name : String) :
    ∃ after, lookupIn ((trees host).tree name 0 locals.entries) globals x = some after ∧
      FindsAfter macros trees host locals x found after := by
  -- a name that is no label of the host is a global one unless an instance has taken it
  cases hinstance : ((trees host).tree name 0 locals.entries).find? x with
  | none =>
    refine ⟨moved, ?_, .global hother hmoved ?_⟩
    · rw [lookupIn, hinstance, Option.none_or]
      exact hglobal
    · rintro ⟨block, hblock, symbol, hnames⟩
      obtain ⟨_, hsome⟩ := h.exists_get?_tree hmacros hblock hnames name
      rw [SymbolTree.find?, hsome] at hinstance
      cases hinstance
  | some shadow =>
    obtain ⟨block, hblock, hnames⟩ := h.names_of_find? hmacros hlabels hother hinstance
    refine ⟨shadow, ?_, .captured hother hmoved hblock hnames⟩
    rw [lookupIn, hinstance, Option.some_or]

end Host

/-- What a name finds in the sequence called `host`: among its own names, and then globally. -/
def Program.findIn (program : Program) (host x : String) : Option Symbol :=
  ((program.symbols.local? host).bind Symbol.tree?).bind fun names =>
    lookupIn names program.symbols x

/-- What a sequence sees under a name: its own labels first, then the program. -/
theorem Program.findIn_eq {program : Program} (hnodup : program.symbols.names.Nodup) {host : String}
    {code : Code} {names : SymbolTree}
    (hmem : (host, .sequence code names) ∈ program.symbols.entries) (x : String) :
    program.findIn host x = lookupIn names program.symbols x := by
  rw [findIn, SymbolTree.local?, (lookup_eq_some_iff hnodup).2 hmem]
  rfl

/-- Every name that is found in a host before expansion is found after it. An own label is never
lost, and a global definition is lost exactly if the name leads into an instance in the host. -/
theorem Program.expand_finds {text : String} {program expanded : Program} {n : Nat}
    (hread : program.ReadFrom text) (hexpand : Program.expand.Yields program n expanded) :
    ∃ trees : String → Inlining, TreesOf program.symbols trees program.symbols.entries ∧
      ∀ host code locals, (host, .sequence code locals) ∈ program.symbols.entries →
        code.isMacro = false → ∀ x found, program.findIn host x = some found → ∃ after,
          expanded.findIn host x = some after ∧
          FindsAfter program.symbols trees host locals x found after := by
  have hsymbols := hread.wellFormed.symbols
  obtain ⟨trees, htrees, -, hexpanded⟩ := Program.eq_of_expand hsymbols hexpand
  refine ⟨trees, htrees, fun host code locals hmem hkind x found hfound => ?_⟩
  have hlabels : locals.OnlyLabels code.steps.length := (hsymbols.symbol _ hmem).labels
  have hinlines := htrees host code locals hmem hkind
  have hglobals : expanded.symbols =
      ⟨program.symbols.name, program.symbols.entries.map (expandEntry trees)⟩ := by
    rw [hexpanded]
  have hnodup : expanded.symbols.names.Nodup := by
    rw [hglobals]
    exact nodup_map_expandEntry hsymbols.nodup trees
  have hmem' : (host, .sequence { code with steps := (trees host).words.map .assertion }
      ((trees host).tree locals.name 0 locals.entries)) ∈ expanded.symbols.entries := by
    rw [hglobals]
    exact List.mem_map.2 ⟨_, hmem, expandEntry_sequence trees host hkind locals⟩
  rw [findIn_eq hnodup hmem']
  rw [findIn_eq hsymbols.nodup hmem] at hfound
  -- a label of the host is found in it before and after; other names are looked up globally
  cases hown : locals.find? x with
  | some label =>
    obtain ⟨offset, hlabel, rfl⟩ := hlabels.of_find? hown
    rw [lookupIn, hown, Option.some_or] at hfound
    cases hfound
    refine ⟨_, ?_, .own hlabel⟩
    rw [lookupIn, Inlining.find?_tree_of_label hlabels hlabel, Option.some_or]
  | none =>
    rw [lookupIn, hown, Option.none_or] at hfound
    obtain ⟨moved, hmoved, hglobal⟩ := exists_relocates hsymbols trees hfound
    rw [← hglobals] at hglobal
    exact hinlines.findsAfter_global hsymbols hlabels (hlabels.not_mem_of_find? hown) hmoved
      hglobal locals.name

/-- A text with a sequence that has the name of an instance in another one. -/
def capturedText : String :=
  "config { controlwordwidth 5 microprogramlength 5 opwidth 1 bankmask 0 } control c 0 2:0 " ++
  "macro m { ::x:: assert { c: 1 } } sequence s { m() assert { c: _m_0.x } } " ++
  "sequence _m_0 { assert { c: 2 } ::x:: assert { c: 3 } } empty { c: 0 } entrypoints { fetch: s }"

/-- The second word of the text's image asserts the place of the instance, which is 0. -/
theorem compile_capturedText :
    (compile (.ok capturedText) false).result =
      .ok ⟨"00010\n00000\n00100\n00110\n00000\n", "000\n000\n"⟩ ∧
    ((Program.ofText capturedText).symbols.local? "s").map Symbol.isPlaced = some true ∧
    ((Program.ofText capturedText).findIn "s" "_m_0.x").map Symbol.resolve = some (some 1) ∧
    ((Program.expand.run (.ofText capturedText)).state.symbols.find? "_m_0.x").map
      Symbol.resolve = some (some 1) ∧
    ((Program.expand.run (.ofText capturedText)).state.findIn "s" "_m_0.x").map
      Symbol.resolve = some (some 0) := by
  decide +kernel

/-- The names in a sequence of the text are found after expansion as they say. -/
theorem Program.expand_finds_capturedText : ∃ program n expanded,
    program.ReadFrom capturedText ∧ Program.expand.Yields program n expanded ∧
      ∃ (trees : String → Inlining) (code : Code) (locals : SymbolTree) (found after : Symbol),
        ("s", .sequence code locals) ∈ program.symbols.entries ∧
        program.findIn "s" "_m_0.x" = some found ∧ expanded.findIn "s" "_m_0.x" = some after ∧
        FindsAfter program.symbols trees "s" locals "_m_0.x" found after := by
  obtain ⟨hcompile, hplaced, hbefore, -⟩ := compile_capturedText
  obtain ⟨c, -⟩ := compile_eq_ok_iff.1 hcompile
  have hprogram := c.readFrom.eq_ofText
  rw [← hprogram] at hplaced hbefore
  obtain ⟨symbol, hsymbol, hkind⟩ := Option.map_eq_some_iff.1 hplaced
  obtain ⟨code, locals, rfl, hmacro⟩ := isPlaced_eq_true_iff.1 hkind
  obtain ⟨found, hfound, -⟩ := Option.map_eq_some_iff.1 hbefore
  have hmem := mem_of_lookup_eq_some hsymbol
  obtain ⟨trees, -, hfinds⟩ := Program.expand_finds c.readFrom c.expands
  obtain ⟨after, hafter, hsame⟩ := hfinds "s" code locals hmem hmacro "_m_0.x" found hfound
  exact ⟨c.program, c.count, c.expanded, c.readFrom, c.expands, trees, code, locals, found, after,
    hmem, hfound, hafter, hsame⟩

/-- A label of the text that is one word behind the start of its sequence, also after expansion, is
found in another sequence before expansion. After it, a label of the instance is found there. -/
theorem capturedText_refuted : ∃ program n expanded,
    program.ReadFrom capturedText ∧ Program.expand.Yields program n expanded ∧
      (program.symbols.local? "s").map Symbol.isPlaced = some true ∧
      (program.findIn "s" "_m_0.x").map Symbol.resolve = some (some 1) ∧
      (expanded.symbols.find? "_m_0.x").map Symbol.resolve = some (some 1) ∧
      (expanded.findIn "s" "_m_0.x").map Symbol.resolve = some (some 0) := by
  obtain ⟨hcompile, hplaced, hbefore, hglobal, hafter⟩ := compile_capturedText
  obtain ⟨c, -⟩ := compile_eq_ok_iff.1 hcompile
  have hprogram := c.readFrom.eq_ofText
  have hexpanded : (Program.expand.run (.ofText capturedText)).state = c.expanded := by
    rw [← hprogram]
    exact c.expands.2
  rw [hexpanded] at hglobal hafter
  rw [← hprogram] at hplaced hbefore
  exact ⟨c.program, c.count, c.expanded, c.readFrom, c.expands, hplaced, hbefore, hglobal, hafter⟩

end ControlStore
