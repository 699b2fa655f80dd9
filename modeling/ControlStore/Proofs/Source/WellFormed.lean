import ControlStore.Expansion.Budget
import ControlStore.Proofs.Source.Moves
import ControlStore.Proofs.Source.Range

/-!
# Programs as they are read

What every later stage can rely on in a program that was read from a text. Global names are bound
once and have no dots. A global symbol is a constant, or a sequence whose own names are labels on
places among its steps and whose references were not copied out of an expansion. The number of
words in the store is a signed 64-bit integer.

Reading keeps this with every token: `Reader.Move.wellFormed` goes from one place in the text to the
next, and `Program.ReadFrom.wellFormed` says it of the whole text.
-/

namespace ControlStore

/-- A reference as it is written: it was not copied out of an expansion. -/
def Reference.IsWritten (reference : Reference) : Prop :=
  reference.parent = "" ∧ reference.callers = []

/-- The tree holds nothing but labels on places among `count` steps, under different names without
dots. -/
structure SymbolTree.OnlyLabels (count : Nat) (tree : SymbolTree) : Prop where
  nodup : tree.names.Nodup
  dotless : ∀ name ∈ tree.names, Dotless name
  label : ∀ entry ∈ tree.entries, ∃ offset ≤ count, entry.2 = .label { offset }

/-- The steps and the own names of a sequence are as they are written. -/
structure Code.IsWritten (code : Code) (locals : SymbolTree) : Prop where
  labels : locals.OnlyLabels code.steps.length
  references : ∀ r ∈ references code.steps, r.IsWritten

/-- A symbol that a definition binds. -/
def Symbol.WellFormed : Symbol → Prop
  | .constant _ => True
  | .sequence code locals => code.IsWritten locals
  | .label _ => False
  | .scope _ => False

/-- Global names as definitions bind them. -/
structure SymbolTree.WellFormed (symbols : SymbolTree) : Prop where
  root : symbols.name = ""
  nodup : symbols.names.Nodup
  dotless : ∀ name ∈ symbols.names, Dotless name
  symbol : ∀ entry ∈ symbols.entries, entry.2.WellFormed

/-- A program as it is read from a text. -/
structure Program.WellFormed (program : Program) : Prop where
  symbols : program.symbols.WellFormed
  length_lt : program.length < 0x8000000000000000

/-! ## Binding names -/

namespace SymbolTree

/-- Labels of some steps are labels of more. -/
theorem OnlyLabels.mono {tree : SymbolTree} {count count' : Nat} (h : tree.OnlyLabels count)
    (hle : count ≤ count') : tree.OnlyLabels count' := by
  refine ⟨h.nodup, h.dotless, fun entry hentry => ?_⟩
  obtain ⟨offset, hoffset, heq⟩ := h.label entry hentry
  exact ⟨offset, Nat.le_trans hoffset hle, heq⟩

/-- A label at the end of the steps joins the labels. -/
theorem OnlyLabels.bind {tree : SymbolTree} {count : Nat} (h : tree.OnlyLabels count)
    {name : String} (hname : Dotless name) :
    (tree.bind name (.label { offset := count })).OnlyLabels count := by
  refine ⟨nodup_names_bind h.nodup _ _, ?_, ?_⟩
  · intro other hother
    rcases mem_names_bind hother with rfl | hother
    · exact hname
    · exact h.dotless other hother
  · intro entry hentry
    rcases mem_bindEntry hentry with rfl | hentry
    · exact ⟨count, Nat.le_refl _, rfl⟩
    · exact h.label entry hentry

/-- Labels keep their names and places when their tree is stored. -/
theorem entries_attach_of_onlyLabels {tree : SymbolTree} {count : Nat} (h : tree.OnlyLabels count)
    (parent key : String) : (tree.attach parent key).entries = tree.entries := by
  obtain ⟨name, entries⟩ := tree
  rw [attach, attachEntries_eq_map]
  refine (List.map_congr_left fun entry hentry => ?_).trans (List.map_id' entries)
  obtain ⟨key, symbol⟩ := entry
  obtain ⟨offset, -, heq⟩ := h.label _ hentry
  dsimp only at heq
  rw [heq, Symbol.attach]

/-- Labels stay labels when the tree is attached to its parent. -/
theorem OnlyLabels.attach {tree : SymbolTree} {count : Nat} (h : tree.OnlyLabels count)
    (parent key : String) : (tree.attach parent key).OnlyLabels count := by
  have hentries := entries_attach_of_onlyLabels h parent key
  have hnames := names_attach parent key tree
  exact ⟨hnames ▸ h.nodup, hnames ▸ h.dotless, hentries ▸ h.label⟩

/-- A well-formed symbol under a name without dots joins the program. -/
theorem WellFormed.bind {symbols : SymbolTree} (h : symbols.WellFormed) {name : String}
    {symbol : Symbol} (hname : Dotless name) (hsymbol : symbol.WellFormed) :
    (symbols.bind name symbol).WellFormed := by
  refine ⟨h.root, nodup_names_bind h.nodup _ _, ?_, ?_⟩
  · intro other hother
    rcases mem_names_bind hother with rfl | hother
    · exact hname
    · exact h.dotless other hother
  · intro entry hentry
    rcases mem_bindEntry hentry with rfl | hentry
    · cases symbol with
      | constant value => trivial
      | label l => exact hsymbol.elim
      | scope locals => exact hsymbol.elim
      | sequence code locals => exact ⟨hsymbol.labels.attach _ _, hsymbol.references⟩
    · exact h.symbol entry hentry

end SymbolTree

/-! ## Drafts and places -/

/-- The part of a sequence that has been read. -/
def Draft.WellFormed (draft : Draft) : Prop := draft.code.IsWritten draft.locals

theorem references_append (steps others : List Step) :
    references (steps ++ others) = references steps ++ references others :=
  List.filterMap_append

/-- A step joins the draft, with a reference as it is written or none. -/
theorem Draft.WellFormed.addStep {draft : Draft} (h : draft.WellFormed) {step : Step}
    (hstep : ∀ r, step.reference? = some r → r.IsWritten) : (draft.addStep step).WellFormed := by
  refine ⟨?_, ?_⟩
  · apply h.labels.mono
    simp [Draft.addStep]
  · intro r hr
    have hsteps : (draft.addStep step).code.steps = draft.code.steps ++ [step] := rfl
    rw [hsteps, references_append, List.mem_append] at hr
    rcases hr with hr | hr
    · exact h.references r hr
    · obtain ⟨s, hs, hsr⟩ := List.mem_filterMap.1 hr
      rw [List.mem_singleton.1 hs] at hsr
      exact hstep r hsr

/-- A label joins the draft under a name without dots. -/
theorem Draft.WellFormed.addLabel {draft : Draft} (h : draft.WellFormed) {name : String}
    (hname : Dotless name) : (draft.addLabel name).WellFormed :=
  ⟨h.labels.bind hname, h.references⟩

theorem Draft.wellFormed_new (name : String) (isMacro : Bool) :
    ({ name, code := { isMacro } } : Draft).WellFormed :=
  ⟨⟨List.nodup_nil, by simp [SymbolTree.names, SymbolTree.empty], by simp [SymbolTree.empty]⟩,
    by simp [ControlStore.references]⟩

/-- The unfinished definition at a place is as it is written. -/
def Context.WellFormed : Context → Prop
  | .sequenceHead draft | .sequenceOpen draft | .statement draft => draft.WellFormed
  | .statementWord draft _ _ => draft.WellFormed
  | .signals (.step draft) _ => draft.WellFormed
  | _ => True

/-! ## Reading -/

/-- A token that only leads on leaves a well-formed definition unfinished. -/
theorem Context.Passes.wellFormed {token : Token} {context next : Context}
    (hmove : Passes token context next) (h : context.WellFormed) : next.WellFormed := by
  cases hmove with
  | keyword _ hnext =>
    unfold Context.ofKeyword? at hnext
    split at hnext <;> cases hnext <;> trivial
  | sequenceName _ => exact Draft.wellFormed_new _ _
  | parameters _ _ => exact ⟨h.labels, h.references⟩
  | label _ _ hname _ => exact Draft.WellFormed.addLabel h hname
  | reference _ =>
    refine Draft.WellFormed.addStep h fun r hr => ?_
    cases hr
    exact ⟨rfl, rfl⟩
  | step _ => exact Draft.WellFormed.addStep h (by simp [Step.reference?])
  | sequenceHead _ => exact h
  | sequenceOpen _ => exact h
  | statement _ _ => exact h
  | assertion _ _ => exact h
  | comma _ => exact h
  | _ => trivial

/-- What a token completes joins a well-formed program. -/
theorem Reader.Completes.wellFormed {token : Token} {program final : Program}
    {context next : Context} (hmove : Completes token program context next final)
    (hcontext : context.WellFormed) (h : program.WellFormed) :
    next.WellFormed ∧ final.WellFormed := by
  cases hmove with
  | constant _ hname => exact ⟨trivial, h.symbols.bind hname trivial, h.length_lt⟩
  | sequence _ hname => exact ⟨trivial, h.symbols.bind hname hcontext, h.length_lt⟩
  | @signal purpose _ _ _ _ _ _ _ _ =>
    refine ⟨?_, h⟩
    cases purpose with
    | step draft => exact hcontext
    | filling => trivial
  | _ => exact ⟨trivial, h.symbols, h.length_lt⟩

/-- A token leads from a place in a well-formed program to another one. -/
theorem Reader.Move.wellFormed {token : Token} {reader final : Reader} {context next : Context}
    (htoken : token.kind.InRange) (hmove : Move token reader context next final)
    (h : context.WellFormed ∧ reader.program.WellFormed) :
    next.WellFormed ∧ final.program.WellFormed := by
  obtain ⟨hcontext, hprogram⟩ := h
  cases hmove with
  | pass hpasses => exact ⟨hpasses.wellFormed hcontext, hprogram⟩
  | complete hcompletes => exact hcompletes.wellFormed hcontext hprogram
  | @configure setting value hkind =>
    refine ⟨trivial, ?_⟩
    rw [hkind] at htoken
    have hvalue : value < 0x8000000000000000 := lt_of_inRange htoken
    cases setting with
    | length => exact ⟨hprogram.symbols, hvalue⟩
    | _ => exact ⟨hprogram.symbols, hprogram.length_lt⟩

theorem Program.wellFormed_empty : ({} : Program).WellFormed :=
  ⟨⟨rfl, List.nodup_nil, by simp [SymbolTree.names, SymbolTree.empty],
    by simp [SymbolTree.empty]⟩, by decide⟩

/-- A program that is read from a text is well formed. -/
theorem Program.ReadFrom.wellFormed {text : String} {program : Program}
    (h : program.ReadFrom text) : program.WellFormed := by
  obtain ⟨reader, hinv, rfl, -⟩ := h.invariant
    (fun context reader => context.WellFormed ∧ reader.program.WellFormed)
    ⟨trivial, Program.wellFormed_empty⟩
    fun _ _ _ _ _ htoken hinv hmove => hmove.wellFormed htoken.inRange hinv
  exact hinv.2

end ControlStore
