import ControlStore.Proofs.Source.Controls

/-!
# Names in a program that is read

Every name of a program is a word of its text, or the part of one between the colons of a label. So
no name is empty, and none has a blank or another delimiter in it (`IsName`). A control line is
stored under its own name, and the tree of a global sequence is called like the sequence.

Reading keeps this with every token (`Reader.Move.named`), and `Program.ReadFrom.named` says it of
the whole text.
-/

namespace ControlStore

/-- A name that a text can spell. -/
def IsName (name : String) : Prop := IsAtom name.toList

/-- The labels of a sequence and the macros that it uses have names that a text can spell. Only
macros have parameters. -/
structure Code.Named (code : Code) (locals : SymbolTree) : Prop where
  labels : ∀ name ∈ locals.names, IsName name
  references : ∀ r ∈ references code.steps, IsName r.symbol
  parameters : code.isMacro = false → code.parameters = []

/-- All names of a program are names that a text can spell, and what is stored under a name is
called by it. -/
structure Program.Named (program : Program) : Prop where
  name : ∀ name ∈ program.symbols.names, IsName name
  code : ∀ name code locals, (name, .sequence code locals) ∈ program.symbols.entries →
    code.Named locals
  tree : ∀ name code locals, (name, .sequence code locals) ∈ program.symbols.entries →
    locals.name = qualify program.symbols.name name
  control : ∀ (name : String) (control : Control), program.controls[name]? = some control →
    control.name = name
  entrypoint : ∀ (opcode : Nat) (symbol : String), program.entrypoints[opcode]? = some symbol →
    IsName symbol

/-! ## Spelling -/

/-- A name has a character at least. -/
theorem IsName.ne_empty {name : String} (h : IsName name) : name ≠ "" := by
  rintro rfl
  exact h.ne_nil rfl

/-- The name of a label is a part of its word. -/
theorem isName_of_labelName? {word label : String} (hword : IsName word)
    (h : labelName? word = some label) : IsName label := by
  unfold labelName? at h
  split at h
  · next rest hchars =>
    split at h
    · next c name hrest =>
      cases h
      rw [IsName, String.toList_ofList]
      refine hword.of_subset ?_ (by simp)
      -- the label is what stands between the marks, so its characters are those of the word
      have hsub : c :: name ⊆ rest.reverse := by
        rw [hrest]
        exact fun d hd => List.mem_cons_of_mem _ (List.mem_cons_of_mem _ hd)
      intro d hd
      have hmem : d ∈ rest := List.mem_reverse.1 (hsub (List.mem_reverse.1 hd))
      rw [hchars]
      exact List.mem_cons_of_mem _ (List.mem_cons_of_mem _ hmem)
    · cases h
  · cases h

/-! ## Drafts and places -/

/-- The part of a sequence that has been read. -/
structure Draft.Named (draft : Draft) : Prop where
  name : IsName draft.name
  code : draft.code.Named draft.locals

theorem Draft.named_new {name : String} (h : IsName name) (isMacro : Bool) :
    ({ name, code := { isMacro } } : Draft).Named :=
  ⟨h, by simp [SymbolTree.names, SymbolTree.empty], by simp [references], fun _ => rfl⟩

namespace Draft.Named

variable {draft : Draft}

/-- A step joins the draft, with a reference by name or none. -/
theorem addStep (h : draft.Named) {step : Step}
    (hstep : ∀ r, step.reference? = some r → IsName r.symbol) : (draft.addStep step).Named := by
  refine ⟨h.name, h.code.labels, fun r hr => ?_, h.code.parameters⟩
  have hsteps : (draft.addStep step).code.steps = draft.code.steps ++ [step] := rfl
  rw [hsteps, references_append, List.mem_append] at hr
  rcases hr with hr | hr
  · exact h.code.references r hr
  · obtain ⟨other, hother, hr⟩ := List.mem_filterMap.1 hr
    rw [List.mem_singleton.1 hother] at hr
    exact hstep r hr

/-- A label joins the draft under its name. -/
theorem addLabel (h : draft.Named) {name : String} (hname : IsName name) :
    (draft.addLabel name).Named := by
  refine ⟨h.name, fun other hother => ?_, h.code.references, h.code.parameters⟩
  rcases SymbolTree.mem_names_bind hother with rfl | hother
  · exact hname
  · exact h.code.labels other hother

/-- Parameters are given to macros only, which may have them. -/
theorem setParameters (h : draft.Named) (hisMacro : draft.code.isMacro = true)
    (parameters : List String) : (draft.setParameters parameters).Named := by
  refine ⟨h.name, h.code.labels, h.code.references, fun hnot => ?_⟩
  rw [Draft.setParameters, hisMacro] at hnot
  cases hnot

end Draft.Named

/-- The names of the unfinished definition at a place are names that a text can spell. -/
def Context.Named : Context → Prop
  | .sequenceHead draft | .sequenceOpen draft | .statement draft => draft.Named
  | .statementWord draft _ word => draft.Named ∧ IsName word
  | .signals (.step draft) _ => draft.Named
  | .constantValue name => IsName name
  | _ => True

/-! ## Reading -/

/-- Passing a token keeps the names that are being read names. -/
theorem Context.Passes.named {token : Token} {context next : Context}
    (htoken : token.kind.Spelled) (hmove : Passes token context next) (h : context.Named) :
    next.Named := by
  -- a word that is taken is a name
  have hword : ∀ {word}, token.kind = .word word → IsName word := fun hkind =>
    TokenKind.Spelled.isAtom_word (hkind ▸ htoken)
  cases hmove with
  | keyword _ hnext =>
    unfold Context.ofKeyword? at hnext
    split at hnext <;> cases hnext <;> trivial
  | constantName hkind => exact hword hkind
  | sequenceName hkind => exact Draft.named_new (hword hkind) _
  | parameters _ hisMacro => exact Draft.Named.setParameters h hisMacro _
  | label hkind hlabel _ _ => exact Draft.Named.addLabel h (isName_of_labelName? (hword hkind) hlabel)
  | statement hkind _ => exact ⟨h, hword hkind⟩
  | reference _ =>
    refine h.1.addStep fun r hr => ?_
    cases hr
    exact h.2
  | step _ => exact Draft.Named.addStep h (by simp [Step.reference?])
  | sequenceHead _ => exact h
  | sequenceOpen _ => exact h
  | assertion _ _ => exact h.1
  | comma _ => exact h
  | _ => trivial

/-- A symbol joins the program under a name that a text can spell. -/
theorem Program.Named.bind {program : Program} (h : program.Named) {name : String}
    {symbol : Symbol} (hname : IsName name)
    (hsymbol : ∀ code locals, symbol = .sequence code locals → code.Named locals) :
    ({ program with symbols := program.symbols.bind name symbol } : Program).Named := by
  refine ⟨fun other hother => ?_, fun other code locals hmem => ?_, fun other code locals hmem => ?_,
    h.control, h.entrypoint⟩
  · rcases SymbolTree.mem_names_bind hother with rfl | hother
    · exact hname
    · exact h.name other hother
  · rcases mem_entries_bind hmem with ⟨written, hwritten, rfl, rfl⟩ | hold
    · have hcode := hsymbol code written hwritten
      refine ⟨?_, hcode.references, hcode.parameters⟩
      rw [SymbolTree.names_attach]
      exact hcode.labels
    · exact h.code other code locals hold
  · rcases mem_entries_bind hmem with ⟨⟨_, _⟩, -, rfl, rfl⟩ | hold
    · rfl
    · exact h.tree other code locals hold

/-- Completing something keeps the names of the program names. -/
theorem Reader.Completes.named {token : Token} {program final : Program} {context next : Context}
    (htoken : token.kind.Spelled) (hmove : Completes token program context next final)
    (hcontext : context.Named) (h : program.Named) : next.Named ∧ final.Named := by
  cases hmove with
  | constant _ _ => exact ⟨trivial, h.bind hcontext (by simp)⟩
  | sequence _ _ =>
    refine ⟨trivial, h.bind hcontext.name ?_⟩
    rintro code locals heq
    cases heq
    exact hcontext.code
  | @control name bank mask _ _ =>
    refine ⟨trivial, h.name, h.code, h.tree, fun other control hcontrol => ?_, h.entrypoint⟩
    rw [Std.TreeMap.getElem?_insert] at hcontrol
    split at hcontrol
    · next hsame =>
      cases hcontrol
      exact Std.LawfulEqCmp.eq_of_compare hsame
    · exact h.control other control hcontrol
  | @signal purpose _ _ _ _ _ _ _ _ =>
    refine ⟨?_, h⟩
    cases purpose with
    | step draft => exact hcontext
    | filling => trivial
  | opcode hkind =>
    rw [hkind] at htoken
    refine ⟨trivial, h.name, h.code, h.tree, h.control, fun other symbol hsymbol => ?_⟩
    rw [Std.TreeMap.getElem?_insert] at hsymbol
    split at hsymbol
    · cases hsymbol
      exact htoken.isAtom_value
    · exact h.entrypoint other symbol hsymbol
  | _ => exact ⟨trivial, h.name, h.code, h.tree, h.control, h.entrypoint⟩

/-- With every token, the names that have been read stay names that a text can spell. -/
theorem Reader.Move.named {token : Token} {reader final : Reader} {context next : Context}
    (htoken : token.kind.Spelled) (hmove : Move token reader context next final)
    (h : context.Named ∧ reader.program.Named) : next.Named ∧ final.program.Named := by
  obtain ⟨hcontext, hprogram⟩ := h
  cases hmove with
  | pass hpasses => exact ⟨hpasses.named htoken hcontext, hprogram⟩
  | complete hcompletes => exact hcompletes.named htoken hcontext hprogram
  | @configure setting value hkind =>
    refine ⟨trivial, ?_⟩
    cases setting with
    | _ => exact ⟨hprogram.name, hprogram.code, hprogram.tree, hprogram.control,
        hprogram.entrypoint⟩

theorem Program.named_empty : ({} : Program).Named :=
  ⟨by simp [SymbolTree.names, SymbolTree.empty], by simp [SymbolTree.empty],
    by simp [SymbolTree.empty], by simp, by simp⟩

/-- All names of a program that is read are names that a text can spell. -/
theorem Program.ReadFrom.named {text : String} {program : Program} (h : program.ReadFrom text) :
    program.Named := by
  obtain ⟨reader, hinv, rfl, -⟩ := h.invariant
    (fun context reader => context.Named ∧ reader.program.Named)
    ⟨trivial, Program.named_empty⟩ fun _ _ _ _ _ htoken hinv hmove => hmove.named htoken hinv
  exact hinv.2

end ControlStore
