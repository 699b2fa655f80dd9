import ControlStore.Proofs.Program
import ControlStore.Proofs.Source.Moves

/-!
# Opcodes bound in a text

A block of entrypoints binds an opcode to a symbol by a token in which a number and a word have a
colon between them. There may be several such blocks, and an opcode may be bound again.

No other place in a text takes such a token (`Reader.Move.binding`), so the bindings of a text can
be told from its tokens alone, and for each opcode the last one counts
(`Program.ReadFrom.entrypoints`).
-/

namespace ControlStore

/-- The opcode and the symbol that a token binds. -/
def Token.binding? (token : Token) : Option (Nat × String) :=
  match token.kind with
  | .pair (.integer opcode) (.symbol symbol) => some (opcode.toNat, symbol)
  | _ => none

/-- The symbol of the last binding of an opcode among the tokens. -/
def lastBinding (tokens : List Token) (opcode : Nat) : Option String :=
  (tokens.filterMap Token.binding?).reverse.lookup opcode

/-- A binding counts only if no later one has the same opcode. -/
theorem lastBinding_cons (token : Token) (tokens : List Token) (opcode : Nat) :
    lastBinding (token :: tokens) opcode =
      (lastBinding tokens opcode).or (lastBinding [token] opcode) := by
  rw [lastBinding, lastBinding, lastBinding, ← List.singleton_append, List.filterMap_append,
    List.reverse_append, List.lookup_append]

theorem lastBinding_singleton_of_none {token : Token} (h : token.binding? = none) (opcode : Nat) :
    lastBinding [token] opcode = none := by
  rw [lastBinding, List.filterMap_cons_none h]
  rfl

theorem lastBinding_singleton {token : Token} {bound : Nat} {symbol : String}
    (h : token.binding? = some (bound, symbol)) (opcode : Nat) :
    lastBinding [token] opcode = if bound = opcode then some symbol else none := by
  rw [lastBinding, List.filterMap_cons_some h, List.filterMap_nil, List.reverse_singleton,
    List.lookup_cons, List.lookup_nil]
  by_cases hopcode : bound = opcode
  · rw [if_pos hopcode, beq_iff_eq.2 hopcode.symm]
  · rw [if_neg hopcode, beq_false_of_ne (Ne.symm hopcode)]

/-! ## Reading -/

/-- Only a pair of a number and a name is a binding. -/
theorem Token.binding?_of_kind {token : Token} {kind : TokenKind} (h : token.kind = kind)
    (hother : ∀ opcode symbol, kind ≠ .pair (.integer opcode) (.symbol symbol)) :
    token.binding? = none := by
  unfold Token.binding?
  split
  · next opcode symbol hkind => exact absurd (h.symm.trans hkind) (hother opcode symbol)
  · rfl

/-- No token that is passed is a binding. -/
theorem Context.Passes.binding? {token : Token} {context next : Context}
    (hmove : Passes token context next) : token.binding? = none := by
  cases hmove with
  | _ => exact Token.binding?_of_kind ‹_› (by simp)

/-- No token that spells a mask is a binding. -/
theorem Reader.binding?_of_maskOf? {token : Token} {mask : Mask}
    (h : maskOf? token.kind = some mask) : token.binding? = none := by
  cases hkind : token.kind with
  | pair key value =>
    rw [hkind] at h
    cases key with
    | symbol name => cases h
    | integer msb =>
      cases value with
      | symbol name => cases h
      | integer lsb => exact Token.binding?_of_kind hkind (by simp)
  | _ => exact Token.binding?_of_kind hkind (by simp)

/-- A token that binds an opcode is taken in a block of entrypoints only, and is the only kind that
changes what opcodes are bound to. -/
theorem Reader.Move.binding {token : Token} {reader final : Reader} {context next : Context}
    (hmove : Move token reader context next final) :
    (token.binding? = none ∧ final.program.entrypoints = reader.program.entrypoints) ∨
      ∃ opcode symbol, token.binding? = some (opcode, symbol) ∧ context = .entrypoints ∧
        final.program.entrypoints = reader.program.entrypoints.insert opcode symbol := by
  cases hmove with
  | pass hpasses => exact .inl ⟨hpasses.binding?, rfl⟩
  | @configure setting value hkind =>
    refine .inl ⟨Token.binding?_of_kind hkind (by simp), ?_⟩
    cases setting <;> rfl
  | complete hcompletes =>
    -- of all that a token can complete, only a binding of an opcode touches the table
    cases hcompletes with
    | control hmask _ => exact .inl ⟨binding?_of_maskOf? hmask, rfl⟩
    | @opcode opcode symbol hkind =>
      refine .inr ⟨opcode, symbol, ?_, rfl, rfl⟩
      rw [Token.binding?, hkind]
      rfl
    | _ => exact .inl ⟨Token.binding?_of_kind ‹_› (by simp), rfl⟩

/-- What opcodes are bound to after a list of tokens: to the symbol of the last binding in the
list, or to what they were bound to before it. -/
theorem Reader.entrypoints_of_steps {tokens : List Token} {reader final : Reader}
    {context next : Context} (h : (tokens.foldlM step context).Yields reader next final)
    (opcode : Nat) :
    final.program.entrypoints[opcode]? =
      (lastBinding tokens opcode).or reader.program.entrypoints[opcode]? := by
  induction tokens generalizing context reader with
  | nil =>
    obtain ⟨-, rfl⟩ := Stage.yields_pure.1 h
    rfl
  | cons token tokens ih =>
    rw [List.foldlM_cons] at h
    obtain ⟨middle, after, hstep, h⟩ := Stage.yields_bind.1 h
    rw [ih h, lastBinding_cons, Option.or_assoc]
    congr 1
    -- the first token matters for the opcode unless one behind it binds the same
    rcases (move_of_step hstep).binding with ⟨hnone, hsame⟩ | ⟨bound, symbol, hsome, -, hinsert⟩
    · rw [hsame, lastBinding_singleton_of_none hnone, Option.none_or]
    · rw [hinsert, lastBinding_singleton hsome, Std.TreeMap.getElem?_insert]
      by_cases hopcode : bound = opcode
      · simp [hopcode]
      · simp [hopcode]

namespace Program.ReadFrom

variable {text : String} {program : Program}

/-- In a program that is read, every opcode is bound to the symbol of its last binding in the
text. -/
theorem entrypoints (h : program.ReadFrom text) :
    ∃ tokens, tokenize text = .ok tokens ∧
      ∀ opcode, program.entrypoints[opcode]? = lastBinding tokens opcode := by
  obtain ⟨reader, hread, rfl⟩ := h
  obtain ⟨tokens, htokenize, hsteps, -⟩ := Reader.yields_readText_iff.1 hread
  refine ⟨tokens, htokenize, fun opcode => ?_⟩
  rw [Reader.entrypoints_of_steps hsteps]
  exact Option.or_none

/-- A program that was read has passed its validation. -/
theorem checked (h : program.ReadFrom text) : program.Checked :=
  checked_of_validate h.validate

end Program.ReadFrom

end ControlStore
