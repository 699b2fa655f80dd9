import ControlStore.Proofs.Source.WellFormed
import ControlStore.Proofs.Symbol.Growth

/-!
# Recursive inlining

What the expansion of a body means, said without the loop that does it. A body stands in a `Frame`:
it is the host's own, or that of a macro at one of its uses. `Inlines` reads its steps from left to
right: an assertion is a word, and a reference is the block of words that the macro's body comes to
in a frame of its own. The result is the expansion tree of the body, an `Inlining`.

The tree determines everything that expansion leaves in the host. `Inlining.words` are the steps,
and `Inlining.scopes` are the scopes of the blocks, with each label at the word that it marks.
`SymbolTree.WordsOf` counts the words of a body without its tree.
-/

namespace ControlStore

/-! ## Frames -/

/-- Where a body stands: in the host itself, or in an instance of a macro. -/
abbrev Frame := Option MacroInstance

namespace Frame

/-- The path of the scope that holds the names of the body. -/
def scope : Frame → String
  | none => ""
  | some inst => inst.scope

/-- What a value of the body stands for: a parameter for the argument at its position, a name of
the body for a path into the scope of the body, and anything else for itself. -/
def value : Frame → Value → Value
  | none, v => v
  | some _, .integer n => .integer n
  | some inst, .symbol name =>
    match inst.parameters.idxOf? name with
    | some i => inst.reference.arguments[i]?.getD (.symbol name)
    | none =>
      if name ∈ inst.locals.names then .symbol (inst.scope ++ "." ++ name) else .symbol name

def assertion (frame : Frame) (a : Assertion) : Assertion :=
  { a with
    signals := a.signals.map fun signal => { signal with value := frame.value signal.value } }

/-- A reference of the body, with the arguments that it has there and the chain of its callers. -/
def reference : Frame → Reference → Reference
  | none, r => r
  | some inst, r =>
    { r with
      arguments := r.arguments.map (value (some inst))
      parent := inst.scope
      callers := inst.reference.callers ++ [inst.reference.symbol] }

def step (frame : Frame) : Step → Step
  | .assertion a => .assertion (frame.assertion a)
  | .reference r => .reference (frame.reference r)

end Frame

/-- The name of a new scope for expanding a reference, beside the names that are taken. -/
def Reference.scopeKey (reference : Reference) (taken : List String) : String :=
  let stem := "_" ++ reference.symbol ++ "_"
  stem ++ toString (firstFree stem 0 taken)

/-! ## Expansion trees -/

/-- The expansion tree of a list of steps: word by word, and block by block. -/
inductive Inlining where
  | done
  | word (assertion : Assertion) (rest : Inlining)
  /-- The instance of a macro under the name of its scope, with the tree of the macro's body. -/
  | block (inst : MacroInstance) (key : String) (body rest : Inlining)

/-- A block of an expansion tree, and the number of words before it. -/
structure Block where
  start : Nat
  inst : MacroInstance
  body : Inlining

namespace Inlining

/-- The words of the tree in order. -/
def words : Inlining → List Assertion
  | done => []
  | word a rest => a :: rest.words
  | block _ _ body rest => body.words ++ rest.words

def size (inl : Inlining) : Nat := inl.words.length

/-- The number of steps that the tree inlines. -/
def stepCount : Inlining → Nat
  | done => 0
  | word _ rest => rest.stepCount + 1
  | block _ _ _ rest => rest.stepCount + 1

/-- The tree of the first `k` steps. -/
def take : Nat → Inlining → Inlining
  | 0, _ => done
  | _ + 1, done => done
  | k + 1, word a rest => word a (rest.take k)
  | k + 1, block inst key body rest => block inst key body (rest.take k)

/-- The tree of the steps behind the first `k`. -/
def drop : Nat → Inlining → Inlining
  | 0, inl => inl
  | _ + 1, done => done
  | k + 1, word _ rest => rest.drop k
  | k + 1, block _ _ _ rest => rest.drop k

/-- All blocks of the tree, outer ones first, where `start` words come before the tree. -/
def blocks (start : Nat) : Inlining → List Block
  | done => []
  | word _ rest => rest.blocks (start + 1)
  | block inst _ body rest =>
    ⟨start, inst, body⟩ :: (body.blocks start ++ rest.blocks (start + body.size))

/-- The number of references in the tree: one for each block, at any depth. -/
def references : Inlining → Nat
  | done => 0
  | word _ rest => rest.references
  | block _ _ body rest => body.references + rest.references + 1

/-- The label at the place it marks, in a body that starts behind `start` words. -/
def place (start : Nat) (inl : Inlining) (label : Label) : Label :=
  { label with offset := start + (inl.take label.offset).size }

/-- The scopes of the tree's blocks as entries of the tree called `name`, where `start` words come
before. -/
def scopes (name : String) (start : Nat) : Inlining → List (String × Symbol)
  | done => []
  | word _ rest => rest.scopes name (start + 1)
  | block inst key body rest =>
    (key, .scope ⟨qualify name key,
      mapLabelEntries (body.place start) inst.locals.entries ++
        body.scopes (qualify name key) start⟩) ::
      rest.scopes name (start + body.size)

/-- The names that a body leaves: its own labels at the places they mark, and the scopes of its
blocks. The tree is called `name`, and `start` words come before the body. -/
def tree (name : String) (start : Nat) (labels : List (String × Symbol)) (inl : Inlining) :
    SymbolTree :=
  ⟨name, mapLabelEntries (inl.place start) labels ++ inl.scopes name start⟩

end Inlining

/-- The macro with the given name. -/
structure SymbolTree.IsMacro (symbols : SymbolTree) (name : String) (code : Code)
    (locals : SymbolTree) : Prop where
  mem : (name, .sequence code locals) ∈ symbols.entries
  isMacro : code.isMacro = true

/-- Steps that stand in a frame, beside names that are taken in its scope, are inlined to a tree. -/
inductive Inlines (macros : SymbolTree) : Frame → List String → List Step → Inlining → Prop
  | done {frame : Frame} {taken : List String} : Inlines macros frame taken [] .done
  | word {frame : Frame} {taken : List String} {a : Assertion} {rest : List Step} {inl : Inlining}
      (hrest : Inlines macros frame taken rest inl) :
      Inlines macros frame taken (.assertion a :: rest) (.word (frame.assertion a) inl)
  | block {frame : Frame} {taken : List String} {r : Reference} {rest : List Step}
      {code : Code} {locals : SymbolTree} {inst : MacroInstance} {key : String}
      {body inl : Inlining}
      (hdef : macros.IsMacro r.symbol code locals)
      (harity : code.parameters.length ≤ r.arguments.length)
      (hkey : key = r.scopeKey taken)
      (hinst : inst = ⟨qualify frame.scope key, frame.reference r, code.parameters, locals⟩)
      (hbody : Inlines macros (some inst) locals.names code.steps body)
      (hrest : Inlines macros frame (taken ++ [key]) rest inl) :
      Inlines macros frame taken (.reference r :: rest) (.block inst key body inl)

/-! ## Counting words -/

/-- The number of words that steps come to: one for an assertion, and as many for a reference as
the body of its macro comes to. -/
inductive SymbolTree.WordsOf (symbols : SymbolTree) : List Step → Nat → Prop
  | nil : WordsOf symbols [] 0
  | assertion {a : Assertion} {rest : List Step} {n : Nat} (hrest : WordsOf symbols rest n) :
      WordsOf symbols (.assertion a :: rest) (1 + n)
  | reference {r : Reference} {code : Code} {locals : SymbolTree} {rest : List Step} {m n : Nat}
      (hdef : symbols.IsMacro r.symbol code locals) (hbody : WordsOf symbols code.steps m)
      (hrest : WordsOf symbols rest n) : WordsOf symbols (.reference r :: rest) (m + n)

/-! ## The size of a tree -/

namespace Inlining

@[simp]
theorem size_done : done.size = 0 := rfl

@[simp]
theorem size_word (a : Assertion) (rest : Inlining) : (word a rest).size = rest.size + 1 := rfl

@[simp]
theorem size_block (inst : MacroInstance) (key : String) (body rest : Inlining) :
    (block inst key body rest).size = body.size + rest.size := by
  simp [size, words]

@[simp]
theorem take_zero (inl : Inlining) : inl.take 0 = done := by
  cases inl <;> rfl

/-- The words of the first steps come first, and those of the other steps follow. -/
theorem words_take_append_drop (k : Nat) (inl : Inlining) :
    (inl.take k).words ++ (inl.drop k).words = inl.words := by
  induction inl generalizing k with
  | done => cases k <;> rfl
  | word a rest ih =>
    cases k with
    | zero => rfl
    | succ k => rw [take, drop, words, List.cons_append, ih, words]
  | block inst key body rest _ ih =>
    cases k with
    | zero => rfl
    | succ k => rw [take, drop, words, List.append_assoc, ih, words]

/-- The words before and behind any number of steps are all the words. -/
theorem size_take_add_size_drop (k : Nat) (inl : Inlining) :
    (inl.take k).size + (inl.drop k).size = inl.size := by
  rw [size, size, size, ← List.length_append, words_take_append_drop]

/-- The first steps have at most the words of all steps. -/
theorem size_take_le (k : Nat) (inl : Inlining) : (inl.take k).size ≤ inl.size := by
  have hsize := inl.size_take_add_size_drop k
  omega

/-- At most as many steps are taken as were asked for. -/
theorem stepCount_take_le (k : Nat) (inl : Inlining) : (inl.take k).stepCount ≤ k := by
  induction inl generalizing k with
  | done => cases k <;> simp [take, stepCount]
  | word a rest ih => cases k <;> simp [take, stepCount, ih]
  | block inst key body rest _ ih => cases k <;> simp [take, stepCount, ih]

/-- Exactly as many steps are taken as were asked for, if there are so many. -/
theorem stepCount_take_of_le {k : Nat} {inl : Inlining} (h : k ≤ inl.stepCount) :
    (inl.take k).stepCount = k := by
  induction inl generalizing k with
  | done =>
    have hk : k = 0 := by simpa [stepCount] using h
    simp [hk, stepCount]
  | word a rest ih =>
    cases k with
    | zero => simp [stepCount]
    | succ k => simp [take, stepCount, ih (Nat.le_of_succ_le_succ h)]
  | block inst key body rest _ ih =>
    cases k with
    | zero => simp [stepCount]
    | succ k => simp [take, stepCount, ih (Nat.le_of_succ_le_succ h)]

/-- Taking all steps takes the whole tree. -/
theorem take_of_stepCount_le {k : Nat} {inl : Inlining} (h : inl.stepCount ≤ k) :
    inl.take k = inl := by
  induction inl generalizing k with
  | done => cases k <;> rfl
  | word a rest ih =>
    cases k with
    | zero => simp [stepCount] at h
    | succ k => rw [take, ih (Nat.le_of_succ_le_succ h)]
  | block inst key body rest _ ih =>
    cases k with
    | zero => simp [stepCount] at h
    | succ k => rw [take, ih (Nat.le_of_succ_le_succ h)]

/-! ## Labels of the steps around a tree

While a host is expanded, a label of it may stand before, among or behind the steps that a tree
inlines. It moves by the words that come for the steps in front of it.
-/

/-- The label of a host after the steps from `start` on have become the words of the tree. -/
def relocate (start : Nat) (inl : Inlining) (label : Label) : Label :=
  let passed := inl.take (label.offset - start)
  { label with offset := label.offset + passed.size - passed.stepCount }

/-- A label in front of the steps stays. -/
theorem relocate_of_le {start : Nat} {label : Label} (h : label.offset ≤ start) (inl : Inlining) :
    inl.relocate start label = label := by
  simp [relocate, Nat.sub_eq_zero_of_le h, stepCount]

theorem relocate_done (start : Nat) (label : Label) : done.relocate start label = label := by
  cases h : label.offset - start <;> simp [relocate, h, take, stepCount]

/-- An assertion moves no label: it stays one step. -/
theorem relocate_word (start : Nat) (a : Assertion) (rest : Inlining) (label : Label) :
    (word a rest).relocate start label = rest.relocate (start + 1) label := by
  by_cases hle : label.offset ≤ start
  · rw [relocate_of_le hle, relocate_of_le (Nat.le_succ_of_le hle)]
  · obtain ⟨j, hj⟩ : ∃ j, label.offset = start + 1 + j := ⟨label.offset - (start + 1), by omega⟩
    have hpassed : label.offset - start = j + 1 := by omega
    have hrest : label.offset - (start + 1) = j := by omega
    have hcount := stepCount_take_le j rest
    simp only [relocate, hpassed, hrest, take, size_word, stepCount, Label.mk.injEq, and_true]
    omega

/-- A label behind a reference is moved by the splice of the macro's steps, then by what these
steps come to, and then by what the steps behind the reference come to. -/
theorem relocate_block {start count : Nat} (inst : MacroInstance) (key : String)
    (body rest : Inlining) {label : Label} (hcount : label.offset ≤ count) :
    (block inst key body rest).relocate start label =
      rest.relocate (start + body.size)
        (body.relocate start (label.makeRoom start count body.stepCount)) := by
  by_cases hle : label.offset ≤ start
  · -- a label in front of the instance is left where it is by all three
    have hroom : label.makeRoom start count body.stepCount = label := if_neg (by omega)
    rw [hroom, relocate_of_le hle, relocate_of_le hle, relocate_of_le (by omega)]
  · obtain ⟨j, hj⟩ : ∃ j, label.offset = start + 1 + j := ⟨label.offset - (start + 1), by omega⟩
    have hroom : label.makeRoom start count body.stepCount =
        { label with offset := start + j + body.stepCount } := by
      have hlt : start < label.offset := by omega
      simp only [Label.makeRoom, if_pos hlt, if_pos hcount, Label.mk.injEq, and_true]
      omega
    -- all of the body is in front of the label
    have hbody : body.relocate start { label with offset := start + j + body.stepCount } =
        { label with offset := start + body.size + j } := by
      rw [relocate, take_of_stepCount_le (by simp only; omega)]
      simp only [Label.mk.injEq, and_true]
      omega
    have hpassed : label.offset - start = j + 1 := by omega
    have hrest : start + body.size + j - (start + body.size) = j := by omega
    have hstep := stepCount_take_le j rest
    rw [hroom, hbody]
    simp only [relocate, hpassed, hrest, take, size_block, stepCount, Label.mk.injEq, and_true]
    omega

/-- A label of the body itself ends up at the place it marks. -/
theorem relocate_moveTo {start : Nat} {inl : Inlining} {label : Label}
    (h : label.offset ≤ inl.stepCount) :
    inl.relocate start (label.moveTo start inl.stepCount) = inl.place start label := by
  have hpassed : label.offset + start - start = label.offset := by omega
  have hcount := stepCount_take_of_le h
  simp only [relocate, Label.moveTo_of_le h, place, hpassed, hcount, Label.mk.injEq, and_true]
  omega

/-- A label of the steps is placed at most behind their last word. -/
theorem offset_place_le (start : Nat) (inl : Inlining) (label : Label) :
    (inl.place start label).offset ≤ start + inl.size :=
  Nat.add_le_add_left (size_take_le _ _) _

/-- Labels within the steps stay within them. -/
theorem offset_relocate_le {start more : Nat} {inl : Inlining} {label : Label}
    (h : label.offset ≤ start + inl.stepCount + more) :
    (inl.relocate start label).offset ≤ start + inl.size + more := by
  by_cases hle : label.offset ≤ start
  · rw [relocate_of_le hle]
    omega
  · -- a label among the steps moves by what stands before it, one behind them by all of it
    by_cases hin : label.offset - start ≤ inl.stepCount
    · have hcount := stepCount_take_of_le hin
      have hsize := size_take_le (label.offset - start) inl
      simp only [relocate, hcount]
      omega
    · simp only [relocate, take_of_stepCount_le (Nat.le_of_not_le hin)]
      omega

end Inlining

end ControlStore
