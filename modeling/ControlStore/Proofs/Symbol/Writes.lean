import Mathlib.Data.List.Induction
import ControlStore.Proofs.Symbol.Update

/-!
# Overwriting sequences

Linking changes symbols by writing to sequences: an address, which all labels inside take over, or
other steps. A `Write` is one such change, and `SymbolTree.writeAll` makes a list of them.

Sequences may lie inside each other, so that one write may change what another one has written. But
whatever is written later replaces what was written before, so a write counts for nothing if the same
write follows (`SymbolTree.write_absorbs`). Hence writes that are made once more, all of them in the
same order, change nothing (`SymbolTree.writeAll_writeAll`).
-/

namespace ControlStore

/-! ## Single symbols -/

/-- What is written to a sequence. -/
inductive Write where
  /-- The address of its first step, which is also the base of all labels inside. -/
  | address (address : Nat)
  | steps (steps : List Step)

/-- The steps and settings of a symbol, if it is a sequence or a macro. -/
def Symbol.code? : Symbol → Option Code
  | sequence code _ => some code
  | _ => none

namespace Write

def apply : Write → Symbol → Symbol
  | address n => Symbol.placeAt n
  | steps l => Symbol.mapSteps fun _ => l

/-- The write without its effect on labels. -/
def bare : Write → Symbol → Symbol
  | address n, .sequence code locals => .sequence { code with address := n } locals
  | steps l, .sequence code locals => .sequence { code with steps := l } locals
  | _, other => other

/-- What a write changes in the sequence itself. -/
def onCode : Write → Code → Code
  | address n, code => { code with address := n }
  | steps l, code => { code with steps := l }

variable (write other : Write) (symbol : Symbol)

theorem apply_address (n : Nat) : (address n).apply symbol = symbol.placeAt n := rfl

theorem apply_steps (l : List Step) : (steps l).apply symbol = symbol.mapSteps fun _ => l := rfl

theorem apply_apply : write.apply (write.apply symbol) = write.apply symbol := by
  cases write <;> cases symbol <;>
    simp [apply, Symbol.placeAt, Symbol.mapSteps, SymbolTree.mapLabels_mapLabels]

/-- A write counts for nothing if the same one follows. -/
theorem apply_absorbs :
    write.apply (other.apply (write.apply symbol)) = write.apply (other.apply symbol) := by
  cases write <;> cases other <;> cases symbol <;>
    simp [apply, Symbol.placeAt, Symbol.mapSteps, SymbolTree.mapLabels_mapLabels]

/-- Once the labels get another base, a write is only seen in the sequence itself. -/
theorem mapLabels_apply (base : Nat) :
    (write.apply symbol).mapLabels (fun label => { label with base }) =
      write.bare (symbol.mapLabels fun label => { label with base }) := by
  cases write <;> cases symbol <;>
    simp [apply, bare, Symbol.placeAt, Symbol.mapSteps, Symbol.mapLabels,
      SymbolTree.mapLabels_mapLabels]

/-- A write replaces whatever of its kind was there. -/
theorem apply_bare : write.apply (write.bare symbol) = write.apply symbol := by
  cases write <;> cases symbol <;> rfl

/-- A write changes the code of a symbol, if it has one. -/
theorem code?_apply : (write.apply symbol).code? = symbol.code?.map write.onCode := by
  cases write <;> cases symbol <;> rfl

end Write

theorem Symbol.code?_mapTree (f : SymbolTree → SymbolTree) (symbol : Symbol) :
    (symbol.mapTree f).code? = symbol.code? := by
  cases symbol <;> rfl

theorem Symbol.code?_mapLabels (f : Label → Label) (symbol : Symbol) :
    (symbol.mapLabels f).code? = symbol.code? := by
  cases symbol <;> rfl

/-- Steps are written without looking at the names of the sequence. -/
theorem Symbol.mapSteps_mapTree (f : List Step → List Step) (g : SymbolTree → SymbolTree)
    (symbol : Symbol) : (symbol.mapTree g).mapSteps f = (symbol.mapSteps f).mapTree g := by
  cases symbol <;> rfl

theorem Symbol.mapSteps_const (l l' : List Step) (symbol : Symbol) :
    (symbol.mapSteps fun _ => l').mapSteps (fun _ => l) = symbol.mapSteps fun _ => l := by
  cases symbol <;> rfl

/-! ## Symbols at paths -/

/-- Changes of two names may be made in either order. -/
theorem adjustEntry_comm {name other : String} (h : name ≠ other) (f g : Symbol → Symbol)
    (entries : List (String × Symbol)) :
    adjustEntry name f (adjustEntry other g entries) =
      adjustEntry other g (adjustEntry name f entries) := by
  induction entries with
  | nil => rfl
  | cons entry rest ih =>
    obtain ⟨key, symbol⟩ := entry
    -- the key is one of the two names or neither, as they differ
    by_cases hname : key = name
    · have hother : key ≠ other := fun heq => h (hname.symm.trans heq)
      simp [adjustEntry, hname, h]
    · by_cases hother : key = other
      · simp [adjustEntry, hother, h.symm]
      · simp [adjustEntry, hname, hother, ih]

namespace SymbolTree

variable {tree : SymbolTree} {path other : Path}

/-- The change of a symbol that changes a symbol at a path inside it. -/
def changeUnder (path : Path) (f : Symbol → Symbol) : Symbol → Symbol :=
  match path with
  | [] => f
  | next :: rest => Symbol.mapTree (·.adjust (next :: rest) f)

theorem adjust_cons (tree : SymbolTree) (name : String) (path : Path) (f : Symbol → Symbol) :
    tree.adjust (name :: path) f =
      { tree with entries := adjustEntry name (changeUnder path f) tree.entries } := by
  cases path <;> rfl

/-- A change at a path changes what the first segment finds and nothing else. -/
theorem local?_adjust_cons (tree : SymbolTree) (first : String) (path : Path)
    (f : Symbol → Symbol) (name : String) :
    (tree.adjust (first :: path) f).local? name =
      if name = first then (tree.local? name).map (changeUnder path f) else tree.local? name := by
  rw [adjust_cons]
  exact lookup_adjustEntry _

/-- A symbol that is changed twice is changed once by both. -/
theorem adjust_adjust (tree : SymbolTree) (path : Path) (f g : Symbol → Symbol) :
    (tree.adjust path f).adjust path g = tree.adjust path fun symbol => g (f symbol) := by
  induction path generalizing tree with
  | nil => rfl
  | cons name path ih =>
    rw [adjust_cons, adjust_cons, adjust_cons]
    refine ext' rfl ((adjustEntry_adjustEntry _ _).trans (adjustEntry_congr fun symbol _ => ?_))
    cases path with
    | nil => rfl
    | cons next rest =>
      rw [changeUnder, changeUnder, changeUnder, Symbol.mapTree_mapTree]
      exact Symbol.mapTree_congr fun inner _ => ih inner

/-- Labels are moved before or after a symbol is changed. -/
theorem mapLabels_adjust {move : Label → Label} {f g : Symbol → Symbol}
    (h : ∀ symbol, (f symbol).mapLabels move = g (symbol.mapLabels move)) (path : Path)
    (tree : SymbolTree) :
    (tree.adjust path f).mapLabels move = (tree.mapLabels move).adjust path g := by
  induction path generalizing tree with
  | nil => rfl
  | cons name path ih =>
    rw [adjust_cons, adjust_cons]
    refine ext' (by rw [mapLabels_name, mapLabels_name]) ?_
    rw [mapLabels_entries, mapLabels_entries]
    refine map_adjustEntry (Symbol.mapLabels move) fun symbol => ?_
    cases path with
    | nil => exact h symbol
    | cons next rest => exact Symbol.mapLabels_mapTree ih symbol

/-! ## Writes that replace each other -/

/-- Writes to the symbol at a path. -/
def write (tree : SymbolTree) (path : Path) (w : Write) : SymbolTree := tree.adjust path w.apply

/-- A write that is repeated at its place changes nothing. -/
theorem write_write (tree : SymbolTree) (path : Path) (w : Write) :
    (tree.write path w).write path w = tree.write path w := by
  rw [write, write, adjust_adjust]
  simp only [w.apply_apply]

/-- A write above replaces all that it has written before, also if something is written inside in
between. -/
theorem apply_absorbs_inner (w v : Write) (path : Path) (symbol : Symbol) :
    w.apply ((w.apply symbol).mapTree (·.write path v)) =
      w.apply (symbol.mapTree (·.write path v)) := by
  cases w with
  | steps l => simp only [Write.apply_steps, Symbol.mapSteps_mapTree, Symbol.mapSteps_const]
  | address n =>
    cases symbol with
    | sequence code locals =>
      -- the labels get their base at last, whatever was written inside before
      simp only [Write.apply_address, Symbol.placeAt, Symbol.mapTree, write,
        mapLabels_adjust (v.mapLabels_apply · n), mapLabels_mapLabels]
    | _ => rfl

/-- A write inside replaces what it has written before, also if something is written above in
between. -/
theorem write_absorbs_outer (w v : Write) (path : Path) (symbol : Symbol) :
    (v.apply (symbol.mapTree (·.write path w))).mapTree (·.write path w) =
      (v.apply symbol).mapTree (·.write path w) := by
  cases v with
  | steps l =>
    simp only [Write.apply_steps, Symbol.mapSteps_mapTree, Symbol.mapTree_mapTree, write_write]
  | address n =>
    cases symbol with
    | sequence code locals =>
      simp only [Write.apply_address, Symbol.placeAt, Symbol.mapTree, write,
        mapLabels_adjust (w.mapLabels_apply · n), adjust_adjust, Write.apply_bare]
    | scope locals => exact congrArg Symbol.scope (write_write locals path w)
    | _ => rfl

/-- A write counts for nothing if the same one follows, with another one in between. -/
theorem write_absorbs (w v : Write) (tree : SymbolTree) (path other : Path) :
    ((tree.write path w).write other v).write path w = (tree.write other v).write path w := by
  induction path generalizing tree other with
  | nil => rfl
  | cons name path ih =>
    cases other with
    | nil => exact write_write tree (name :: path) w
    | cons name' other =>
      -- below one name, one path may end before the other; below two names the writes do not meet
      by_cases hname : name = name'
      · subst hname
        simp only [write, adjust_cons, adjustEntry_adjustEntry]
        refine ext' rfl (adjustEntry_congr fun symbol _ => ?_)
        cases path with
        | nil =>
          cases other with
          | nil => exact w.apply_absorbs v symbol
          | cons next rest => exact apply_absorbs_inner w v (next :: rest) symbol
        | cons next rest =>
          cases other with
          | nil => exact write_absorbs_outer w v (next :: rest) symbol
          | cons next' rest' =>
            simp only [changeUnder, Symbol.mapTree_mapTree]
            exact Symbol.mapTree_congr fun inner _ => ih inner (next' :: rest')
      · have htwice := write_write (tree.write (name' :: other) v) (name :: path) w
        simp only [write, adjust_cons] at htwice ⊢
        rw [adjustEntry_comm (Ne.symm hname)]
        exact htwice

/-- Writes one after the other to the symbols that names find. -/
def writeAll (writes : List (String × Write)) (tree : SymbolTree) : SymbolTree :=
  writes.foldl (fun tree w => tree.write (.ofName w.1) w.2) tree

theorem writeAll_append (writes more : List (String × Write)) (tree : SymbolTree) :
    tree.writeAll (writes ++ more) = (tree.writeAll writes).writeAll more :=
  List.foldl_append

/-- A write counts for nothing if the same one follows, with any others in between. -/
theorem writeAll_absorbs (path : Path) (w : Write) (writes : List (String × Write))
    (tree : SymbolTree) :
    ((tree.write path w).writeAll writes).write path w =
      (tree.writeAll writes).write path w := by
  induction writes generalizing tree with
  | nil => exact write_write tree path w
  | cons v writes ih =>
    -- the write may be repeated behind the first of the others, where it replaces the one before
    calc (((tree.write path w).write (.ofName v.1) v.2).writeAll writes).write path w
      _ = ((((tree.write path w).write (.ofName v.1) v.2).write path w).writeAll writes).write
            path w := (ih _).symm
      _ = (((tree.write (.ofName v.1) v.2).write path w).writeAll writes).write path w := by
        rw [write_absorbs]
      _ = ((tree.write (.ofName v.1) v.2).writeAll writes).write path w := ih _

/-- Writes that are made once more change nothing. -/
theorem writeAll_writeAll (writes : List (String × Write)) (tree : SymbolTree) :
    (tree.writeAll writes).writeAll writes = tree.writeAll writes := by
  induction writes using List.reverseRecOn with
  | nil => rfl
  | append_singleton writes w ih =>
    rw [writeAll_append, writeAll_append]
    exact (writeAll_absorbs (.ofName w.1) w.2 writes _).trans
      (congrArg (·.write (.ofName w.1) w.2) ih)

/-! ## What writes do not change -/

/-- The steps and settings of the sequence that a name finds. -/
def code? (tree : SymbolTree) (name : String) : Option Code :=
  (tree.find? name).bind Symbol.code?

/-- The symbol at a path that starts at a symbol. -/
def symbolAt (path : Path) (symbol : Symbol) : Option Symbol :=
  match path with
  | [] => some symbol
  | next :: rest => symbol.tree?.bind (·.get? (next :: rest))

/-- A path is followed from the symbol of its first segment. -/
theorem get?_cons_eq_symbolAt (tree : SymbolTree) (name : String) (path : Path) :
    tree.get? (name :: path) = (tree.local? name).bind (symbolAt path) := by
  cases path with
  | nil => exact (Option.bind_fun_some _).symm
  | cons next rest => exact get?_cons (List.cons_ne_nil _ _) tree name

/-- Nothing inside a symbol is changed by a write to it, but for the labels. -/
theorem code?_symbolAt_apply (w : Write) {path : Path} (hpath : path ≠ []) (symbol : Symbol) :
    (symbolAt path (w.apply symbol)).bind Symbol.code? =
      (symbolAt path symbol).bind Symbol.code? := by
  cases path with
  | nil => exact absurd rfl hpath
  | cons next rest =>
    cases symbol with
    | sequence code locals =>
      cases w with
      | steps l => rfl
      | address n =>
        simp only [symbolAt, Write.apply_address, Symbol.placeAt, Symbol.tree?, Option.bind_some,
          get?_mapLabels]
        cases locals.get? (next :: rest) with
        | none => rfl
        | some found => exact Symbol.code?_mapLabels _ found
    | _ => cases w <;> rfl

/-- A write changes the sequence at its path only, but for the labels inside. -/
theorem code?_get?_write (w : Write) (tree : SymbolTree) (path other : Path) :
    ((tree.write path w).get? other).bind Symbol.code? =
      if other = path then ((tree.get? other).bind Symbol.code?).map w.onCode
      else (tree.get? other).bind Symbol.code? := by
  induction path generalizing tree other with
  | nil => cases other <;> rfl
  | cons first path ih =>
    cases other with
    | nil => rfl
    | cons name other =>
      rw [write, get?_cons_eq_symbolAt, get?_cons_eq_symbolAt, local?_adjust_cons]
      by_cases hname : name = first
      · subst hname
        rw [if_pos rfl]
        simp only [List.cons.injEq, true_and]
        cases tree.local? name with
        | none => simp
        | some symbol =>
          simp only [Option.map_some, Option.bind_some]
          cases path with
          | nil =>
            split
            · next hother =>
              subst hother
              exact w.code?_apply symbol
            · next hother => exact code?_symbolAt_apply w hother symbol
          | cons next rest =>
            cases other with
            | nil => exact Symbol.code?_mapTree _ symbol
            | cons next' rest' =>
              -- both paths go on in the tree of the symbol
              simp only [symbolAt, changeUnder, Symbol.tree?_mapTree]
              cases symbol.tree? with
              | none => simp
              | some inner => exact ih inner (next' :: rest')
      · have hne : name :: other ≠ first :: path := fun heq => hname (List.cons.inj heq).1
        rw [if_neg hname, if_neg hne]

/-- A write changes the code of the name it is for. -/
theorem code?_write (w : Write) (tree : SymbolTree) (name other : String) :
    (tree.write (.ofName name) w).code? other =
      if other = name then (tree.code? other).map w.onCode else tree.code? other := by
  have hsame : Path.ofName other = Path.ofName name ↔ other = name :=
    ⟨Path.ofName_injective, congrArg _⟩
  have hwrite := code?_get?_write w tree (.ofName name) (.ofName other)
  simp only [hsame] at hwrite
  exact hwrite

/-- Whether a name finds a sequence or a macro does not depend on what is written. -/
theorem isMacro_code?_writeAll (writes : List (String × Write)) (tree : SymbolTree)
    (name : String) :
    ((tree.writeAll writes).code? name).map Code.isMacro =
      (tree.code? name).map Code.isMacro := by
  induction writes generalizing tree with
  | nil => rfl
  | cons w writes ih =>
    refine (ih (tree.write (.ofName w.1) w.2)).trans ?_
    rw [code?_write]
    split
    · rw [Option.map_map]
      refine Option.map_congr fun code _ => ?_
      cases w.2 <;> rfl
    · rfl

/-- A write makes no sequence and removes none. -/
theorem map_isPlaced_write (w : Write) (tree : SymbolTree) (path : Path) :
    (tree.write path w).entries.map (fun entry => (entry.1, entry.2.isPlaced)) =
      tree.entries.map fun entry => (entry.1, entry.2.isPlaced) := by
  cases path with
  | nil => rfl
  | cons name path =>
    -- a write changes the address or the steps of a code, and neither makes it a macro
    have hkind : ∀ symbol, (changeUnder path w.apply symbol).isPlaced = symbol.isPlaced := by
      intro symbol
      cases path <;> cases w <;> cases symbol <;> rfl
    rw [write, adjust_cons]
    generalize tree.entries = entries
    induction entries with
    | nil => rfl
    | cons entry rest ih =>
      obtain ⟨key, symbol⟩ := entry
      rw [adjustEntry]
      split
      · rw [List.map_cons, List.map_cons, hkind]
      · rw [List.map_cons, List.map_cons]
        exact congrArg _ ih

/-- Writes keep the names of a tree, and which of them are those of sequences. -/
theorem map_isPlaced_writeAll (writes : List (String × Write)) (tree : SymbolTree) :
    (tree.writeAll writes).entries.map (fun entry => (entry.1, entry.2.isPlaced)) =
      tree.entries.map fun entry => (entry.1, entry.2.isPlaced) := by
  induction writes generalizing tree with
  | nil => rfl
  | cons w writes ih => exact (ih _).trans (map_isPlaced_write w.2 tree _)

/-- Writes keep the names. -/
theorem names_writeAll (writes : List (String × Write)) (tree : SymbolTree) :
    (tree.writeAll writes).names = tree.names := by
  have hnames := congrArg (List.map Prod.fst) (map_isPlaced_writeAll writes tree)
  rw [List.map_map, List.map_map] at hnames
  exact hnames

end SymbolTree

end ControlStore
