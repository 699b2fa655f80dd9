import ControlStore.Proofs.Symbol.Update
import Std.Data.HashMap

/-!
# Symbol trees with an index

`IndexedTree` is a symbol tree that does not look for a name among its entries: it has a hash map
from the names to the positions of their entries, which is kept up to date as symbols are stored. The
index is redundant, and nothing but the operations keeps it right. `IndexedTree.Coherent` says that it
is, and the trees that are made by storing symbols have it at every depth
(`IndexedTree.Built.sound`).

Where it is right, the tree without its index (`IndexedTree.toTree`) is looked up, stored into and
adjusted as the tree with it, so that the laws of storing are those of `SymbolTree.Stores`.
`IndexedTree.IsPathMap` collects them, and `IndexedTree.Built.isPathMap` is the result.

A symbol that may be changed in its place is given as the symbol and the way back from another
symbol to the tree.
-/

namespace ControlStore

mutual

/-- What a name can be bound to in a tree with an index. -/
inductive IndexedSymbol where
  | constant (value : Int)
  | label (label : Label)
  | sequence (code : Code) (locals : IndexedTree)
  | scope (locals : IndexedTree)

/-- Named symbols in the order of their first binding, with an index of the positions of the
names. -/
structure IndexedTree where
  name : String
  entries : List (String × IndexedSymbol)
  index : Std.HashMap String Nat

end

mutual

/-- Renames a symbol's tree, and the trees inside it, for the place it is stored at. -/
def IndexedSymbol.attach (parent key : String) : IndexedSymbol → IndexedSymbol
  | .constant value => .constant value
  | .label label => .label label
  | .sequence code locals => .sequence code (locals.attach parent key)
  | .scope locals => .scope (locals.attach parent key)

/-- Gives a tree the name of the place `key` in the tree called `parent`. -/
def IndexedTree.attach (parent key : String) : IndexedTree → IndexedTree
  | ⟨_, entries, index⟩ =>
    ⟨qualify parent key, attachIndexed (qualify parent key) entries, index⟩

/-- Renames all trees among the entries of the tree called `parent`. -/
def attachIndexed (parent : String) :
    List (String × IndexedSymbol) → List (String × IndexedSymbol)
  | [] => []
  | (key, symbol) :: rest => (key, symbol.attach parent key) :: attachIndexed parent rest

end

mutual

/-- The symbol without the indices of its trees. -/
def IndexedSymbol.toSymbol : IndexedSymbol → Symbol
  | .constant value => .constant value
  | .label label => .label label
  | .sequence code locals => .sequence code locals.toTree
  | .scope locals => .scope locals.toTree

/-- The tree without its index and those of the trees in it. -/
def IndexedTree.toTree : IndexedTree → SymbolTree
  | ⟨name, entries, _⟩ => ⟨name, toEntries entries⟩

/-- The entries without the indices of their trees. -/
def toEntries : List (String × IndexedSymbol) → List (String × Symbol)
  | [] => []
  | (key, symbol) :: rest => (key, symbol.toSymbol) :: toEntries rest

end

namespace IndexedSymbol

/-- The tree of names inside a symbol. -/
def tree? : IndexedSymbol → Option IndexedTree
  | constant _ => none
  | label _ => none
  | sequence _ locals => some locals
  | scope locals => some locals

/-- The symbol with another tree of names, if it has any. -/
def withTree (inner : IndexedTree) : IndexedSymbol → IndexedSymbol
  | constant value => constant value
  | label l => label l
  | sequence code _ => sequence code inner
  | scope _ => scope inner

end IndexedSymbol

namespace IndexedTree

/-- The tree without names. -/
def empty : IndexedTree := ⟨"", [], ∅⟩

/-- The names bound directly in the tree, in order. -/
def names (tree : IndexedTree) : List String := tree.entries.map Prod.fst

/-- The symbol at the position that the index has for a name. -/
def local? (tree : IndexedTree) (name : String) : Option IndexedSymbol := do
  let position ← tree.index[name]?
  return (← tree.entries[position]?).2

/-- The symbol at a path. -/
def get? : IndexedTree → Path → Option IndexedSymbol
  | _, [] => none
  | tree, [name] => tree.local? name
  | tree, name :: path => do (← (← tree.local? name).tree?).get? path

/-- The symbol with the given dotted name. -/
def find? (tree : IndexedTree) (name : String) : Option IndexedSymbol := tree.get? (.ofName name)

/-- The symbol at the position that the index has for a name, and the tree with another symbol
there. -/
def slot? (tree : IndexedTree) (name : String) :
    Option (IndexedSymbol × (IndexedSymbol → IndexedTree)) := do
  let position ← tree.index[name]?
  let (key, symbol) ← tree.entries[position]?
  return (symbol, fun other => { tree with entries := tree.entries.set position (key, other) })

/-- The symbol at a path, to be changed in its place. -/
def getMut? : IndexedTree → Path → Option (IndexedSymbol × (IndexedSymbol → IndexedTree))
  | _, [] => none
  | tree, [name] => tree.slot? name
  | tree, name :: path => do
    let (outer, put) ← tree.slot? name
    let (symbol, putInner) ← (← outer.tree?).getMut? path
    return (symbol, fun other => put (outer.withTree (putInner other)))

/-- Binds a name directly in the tree. A name that is bound already keeps its position. -/
def bind (tree : IndexedTree) (name : String) (symbol : IndexedSymbol) : IndexedTree :=
  match tree.slot? name with
  | some (_, put) => put (symbol.attach tree.name name)
  | none =>
    { tree with
      entries := tree.entries ++ [(name, symbol.attach tree.name name)]
      index := tree.index.insert name tree.entries.length }

/-- Binds a symbol at a path, and says whether it could be bound there. -/
def set : IndexedTree → Path → IndexedSymbol → Bool × IndexedTree
  | tree, [], _ => (false, tree)
  | tree, [name], symbol => (true, tree.bind name symbol)
  | tree, name :: path, symbol =>
    match tree.slot? name with
    | none => (false, tree)
    | some (outer, put) =>
      match outer.tree? with
      | none => (false, tree)
      | some inner =>
        let (stored, inner) := inner.set path symbol
        (stored, put (outer.withTree inner))

end IndexedTree

/-! ## Without the index -/

/-- Without indices the entries have the same names. -/
theorem toEntries_eq_map (entries : List (String × IndexedSymbol)) :
    toEntries entries = entries.map fun entry => (entry.1, entry.2.toSymbol) := by
  induction entries with
  | nil => rfl
  | cons entry rest ih => rw [toEntries, ih, List.map_cons]

mutual

/-- Attaching a symbol does not depend on indices. -/
theorem IndexedSymbol.toSymbol_attach (parent key : String) :
    ∀ symbol : IndexedSymbol,
      (symbol.attach parent key).toSymbol = symbol.toSymbol.attach parent key
  | .constant _ => rfl
  | .label _ => rfl
  | .sequence code locals => congrArg (Symbol.sequence code) (locals.toTree_attach parent key)
  | .scope locals => congrArg Symbol.scope (locals.toTree_attach parent key)

/-- Attaching a tree does not depend on indices. -/
theorem IndexedTree.toTree_attach (parent key : String) :
    ∀ tree : IndexedTree, (tree.attach parent key).toTree = tree.toTree.attach parent key
  | ⟨_, entries, _⟩ =>
    congrArg (SymbolTree.mk (qualify parent key))
      (toEntries_attachIndexed (qualify parent key) entries)

/-- Attaching entries does not depend on indices. -/
theorem toEntries_attachIndexed (parent : String) :
    ∀ entries, toEntries (attachIndexed parent entries) = attachEntries parent (toEntries entries)
  | [] => rfl
  | (key, symbol) :: rest => by
    rw [attachIndexed, toEntries, toEntries, attachEntries, symbol.toSymbol_attach,
      toEntries_attachIndexed parent rest]

end

/-- Entries are attached one by one. -/
theorem attachIndexed_eq_map (parent : String) (entries : List (String × IndexedSymbol)) :
    attachIndexed parent entries =
      entries.map fun entry => (entry.1, entry.2.attach parent entry.1) := by
  induction entries with
  | nil => rfl
  | cons entry rest ih => rw [attachIndexed, ih, List.map_cons]

namespace IndexedSymbol

theorem tree?_toSymbol (symbol : IndexedSymbol) :
    symbol.toSymbol.tree? = symbol.tree?.map (·.toTree) := by
  cases symbol <;> rfl

theorem tree?_attach (parent key : String) (symbol : IndexedSymbol) :
    (symbol.attach parent key).tree? = symbol.tree?.map (·.attach parent key) := by
  cases symbol <;> rfl

theorem toSymbol_withTree (inner : IndexedTree) (symbol : IndexedSymbol) :
    (symbol.withTree inner).toSymbol = symbol.toSymbol.mapTree fun _ => inner.toTree := by
  cases symbol <;> rfl

theorem tree?_withTree (inner : IndexedTree) (symbol : IndexedSymbol) :
    (symbol.withTree inner).tree? = symbol.tree?.map fun _ => inner := by
  cases symbol <;> rfl

/-- A symbol given its own tree stays the same. -/
theorem withTree_of_tree? {inner : IndexedTree} {symbol : IndexedSymbol}
    (h : symbol.tree? = some inner) : symbol.withTree inner = symbol := by
  cases symbol with
  | constant value => cases h
  | label l => cases h
  | sequence code locals => cases h; rfl
  | scope locals => cases h; rfl

end IndexedSymbol

namespace IndexedTree

variable {tree inner : IndexedTree} {symbol outer : IndexedSymbol} {name : String} {path : Path}
  {put : IndexedSymbol → IndexedTree}

theorem entries_toTree (tree : IndexedTree) :
    tree.toTree.entries = tree.entries.map fun entry => (entry.1, entry.2.toSymbol) := by
  cases tree
  exact toEntries_eq_map _

theorem name_toTree (tree : IndexedTree) : tree.toTree.name = tree.name := by
  cases tree
  rfl

theorem names_toTree (tree : IndexedTree) : tree.toTree.names = tree.names := by
  simp [SymbolTree.names, names, entries_toTree, Function.comp_def]

theorem mem_names_toTree : name ∈ tree.toTree.entries.map Prod.fst ↔ name ∈ tree.names := by
  rw [← names_toTree]
  rfl

theorem get?_cons_cons (tree : IndexedTree) (first next : String) (path : Path) :
    tree.get? (first :: next :: path) =
      (tree.local? first).bind fun s => s.tree?.bind (·.get? (next :: path)) :=
  rfl

theorem getMut?_cons_cons (tree : IndexedTree) (first next : String) (path : Path) :
    tree.getMut? (first :: next :: path) =
      (tree.slot? first).bind fun slot => slot.1.tree?.bind fun inner =>
        (inner.getMut? (next :: path)).bind fun found =>
          some (found.1, fun other => slot.2 (slot.1.withTree (found.2 other))) :=
  rfl

theorem set_cons_cons (tree : IndexedTree) (first next : String) (path : Path)
    (symbol : IndexedSymbol) :
    tree.set (first :: next :: path) symbol =
      match tree.slot? first with
      | none => (false, tree)
      | some (outer, put) =>
        match outer.tree? with
        | none => (false, tree)
        | some inner =>
          ((inner.set (next :: path) symbol).1,
            put (outer.withTree (inner.set (next :: path) symbol).2)) :=
  rfl

/-! ## A right index -/

/-- The index has exactly the names of the entries, each with its position. The names are distinct
and have no dots. -/
structure Coherent (tree : IndexedTree) : Prop where
  index : ∀ (name : String) (position : Nat),
    tree.index[name]? = some position ↔ tree.names[position]? = some name
  nodup : tree.names.Nodup
  dotless : ∀ name ∈ tree.names, Dotless name

theorem coherent_empty : empty.Coherent where
  index name position := by simp [empty, names]
  nodup := List.nodup_nil
  dotless _ h := absurd h List.not_mem_nil

/-- A tree with the same names and the same index as one whose index is right has a right index. -/
theorem Coherent.congr (h : tree.Coherent) (hnames : inner.names = tree.names)
    (hindex : inner.index = tree.index) : inner.Coherent where
  index := by rw [hnames, hindex]; exact h.index
  nodup := hnames ▸ h.nodup
  dotless := hnames ▸ h.dotless

/-- The index has the position of the only entry of each name. -/
theorem Coherent.split (h : tree.Coherent) (hname : name ∈ tree.names) :
    ∃ before symbol after, tree.entries = before ++ (name, symbol) :: after ∧
      name ∉ before.map Prod.fst ∧ tree.index[name]? = some before.length := by
  obtain ⟨⟨key, symbol⟩, hentry, rfl⟩ := List.mem_map.1 hname
  obtain ⟨before, after, hentries⟩ := List.append_of_mem hentry
  have hnodup := h.nodup
  rw [names, hentries, List.map_append, List.map_cons, List.nodup_append] at hnodup
  refine ⟨before, symbol, after, hentries, fun hmem => ?_, ?_⟩
  · exact hnodup.2.2 key hmem key (List.mem_cons_self ..) rfl
  · rw [h.index, names, hentries]
    simp

/-- A name is found where its index points. -/
theorem local?_of_split {before after : List (String × IndexedSymbol)}
    (hindex : tree.index[name]? = some before.length)
    (hentries : tree.entries = before ++ (name, symbol) :: after) :
    tree.local? name = some symbol := by
  simp [local?, hindex, hentries]

/-- A name is written where its index points, and nowhere else. -/
theorem slot?_of_split {before after : List (String × IndexedSymbol)}
    (hindex : tree.index[name]? = some before.length)
    (hentries : tree.entries = before ++ (name, symbol) :: after) :
    tree.slot? name =
      some (symbol, fun other => { tree with entries := before ++ (name, other) :: after }) := by
  simp [slot?, hindex, hentries]

/-- A right index has no other names. -/
theorem Coherent.index_of_not_mem (h : tree.Coherent) (hname : name ∉ tree.names) :
    tree.index[name]? = none := by
  cases hposition : tree.index[name]? with
  | none => rfl
  | some position => exact absurd (List.mem_of_getElem? ((h.index _ _).1 hposition)) hname

/-- A name that is not there is not found. -/
theorem Coherent.local?_of_not_mem (h : tree.Coherent) (hname : name ∉ tree.names) :
    tree.local? name = none := by
  rw [local?, h.index_of_not_mem hname]
  rfl

/-- A name that is not there cannot be written. -/
theorem Coherent.slot?_of_not_mem (h : tree.Coherent) (hname : name ∉ tree.names) :
    tree.slot? name = none := by
  rw [slot?, h.index_of_not_mem hname]
  rfl

/-- A name that can be written is there. -/
theorem Coherent.mem_of_slot? {slot : IndexedSymbol × (IndexedSymbol → IndexedTree)}
    (h : tree.Coherent) (hslot : tree.slot? name = some slot) : name ∈ tree.names := by
  by_cases hname : name ∈ tree.names
  · exact hname
  · rw [h.slot?_of_not_mem hname] at hslot
    cases hslot

/-- A name that cannot be written is not there. -/
theorem Coherent.not_mem_of_slot? (h : tree.Coherent) (hslot : tree.slot? name = none) :
    name ∉ tree.names := by
  intro hname
  obtain ⟨before, found, after, hentries, -, hindex⟩ := h.split hname
  rw [slot?_of_split hindex hentries] at hslot
  cases hslot

/-- Without the index, a name is found among the entries. -/
theorem Coherent.local?_toTree (h : tree.Coherent) (name : String) :
    tree.toTree.local? name = (tree.local? name).map IndexedSymbol.toSymbol := by
  by_cases hname : name ∈ tree.names
  · obtain ⟨before, symbol, after, hentries, -, hindex⟩ := h.split hname
    rw [local?_of_split hindex hentries, SymbolTree.local?, Option.map_some]
    apply (lookup_eq_some_iff _).2
    · simp [entries_toTree, hentries]
    · exact (congrArg List.Nodup (names_toTree tree)).mpr h.nodup
  · rw [h.local?_of_not_mem hname]
    exact lookup_eq_none fun hmem => hname (mem_names_toTree.1 hmem)

/-- What is found to be changed is what is found. -/
theorem map_fst_slot? (tree : IndexedTree) (name : String) :
    (tree.slot? name).map Prod.fst = tree.local? name := by
  rw [slot?, local?]
  cases tree.index[name]? with
  | none => rfl
  | some position => cases h : tree.entries[position]? <;> simp [h]

/-- Writing at a path starts from what is found there. -/
theorem map_fst_getMut? (tree : IndexedTree) (path : Path) :
    (tree.getMut? path).map Prod.fst = tree.get? path := by
  induction path generalizing tree with
  | nil => rfl
  | cons first path ih =>
    cases path with
    | nil => exact map_fst_slot? tree first
    | cons next path =>
      rw [getMut?_cons_cons, get?_cons_cons, ← map_fst_slot?]
      cases tree.slot? first with
      | none => rfl
      | some slot =>
        cases htree : slot.1.tree? with
        | none => simp [htree]
        | some inner =>
          simp only [Option.bind_some, Option.map_some, htree, ← ih inner]
          cases inner.getMut? (next :: path) <;> rfl

/-- What changing a symbol in its place does. -/
structure Slot (tree : IndexedTree) (name : String) (symbol : IndexedSymbol)
    (put : IndexedSymbol → IndexedTree) : Prop where
  mem : (name, symbol) ∈ tree.entries
  /-- The names and the index stay. -/
  names : ∀ other, (put other).names = tree.names
  index : ∀ other, (put other).index = tree.index
  /-- The other entries stay. -/
  entries : ∀ other, ∀ entry ∈ (put other).entries, entry ∈ tree.entries ∨ entry = (name, other)
  written : ∀ other, (put other).local? name = some other
  back : put symbol = tree
  /-- Without the index, the entry of the name is adjusted. -/
  adjusted : ∀ other change, change symbol.toSymbol = other.toSymbol →
    (put other).toTree =
      { tree.toTree with entries := adjustEntry name change tree.toTree.entries }

theorem ext' {tree other : IndexedTree} (hname : tree.name = other.name)
    (hentries : tree.entries = other.entries) (hindex : tree.index = other.index) :
    tree = other := by
  cases tree
  cases other
  cases hname
  cases hentries
  cases hindex
  rfl

/-- What can be written under a name is a slot: the entry of the name, with the rest of the tree
around it. -/
theorem Coherent.slot (h : tree.Coherent) (hslot : tree.slot? name = some (symbol, put)) :
    tree.Slot name symbol put := by
  -- the entries split at the name, which is where the index points
  obtain ⟨before, found, after, hentries, hbefore, hindex⟩ := h.split (h.mem_of_slot? hslot)
  cases hslot.symm.trans (slot?_of_split hindex hentries)
  constructor
  case mem => simp [hentries]
  case names => exact fun other => by simp [IndexedTree.names, hentries]
  case index => exact fun _ => rfl
  case entries =>
    intro other entry hentry
    rw [hentries]
    rcases List.mem_append.1 hentry with hentry | hentry
    · exact .inl (List.mem_append_left _ hentry)
    · rcases List.mem_cons.1 hentry with hentry | hentry
      · exact .inr hentry
      · exact .inl (List.mem_append_right _ (List.mem_cons_of_mem _ hentry))
  case written => exact fun other => local?_of_split hindex rfl
  case back => exact ext' rfl hentries.symm rfl
  case adjusted =>
    intro other change hchange
    refine SymbolTree.ext' ?_ ?_
    · simp only [name_toTree]
    · simp only [entries_toTree, hentries, List.map_append, List.map_cons]
      rw [adjustEntry_append_of_not_mem (by simpa using hbefore), adjustEntry, if_pos rfl, hchange]

/-- Writing to a slot keeps the index right. -/
theorem Slot.coherent (hslot : tree.Slot name symbol put) (h : tree.Coherent)
    (other : IndexedSymbol) : (put other).Coherent :=
  h.congr (hslot.names other) (hslot.index other)

/-! ## Trees whose index is right at every depth -/

/-- The index of the tree is right, and so are those of the trees in it. -/
inductive Sound : IndexedTree → Prop
  | intro {tree : IndexedTree} (coherent : tree.Coherent)
      (inner : ∀ entry ∈ tree.entries, ∀ inner, entry.2.tree? = some inner → Sound inner) :
      Sound tree

/-- The index of a sound tree is right. -/
theorem Sound.coherent (h : tree.Sound) : tree.Coherent := by
  cases h
  assumption

/-- The trees in a sound tree are sound. -/
theorem Sound.of_mem {entry : String × IndexedSymbol} (h : tree.Sound)
    (hentry : entry ∈ tree.entries) (htree : entry.2.tree? = some inner) : inner.Sound := by
  cases h with
  | intro _ hinner => exact hinner entry hentry inner htree

/-- The tree found under a name in a sound tree is sound. -/
theorem Sound.of_local? (h : tree.Sound) (hlocal : tree.local? name = some symbol)
    (htree : symbol.tree? = some inner) : inner.Sound := by
  obtain ⟨position, -, hposition⟩ := Option.bind_eq_some_iff.1 hlocal
  obtain ⟨entry, hentry, heq⟩ := Option.bind_eq_some_iff.1 hposition
  cases heq
  exact h.of_mem (List.mem_of_getElem? hentry) htree

theorem sound_empty : empty.Sound :=
  .intro coherent_empty fun _ h => absurd h List.not_mem_nil

theorem entries_attach (parent key : String) (tree : IndexedTree) :
    (tree.attach parent key).entries = attachIndexed (qualify parent key) tree.entries := by
  cases tree
  rfl

theorem names_attach (parent key : String) (tree : IndexedTree) :
    (tree.attach parent key).names = tree.names := by
  simp [names, entries_attach, attachIndexed_eq_map, Function.comp_def]

theorem index_attach (parent key : String) (tree : IndexedTree) :
    (tree.attach parent key).index = tree.index := by
  cases tree
  rfl

/-- A tree keeps its index for another place. -/
theorem Sound.attach (h : tree.Sound) (parent key : String) : (tree.attach parent key).Sound := by
  induction h generalizing parent key with
  | @intro tree hcoherent _ ih =>
    refine .intro (hcoherent.congr (names_attach parent key tree) (index_attach parent key tree)) ?_
    intro entry hentry inner htree
    rw [entries_attach, attachIndexed_eq_map] at hentry
    obtain ⟨old, hold, rfl⟩ := List.mem_map.1 hentry
    rw [IndexedSymbol.tree?_attach] at htree
    obtain ⟨oldTree, holdTree, rfl⟩ := Option.map_eq_some_iff.1 htree
    exact ih old hold oldTree holdTree _ _

/-- A symbol changed in its place leaves the index right at every depth, if its tree has it so. -/
theorem Sound.write (h : tree.Sound) (hslot : tree.Slot name symbol put) {other : IndexedSymbol}
    (hother : ∀ inner, other.tree? = some inner → inner.Sound) : (put other).Sound := by
  refine .intro (hslot.coherent h.coherent other) fun entry hentry inner htree => ?_
  rcases hslot.entries other entry hentry with hold | rfl
  · exact h.of_mem hold htree
  · exact hother inner htree

/-- A name without dots that is bound last leaves the index right. -/
theorem Coherent.concat (h : tree.Coherent) (hdotless : Dotless name) (hname : name ∉ tree.names) :
    Coherent
      { tree with
        entries := tree.entries ++ [(name, symbol)]
        index := tree.index.insert name tree.entries.length } := by
  have hnames : names
      { tree with
        entries := tree.entries ++ [(name, symbol)]
        index := tree.index.insert name tree.entries.length } = tree.names ++ [name] := by
    simp [names]
  constructor
  case index =>
    intro other position
    have hlength : tree.names.length = tree.entries.length := List.length_map _
    -- the new name is behind the others, at the position that was their number
    rw [hnames, Std.HashMap.getElem?_insert, List.getElem?_append, ← hlength]
    by_cases hother : name = other
    · subst hother
      rw [if_pos (beq_self_eq_true name)]
      split
      · next hlt =>
        refine ⟨fun heq => ?_, fun hat => absurd (List.mem_of_getElem? hat) hname⟩
        cases heq
        exact absurd hlt (Nat.lt_irrefl _)
      · next hle => grind
    · rw [if_neg (by simpa using hother), h.index]
      split
      · rfl
      · next hle => grind
  case nodup =>
    rw [hnames, List.nodup_append]
    refine ⟨h.nodup, by simp, ?_⟩
    rintro old hold other hother rfl
    exact hname (List.mem_singleton.1 hother ▸ hold)
  case dotless =>
    intro other hother
    rw [hnames, List.mem_append, List.mem_singleton] at hother
    rcases hother with hother | rfl
    · exact h.dotless other hother
    · exact hdotless

/-- Binding a sound symbol keeps the tree sound. -/
theorem Sound.bind (h : tree.Sound) (hdotless : Dotless name)
    (hsymbol : ∀ inner, symbol.tree? = some inner → inner.Sound) :
    (tree.bind name symbol).Sound := by
  -- the symbol is attached before it is stored, which keeps its tree sound
  have hattached : ∀ inner, (symbol.attach tree.name name).tree? = some inner → inner.Sound := by
    intro inner htree
    rw [IndexedSymbol.tree?_attach] at htree
    obtain ⟨old, hold, rfl⟩ := Option.map_eq_some_iff.1 htree
    exact (hsymbol old hold).attach _ _
  rw [IndexedTree.bind]
  split
  · next found put hslot => exact h.write (h.coherent.slot hslot) hattached
  · next hslot =>
    have hname := h.coherent.not_mem_of_slot? hslot
    refine .intro (h.coherent.concat hdotless hname) fun entry hentry inner htree => ?_
    rcases List.mem_append.1 hentry with hentry | hentry
    · exact h.of_mem hentry htree
    · rw [List.mem_singleton] at hentry
      subst hentry
      exact hattached inner htree

/-- Storing a sound symbol keeps the tree sound, also where it is refused. -/
theorem Sound.set (h : tree.Sound) (hdotless : ∀ segment ∈ path, Dotless segment)
    (hsymbol : ∀ inner, symbol.tree? = some inner → inner.Sound) :
    (tree.set path symbol).2.Sound := by
  induction path generalizing tree with
  | nil => exact h
  | cons first path ih =>
    cases path with
    | nil => exact h.bind (hdotless first (List.mem_singleton.2 rfl)) hsymbol
    | cons next path =>
      rw [set_cons_cons]
      split
      · exact h
      · next outer put hfound =>
        have hslot := h.coherent.slot hfound
        split
        · exact h
        · next inner htree =>
          refine h.write hslot fun stored hstored => ?_
          rw [IndexedSymbol.tree?_withTree, htree] at hstored
          cases hstored
          exact ih (h.of_mem hslot.mem htree) fun s hs => hdotless s (List.mem_cons_of_mem _ hs)

/-! ## The operations without the index -/

/-- In a sound tree the index finds what is found without it. -/
theorem Sound.get?_toTree (h : tree.Sound) (path : Path) :
    tree.toTree.get? path = (tree.get? path).map IndexedSymbol.toSymbol := by
  induction path generalizing tree with
  | nil => rfl
  | cons first path ih =>
    cases path with
    | nil => exact h.coherent.local?_toTree first
    | cons next path =>
      rw [SymbolTree.get?_cons (List.cons_ne_nil _ _), get?_cons_cons,
        h.coherent.local?_toTree]
      cases hlocal : tree.local? first with
      | none => rfl
      | some outer =>
        cases htree : outer.tree? with
        | none => simp [IndexedSymbol.tree?_toSymbol, htree]
        | some inner =>
          have hinner := ih (h.of_local? hlocal htree)
          simpa [IndexedSymbol.tree?_toSymbol, htree] using hinner

/-- Binding with a right index is binding without one. -/
theorem Coherent.toTree_bind (h : tree.Coherent) (name : String) (symbol : IndexedSymbol) :
    (tree.bind name symbol).toTree = tree.toTree.bind name symbol.toSymbol := by
  rw [IndexedTree.bind, SymbolTree.bind, name_toTree, ← IndexedSymbol.toSymbol_attach]
  split
  · next found put hfound =>
    have hslot := h.slot hfound
    have hname : name ∈ tree.toTree.entries.map Prod.fst :=
      mem_names_toTree.2 (h.mem_of_slot? hfound)
    rw [hslot.adjusted _ (fun _ => (symbol.attach tree.name name).toSymbol) rfl,
      bindEntry_of_mem hname]
    exact SymbolTree.ext' (name_toTree tree) rfl
  · next hslot =>
    have hname : name ∉ tree.toTree.entries.map Prod.fst := fun hmem =>
      h.not_mem_of_slot? hslot (mem_names_toTree.1 hmem)
    rw [bindEntry_of_not_mem hname]
    refine SymbolTree.ext' ?_ ?_ <;> simp [entries_toTree, name_toTree]

/-- The slot of a name is at the symbol that the name finds. -/
theorem local?_of_slot? (h : tree.slot? name = some (symbol, put)) :
    tree.local? name = some symbol := by
  rw [← map_fst_slot?, h, Option.map_some]

/-- Storing into the tree without its index is storing into the tree. -/
theorem Sound.insert?_toTree (h : tree.Sound) (path : Path) (symbol : IndexedSymbol) :
    tree.toTree.insert? path symbol.toSymbol =
      if (tree.set path symbol).1 then some (tree.set path symbol).2.toTree else none := by
  induction path generalizing tree with
  | nil => rfl
  | cons first path ih =>
    cases path with
    | nil =>
      rw [SymbolTree.insert?, IndexedTree.set, h.coherent.toTree_bind]
      rfl
    | cons next path =>
      rw [SymbolTree.insert?_cons_cons, set_cons_cons, h.coherent.local?_toTree]
      cases hfound : tree.slot? first with
      | none =>
        rw [h.coherent.local?_of_not_mem (h.coherent.not_mem_of_slot? hfound)]
        rfl
      | some slot =>
        obtain ⟨outer, put⟩ := slot
        have hslot := h.coherent.slot hfound
        have hlocal := local?_of_slot? hfound
        cases htree : outer.tree? with
        | none => simp [hlocal, IndexedSymbol.tree?_toSymbol, htree]
        | some inner =>
          have hinner := ih (h.of_local? hlocal htree)
          simp only [hlocal, Option.map_some, Option.bind_some, IndexedSymbol.tree?_toSymbol, htree,
            hinner]
          split
          · rw [hslot.adjusted _ (·.mapTree fun _ => (inner.set (next :: path) symbol).2.toTree)
              (IndexedSymbol.toSymbol_withTree _ _).symm, Option.bind_some]
          · rfl

/-- A symbol that is not stored leaves the tree as it is. -/
theorem Sound.set_eq_self (h : tree.Sound) (hrefused : (tree.set path symbol).1 = false) :
    (tree.set path symbol).2 = tree := by
  induction path generalizing tree with
  | nil => rfl
  | cons first path ih =>
    cases path with
    | nil => cases hrefused
    | cons next path =>
      rw [set_cons_cons] at hrefused ⊢
      cases hfound : tree.slot? first with
      | none => rfl
      | some slot =>
        obtain ⟨outer, put⟩ := slot
        cases htree : outer.tree? with
        | none => simp [htree]
        | some inner =>
          simp only [hfound, htree] at hrefused ⊢
          rw [ih (h.of_local? (local?_of_slot? hfound) htree) hrefused,
            IndexedSymbol.withTree_of_tree? htree, (h.coherent.slot hfound).back]

/-- What is written to the place of a symbol is found there, and without the index it is an
adjustment of the tree. -/
theorem Sound.getMut?_spec (h : tree.Sound) (hfound : tree.getMut? path = some (symbol, put))
    (other : IndexedSymbol) :
    (put other).get? path = some other ∧
      (put other).toTree = tree.toTree.adjust path fun _ => other.toSymbol := by
  induction path generalizing tree put with
  | nil => cases hfound
  | cons first path ih =>
    cases path with
    | nil =>
      have hslot := h.coherent.slot hfound
      exact ⟨hslot.written other, hslot.adjusted other _ rfl⟩
    | cons next path =>
      rw [getMut?_cons_cons] at hfound
      obtain ⟨⟨outer, putOuter⟩, houter, hfound⟩ := Option.bind_eq_some_iff.1 hfound
      obtain ⟨inner, htree, hfound⟩ := Option.bind_eq_some_iff.1 hfound
      obtain ⟨⟨found, putInner⟩, hinner, heq⟩ := Option.bind_eq_some_iff.1 hfound
      cases heq
      have hslot := h.coherent.slot houter
      obtain ⟨hget, hadjust⟩ := ih (h.of_local? (local?_of_slot? houter) htree) hinner
      constructor
      · rw [get?_cons_cons, hslot.written, Option.bind_some, IndexedSymbol.tree?_withTree, htree]
        exact hget
      · rw [SymbolTree.adjust_cons_cons]
        refine hslot.adjusted _ _ ?_
        rw [IndexedSymbol.toSymbol_withTree, hadjust]
        -- the tree that was written to is the one inside the symbol
        refine Symbol.mapTree_congr fun t ht => ?_
        rw [IndexedSymbol.tree?_toSymbol, htree] at ht
        cases ht
        rfl

/-! ## Built trees -/

/-- The second tree is the first one, or lies inside it at any depth. -/
inductive Contains : IndexedTree → IndexedTree → Prop
  | self (tree : IndexedTree) : Contains tree tree
  | inside {tree inner nested : IndexedTree} {entry : String × IndexedSymbol}
      (hentry : entry ∈ tree.entries) (hinner : entry.2.tree? = some inner)
      (h : Contains inner nested) : Contains tree nested

/-- The tree is made by storing symbols in a new tree, one after the other, or lies inside such a
tree. The trees inside the symbols are made in the same way. -/
inductive Built : IndexedTree → Prop
  | new : Built empty
  | set {tree : IndexedTree} {symbol : IndexedSymbol} (htree : Built tree)
      (hsymbol : ∀ inner, symbol.tree? = some inner → Built inner) (name : String) :
      Built (tree.set (.ofName name) symbol).2
  | nested {tree inner : IndexedTree} (htree : Built tree) (h : tree.Contains inner) : Built inner

/-- All trees at any depth in a sound tree are sound. -/
theorem Sound.of_contains (h : tree.Sound) (hcontains : tree.Contains inner) : inner.Sound := by
  induction hcontains with
  | self => exact h
  | inside hentry hinner _ ih => exact ih (h.of_mem hentry hinner)

/-- Storing symbols keeps the index right at every depth. -/
theorem Built.sound (h : tree.Built) : tree.Sound := by
  induction h with
  | new => exact sound_empty
  | set _ _ name ih ihsymbol => exact ih.set (fun _ => Path.dotless_of_mem_ofName) ihsymbol
  | nested _ hcontains ih => exact ih.of_contains hcontains

/-- The tree is a map from dotted names to symbols that remembers the order of its names. What it
finds and stores is said of the tree without its index, which `find` and `findStored` relate to
it. -/
structure IsPathMap (tree : IndexedTree) : Prop where
  /-- The index is right in the tree and in every tree in it. -/
  coherent : ∀ nested, tree.Contains nested → nested.Coherent
  /-- The index finds what is found without it. -/
  find : ∀ name, (tree.find? name).map IndexedSymbol.toSymbol = tree.toTree.find? name
  /-- So does the index of the tree after a symbol has been stored whose own trees are built. -/
  findStored : ∀ name symbol, (∀ inner, symbol.tree? = some inner → inner.Built) →
    ∀ other, ((tree.set (.ofName name) symbol).2.find? other).map IndexedSymbol.toSymbol =
      (tree.set (.ofName name) symbol).2.toTree.find? other
  /-- Without the index, storing is storing into the tree without it. -/
  insert : ∀ name symbol, tree.toTree.insert? (.ofName name) symbol.toSymbol =
    if (tree.set (.ofName name) symbol).1 then some (tree.set (.ofName name) symbol).2.toTree
    else none
  /-- A symbol is refused exactly if a part of its name in front of a dot leads to no tree. -/
  refused : ∀ name symbol, (tree.set (.ofName name) symbol).1 = false ↔
    ∃ outer rest, name = outer ++ "." ++ rest ∧
      (tree.find? outer).bind IndexedSymbol.tree? = none
  /-- A symbol that is refused leaves the tree as it is. -/
  unchanged : ∀ name symbol, (tree.set (.ofName name) symbol).1 = false →
    (tree.set (.ofName name) symbol).2 = tree
  /-- A symbol that is not refused is stored, and other names and other trees are not affected. -/
  stores : ∀ name symbol, (tree.set (.ofName name) symbol).1 = true →
    tree.toTree.Stores name symbol.toSymbol (tree.set (.ofName name) symbol).2.toTree
  /-- What is found to be changed is what is found. -/
  same : ∀ name, (tree.getMut? (.ofName name)).map Prod.fst = tree.find? name
  /-- What is written to its place is found there. -/
  written : ∀ name symbol put, tree.getMut? (.ofName name) = some (symbol, put) →
    ∀ other, (put other).find? name = some other ∧
      (put other).toTree = tree.toTree.adjust (.ofName name) fun _ => other.toSymbol

/-- A tree that is made by storing symbols is a map from dotted names. -/
theorem Built.isPathMap (h : tree.Built) : tree.IsPathMap := by
  have hsound := h.sound
  -- most laws are those of the tree without indices, which stores and finds the same
  have hinsert := fun name symbol => hsound.insert?_toTree (.ofName name) symbol
  constructor
  case coherent => exact fun nested hcontains => (hsound.of_contains hcontains).coherent
  case find => exact fun name => (hsound.get?_toTree (.ofName name)).symm
  case findStored =>
    intro name symbol hsymbol other
    exact ((h.set hsymbol name).sound.get?_toTree (.ofName other)).symm
  case insert => exact hinsert
  case refused =>
    intro name symbol
    have hnone : (tree.set (.ofName name) symbol).1 = false ↔
        tree.toTree.insert? (.ofName name) symbol.toSymbol = none := by
      rw [hinsert]
      cases (tree.set (.ofName name) symbol).1 <;> simp
    have hfind : ∀ outer, (tree.toTree.find? outer).bind Symbol.tree? = none ↔
        (tree.find? outer).bind IndexedSymbol.tree? = none := by
      intro outer
      rw [SymbolTree.find?, hsound.get?_toTree, find?]
      cases tree.get? (.ofName outer) with
      | none => simp
      | some found => simp [IndexedSymbol.tree?_toSymbol]
    simp only [hnone, SymbolTree.insert?_eq_none_iff, hfind]
  case unchanged => exact fun name symbol => hsound.set_eq_self
  case stores =>
    intro name symbol hstored
    apply SymbolTree.stores_of_insert?
    rw [hinsert, if_pos hstored]
  case same => exact fun name => map_fst_getMut? tree (.ofName name)
  case written => exact fun name symbol put hfound => hsound.getMut?_spec hfound

/-- A label in a scope that is stored in another scope, next to a constant. -/
def nestedLabel : IndexedTree :=
  let outer := (empty.set (.ofName "outer") (.scope empty)).2
  let inner := (outer.set (.ofName "outer.inner") (.scope empty)).2
  let labelled := (inner.set (.ofName "outer.inner.loop") (.label ⟨3, 0⟩)).2
  (labelled.set (.ofName "value") (.constant 1)).2

/-- A label in a scope in a scope is kept as a map from paths. -/
theorem nestedLabel_isPathMap : nestedLabel.Built ∧ nestedLabel.IsPathMap := by
  have hscope : ∀ inner, (IndexedSymbol.scope empty).tree? = some inner → inner.Built := by
    intro inner hinner
    cases hinner
    exact .new
  have hlabel : ∀ inner, (IndexedSymbol.label ⟨3, 0⟩).tree? = some inner → inner.Built := nofun
  have hconstant : ∀ inner, (IndexedSymbol.constant 1).tree? = some inner → inner.Built := nofun
  have hbuilt : nestedLabel.Built :=
    .set (.set (.set (.set .new hscope _) hscope _) hlabel _) hconstant _
  exact ⟨hbuilt, hbuilt.isPathMap⟩

end IndexedTree

end ControlStore
