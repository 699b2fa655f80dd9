import ControlStore.Sequence
import ControlStore.Text.Split

/-!
# Symbols

Names are bound in trees. A symbol is a constant, a label, a sequence (or macro) with its own
names, or a scope that only holds names. Names of an inner tree are reached by dotted paths.

A tree keeps its entries in the order in which their names were first bound, and knows its own
dotted name, which is refreshed when the tree is stored in another one.
-/

namespace ControlStore

mutual

/-- What a name can be bound to. -/
inductive Symbol where
  | constant (value : Int)
  | label (label : Label)
  | sequence (code : Code) (locals : SymbolTree)
  | scope (locals : SymbolTree)

/-- Named symbols in the order of their first binding, under the dotted name of the tree. The name
is empty for a tree that is not stored in another one. -/
structure SymbolTree where
  name : String
  entries : List (String × Symbol)

end

/-- A dotted path, segment by segment. -/
abbrev Path := List String

/-- The path that a dotted name spells. It has at least one segment, and empty segments count. -/
def Path.ofName (name : String) : Path := (splitAll '.' name.toList).map String.ofList

/-- The dotted name of `name` inside the tree called `parent`. -/
def qualify (parent name : String) : String :=
  if parent = "" then name else parent ++ "." ++ name

/-- Binds a name in a list of entries. A name that is bound already keeps its position. -/
def bindEntry (name : String) (symbol : Symbol) : List (String × Symbol) → List (String × Symbol)
  | [] => [(name, symbol)]
  | (key, old) :: rest =>
    if key = name then (key, symbol) :: rest else (key, old) :: bindEntry name symbol rest

/-- Changes the symbol that is bound to a name. -/
def adjustEntry (name : String) (f : Symbol → Symbol) :
    List (String × Symbol) → List (String × Symbol)
  | [] => []
  | (key, symbol) :: rest =>
    if key = name then (key, f symbol) :: rest else (key, symbol) :: adjustEntry name f rest

mutual

/-- Renames a symbol's tree, and the trees inside it, for the place it is stored at. -/
def Symbol.attach (parent key : String) : Symbol → Symbol
  | .constant value => .constant value
  | .label label => .label label
  | .sequence code locals => .sequence code (locals.attach parent key)
  | .scope locals => .scope (locals.attach parent key)

/-- Gives a tree the name of the place `key` in the tree called `parent`. -/
def SymbolTree.attach (parent key : String) : SymbolTree → SymbolTree
  | ⟨_, entries⟩ => ⟨qualify parent key, attachEntries (qualify parent key) entries⟩

/-- Renames all trees among the entries of the tree called `parent`. -/
def attachEntries (parent : String) : List (String × Symbol) → List (String × Symbol)
  | [] => []
  | (key, symbol) :: rest => (key, symbol.attach parent key) :: attachEntries parent rest

end

mutual

/-- Changes every label of a symbol, at any depth. -/
def Symbol.mapLabels (f : Label → Label) : Symbol → Symbol
  | .constant value => .constant value
  | .label label => .label (f label)
  | .sequence code locals => .sequence code (locals.mapLabels f)
  | .scope locals => .scope (locals.mapLabels f)

/-- Changes every label of a tree, at any depth. -/
def SymbolTree.mapLabels (f : Label → Label) : SymbolTree → SymbolTree
  | ⟨name, entries⟩ => ⟨name, mapLabelEntries f entries⟩

/-- Changes every label among the entries of a tree, at any depth. -/
def mapLabelEntries (f : Label → Label) : List (String × Symbol) → List (String × Symbol)
  | [] => []
  | (key, symbol) :: rest => (key, symbol.mapLabels f) :: mapLabelEntries f rest

end

mutual

/-- The labels of the symbol called `name`, each with its dotted name. -/
def Symbol.labels (name : String) : Symbol → List (String × Label)
  | .constant _ => []
  | .label label => [(name, label)]
  | .sequence _ locals => locals.labelsUnder name
  | .scope locals => locals.labelsUnder name

/-- The labels of a tree with their dotted names inside the tree called `parent`. -/
def SymbolTree.labelsUnder (parent : String) : SymbolTree → List (String × Label)
  | ⟨_, entries⟩ => labelEntries parent entries

/-- The labels among the entries of the tree called `parent`, with their dotted names. -/
def labelEntries (parent : String) : List (String × Symbol) → List (String × Label)
  | [] => []
  | (key, symbol) :: rest => symbol.labels (qualify parent key) ++ labelEntries parent rest

end

namespace Symbol

/-- The tree of names inside a symbol. -/
def tree? : Symbol → Option SymbolTree
  | constant _ => none
  | label _ => none
  | sequence _ locals => some locals
  | scope locals => some locals

/-- The same symbol with its tree of names changed. -/
def mapTree (f : SymbolTree → SymbolTree) : Symbol → Symbol
  | constant value => constant value
  | label l => label l
  | sequence code locals => sequence code (f locals)
  | scope locals => scope (f locals)

/-- The number that a symbol stands for once the program is placed. Macros and scopes stand for
none. -/
def resolve : Symbol → Option Int
  | constant value => some value
  | label l => some (ofPattern l.address)
  | sequence code _ => if code.isMacro then none else some (ofPattern code.address)
  | scope _ => none

/-- Is the symbol a sequence that takes up words of the store? -/
def isPlaced : Symbol → Bool
  | sequence code _ => !code.isMacro
  | _ => false

/-- Changes the steps of a sequence. -/
def mapSteps (f : List Step → List Step) : Symbol → Symbol
  | sequence code locals => sequence { code with steps := f code.steps } locals
  | other => other

/-- Gives a sequence, and all labels in it, the address of its first step. -/
def placeAt (address : Nat) : Symbol → Symbol
  | sequence code locals =>
    sequence { code with address } (locals.mapLabels fun label => { label with base := address })
  | other => other

end Symbol

namespace SymbolTree

/-- The tree without names. -/
def empty : SymbolTree := ⟨"", []⟩

instance : Inhabited SymbolTree := ⟨empty⟩

instance : EmptyCollection SymbolTree := ⟨empty⟩

/-- The names bound directly in the tree, in order. -/
def names (tree : SymbolTree) : List String := tree.entries.map Prod.fst

/-- The symbol bound directly in the tree to a name. -/
def local? (tree : SymbolTree) (name : String) : Option Symbol := tree.entries.lookup name

/-- Is the name bound directly in the tree? -/
def contains (tree : SymbolTree) (name : String) : Bool := (tree.local? name).isSome

/-- The symbol at a path. -/
def get? : SymbolTree → Path → Option Symbol
  | _, [] => none
  | tree, [name] => tree.local? name
  | tree, name :: path => do (← (← tree.local? name).tree?).get? path

/-- The symbol with the given dotted name. -/
def find? (tree : SymbolTree) (name : String) : Option Symbol := tree.get? (.ofName name)

/-- Binds a name directly in the tree, and renames the symbol's own tree for its new place. -/
def bind (tree : SymbolTree) (name : String) (symbol : Symbol) : SymbolTree :=
  { tree with entries := bindEntry name (symbol.attach tree.name name) tree.entries }

/-- Binds a symbol at a path, unless a segment before the last is missing or holds no names. -/
def insert? : SymbolTree → Path → Symbol → Option SymbolTree
  | _, [], _ => none
  | tree, [name], symbol => some (tree.bind name symbol)
  | tree, name :: path, symbol => do
    let inner ← (← (← tree.local? name).tree?).insert? path symbol
    return { tree with entries := adjustEntry name (·.mapTree fun _ => inner) tree.entries }

/-- Changes the symbol at a path, if there is one. -/
def adjust : SymbolTree → Path → (Symbol → Symbol) → SymbolTree
  | tree, [], _ => tree
  | tree, [name], f => { tree with entries := adjustEntry name f tree.entries }
  | tree, name :: path, f =>
    { tree with entries := adjustEntry name (·.mapTree (·.adjust path f)) tree.entries }

/-- The names bound in the tree in which a path has its last segment. -/
def siblings : SymbolTree → Path → List String
  | _, [] => []
  | tree, [_] => tree.names
  | tree, name :: path =>
    match (tree.local? name).bind Symbol.tree? with
    | some inner => inner.siblings path
    | none => []

/-- All labels of the tree with their dotted names, in order. -/
def labels (tree : SymbolTree) : List (String × Label) := tree.labelsUnder ""

/-- Stores entries one after another in an empty tree. -/
def ofEntries (entries : List (String × Symbol)) : SymbolTree :=
  entries.foldl (fun tree (name, symbol) => (tree.insert? (.ofName name) symbol).getD tree) empty

end SymbolTree

end ControlStore
