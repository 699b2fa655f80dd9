import ControlStore.Proofs.Symbol.Built
import ControlStore.Proofs.Symbol.Growth

/-!
# Storing symbols

What storing a symbol under a dotted name does to a tree. `SymbolTree.mapAt` changes the tree at a
path. What a path leads to afterwards depends on how it lies to that path: it may go through the
changed tree, end above it, or part from it. Storing a symbol is such a change
(`SymbolTree.insert?_concat_eq`).

A symbol can be stored under a name exactly if every part of the name in front of a dot leads to a
tree (`SymbolTree.insert?_eq_none_iff`). `SymbolTree.Stores` is the account of a symbol that has been
stored: its name finds it, and all that does not lie inside it or around it is as it was.
-/

namespace ControlStore

/-! ## Spelling paths -/

namespace Path

/-- A path is spelled by one name only. -/
theorem ofName_injective {name other : String} (h : ofName name = ofName other) :
    name = other := by
  have hpieces : splitAll '.' name.toList = splitAll '.' other.toList :=
    (List.map_inj_right fun _ _ hsame => String.ofList_inj.1 hsame).1 h
  have htext := congrArg (['.'].intercalate ·) hpieces
  simpa only [intercalate_splitAll, String.toList_inj] using htext

/-- A path has a last segment, unless it is empty. -/
theorem exists_concat {path : Path} (h : path ≠ []) : ∃ init last, path = init ++ [last] :=
  ⟨_, _, (List.dropLast_concat_getLast h).symm⟩

/-- Every path with segments that have no dots is spelled by a name. -/
theorem exists_ofName_eq {path : Path} (hne : path ≠ []) (hdotless : ∀ s ∈ path, Dotless s) :
    ∃ name, ofName name = path := by
  induction path with
  | nil => exact absurd rfl hne
  | cons first path ih =>
    have hfirst := ofName_of_dotless (hdotless first (List.mem_cons_self ..))
    by_cases hpath : path = []
    · exact ⟨first, hpath ▸ hfirst⟩
    · obtain ⟨name, rfl⟩ := ih hpath fun s hs => hdotless s (List.mem_cons_of_mem _ hs)
      exact ⟨first ++ "." ++ name, by rw [ofName_append, hfirst]; rfl⟩

end Path

/-- The first name leads to something inside the second one. -/
def Inside (name outer : String) : Prop := ∃ inner, name = outer ++ "." ++ inner

/-- One path starts another exactly if their names are the same or one lies inside the other. -/
theorem ofName_prefix_iff {name outer : String} :
    Path.ofName outer <+: Path.ofName name ↔ name = outer ∨ Inside name outer := by
  constructor
  · rintro ⟨rest, hrest⟩
    by_cases hne : rest = []
    · left
      rw [hne, List.append_nil] at hrest
      exact Path.ofName_injective hrest.symm
    · right
      -- the rest of the path is spelled behind a dot, since its segments have none
      have hdotless : ∀ s ∈ rest, Dotless s := fun s hs =>
        Path.dotless_of_mem_ofName (hrest ▸ List.mem_append_right _ hs)
      obtain ⟨inner, rfl⟩ := Path.exists_ofName_eq hne hdotless
      rw [← Path.ofName_append] at hrest
      exact ⟨inner, Path.ofName_injective hrest.symm⟩
  · rintro (rfl | ⟨inner, rfl⟩)
    · exact List.prefix_refl _
    · rw [Path.ofName_append]
      exact List.prefix_append _ _

/-! ## Paths in parts -/

namespace SymbolTree

/-- A path leads on from where its beginning leads. -/
theorem descend_append (tree : SymbolTree) (path rest : Path) :
    tree.descend (path ++ rest) = (tree.descend path).bind (·.descend rest) := by
  induction path generalizing tree with
  | nil => rfl
  | cons first path ih =>
    rw [List.cons_append, descend, descend]
    cases tree.local? first with
    | none => rfl
    | some s => cases htree : s.tree? <;> simp [htree, ih]

/-- What is found at a path is found from where its beginning leads. -/
theorem get?_append {rest : Path} (hrest : rest ≠ []) (tree : SymbolTree) (path : Path) :
    tree.get? (path ++ rest) = (tree.descend path).bind (·.get? rest) := by
  obtain ⟨init, last, rfl⟩ := Path.exists_concat hrest
  rw [← List.append_assoc, get?_concat, descend_append, Option.bind_assoc]
  simp only [get?_concat]

/-- A name leads to the tree of the symbol that it finds. -/
theorem descend_ofName (tree : SymbolTree) (name : String) :
    tree.descend (.ofName name) = (tree.find? name).bind Symbol.tree? := by
  obtain ⟨init, last, hpath⟩ := Path.exists_concat (Path.ofName_ne_nil name)
  rw [find?, hpath, descend_concat, get?_concat, Option.bind_assoc]

theorem insert?_cons_cons (tree : SymbolTree) (first next : String) (path : Path)
    (symbol : Symbol) :
    tree.insert? (first :: next :: path) symbol =
      (tree.local? first).bind fun s => s.tree?.bind fun inner =>
        (inner.insert? (next :: path) symbol).bind fun inner =>
          some { tree with entries := adjustEntry first (·.mapTree fun _ => inner) tree.entries } :=
  rfl

theorem adjust_cons_cons (tree : SymbolTree) (first next : String) (path : Path)
    (f : Symbol → Symbol) :
    tree.adjust (first :: next :: path) f =
      { tree with
        entries := adjustEntry first (·.mapTree (·.adjust (next :: path) f)) tree.entries } :=
  rfl

end SymbolTree

/-! ## Changing the tree at a path -/

/-- Binding a name that is bound already changes its symbol. -/
theorem bindEntry_of_mem {entries : List (String × Symbol)} {name : String} {symbol : Symbol}
    (h : name ∈ entries.map Prod.fst) :
    bindEntry name symbol entries = adjustEntry name (fun _ => symbol) entries := by
  induction entries with
  | nil => exact absurd h List.not_mem_nil
  | cons entry rest ih =>
    obtain ⟨key, old⟩ := entry
    rw [bindEntry, adjustEntry]
    split
    · rfl
    · next hkey => rw [ih ((List.mem_cons.1 h).resolve_left fun heq => hkey heq.symm)]

/-- Looking up behind a binding finds the bound symbol or what was there. -/
theorem lookup_bindEntry {entries : List (String × Symbol)} {name other : String}
    {symbol : Symbol} :
    (bindEntry name symbol entries).lookup other =
      if other = name then some symbol else entries.lookup other := by
  induction entries with
  | nil =>
    rw [bindEntry, List.lookup_cons]
    by_cases h : other = name
    · simp [h]
    · simp [h, beq_false_of_ne h]
  | cons entry rest ih =>
    obtain ⟨key, old⟩ := entry
    rw [bindEntry]
    by_cases hkey : key = name
    · subst hkey
      by_cases hother : other = key
      · simp [hother]
      · simp [hother, List.lookup_cons, beq_false_of_ne hother]
    · rw [if_neg hkey, List.lookup_cons, List.lookup_cons, ih]
      by_cases hother : other = key
      · simp [hother, hkey]
      · simp [beq_false_of_ne hother]

namespace SymbolTree

/-- The tree with the tree at a path changed. -/
def mapAt (f : SymbolTree → SymbolTree) : Path → SymbolTree → SymbolTree
  | [], tree => f tree
  | name :: path, tree =>
    { tree with entries := adjustEntry name (·.mapTree (mapAt f path)) tree.entries }

variable {tree inner : SymbolTree} {f : SymbolTree → SymbolTree} {path other : Path}
  {name : String}

theorem local?_mapAt_cons (f : SymbolTree → SymbolTree) (first : String) (path : Path)
    (tree : SymbolTree) (name : String) :
    (mapAt f (first :: path) tree).local? name =
      if name = first then (tree.local? name).map (·.mapTree (mapAt f path))
      else tree.local? name :=
  lookup_adjustEntry _

theorem names_mapAt_cons (f : SymbolTree → SymbolTree) (first : String) (path : Path)
    (tree : SymbolTree) : (mapAt f (first :: path) tree).names = tree.names :=
  map_fst_adjustEntry _ _ _

/-- A path that goes through the changed tree goes on in it. -/
theorem descend_mapAt_append (f : SymbolTree → SymbolTree) (path rest : Path)
    (tree : SymbolTree) :
    (mapAt f path tree).descend (path ++ rest) =
      (tree.descend path).bind fun inner => (f inner).descend rest := by
  induction path generalizing tree with
  | nil => rfl
  | cons first path ih =>
    rw [List.cons_append, descend, descend, local?_mapAt_cons, if_pos rfl]
    cases tree.local? first with
    | none => rfl
    | some s => cases htree : s.tree? <;> simp [Symbol.tree?_mapTree, htree, ih]

/-- A path that ends above the changed tree ends at a tree that it is in. -/
theorem descend_mapAt_of_append (f : SymbolTree → SymbolTree) (path rest : Path)
    (tree : SymbolTree) :
    (mapAt f (path ++ rest) tree).descend path = (tree.descend path).map (mapAt f rest) := by
  induction path generalizing tree with
  | nil => rfl
  | cons first path ih =>
    rw [List.cons_append, descend, descend, local?_mapAt_cons, if_pos rfl]
    cases tree.local? first with
    | none => rfl
    | some s => cases htree : s.tree? <;> simp [Symbol.tree?_mapTree, htree, ih]

/-- A path that parts from that of the changed tree leads where it did. -/
theorem descend_mapAt_of_apart (h : ¬path <+: other) (h' : ¬other <+: path) :
    (mapAt f path tree).descend other = tree.descend other := by
  induction path generalizing tree other with
  | nil => exact absurd List.nil_prefix h
  | cons first path ih =>
    cases other with
    | nil => exact absurd List.nil_prefix h'
    | cons next other =>
      rw [descend, descend, local?_mapAt_cons]
      split
      · next heq =>
        subst heq
        rw [List.cons_prefix_cons, not_and] at h h'
        cases tree.local? next with
        | none => rfl
        | some s =>
          cases htree : s.tree? <;> simp [Symbol.tree?_mapTree, htree, ih (h rfl) (h' rfl)]
      · rfl

/-- A name at the end of a path through the changed tree is found in it. -/
theorem get?_mapAt_append {rest : Path} (hrest : rest ≠ []) (f : SymbolTree → SymbolTree)
    (path : Path) (tree : SymbolTree) :
    (mapAt f path tree).get? (path ++ rest) =
      (tree.descend path).bind fun inner => (f inner).get? rest := by
  obtain ⟨init, last, rfl⟩ := Path.exists_concat hrest
  rw [← List.append_assoc, get?_concat, descend_mapAt_append,
    Option.bind_assoc]
  simp only [get?_concat]

/-- A symbol above the changed tree holds it, if it holds anything. -/
theorem get?_mapAt_of_append (hpath : path ≠ []) (f : SymbolTree → SymbolTree) (rest : Path)
    (tree : SymbolTree) :
    (mapAt f (path ++ rest) tree).get? path = (tree.get? path).map (·.mapTree (mapAt f rest)) := by
  obtain ⟨init, last, rfl⟩ := Path.exists_concat hpath
  rw [List.append_assoc, List.singleton_append, get?_concat, get?_concat,
    descend_mapAt_of_append]
  cases tree.descend init with
  | none => rfl
  | some inner => exact (local?_mapAt_cons f last rest inner last).trans (if_pos rfl)

/-- A path that parts from that of the changed tree finds what it found. -/
theorem get?_mapAt_of_apart (h : ¬path <+: other) (h' : ¬other <+: path) :
    (mapAt f path tree).get? other = tree.get? other := by
  by_cases hother : other = []
  · subst hother
    rfl
  · obtain ⟨init, last, rfl⟩ := Path.exists_concat hother
    rw [get?_concat, get?_concat]
    by_cases hinit : init <+: path
    · -- the path parts from the other at its last segment
      obtain ⟨rest, rfl⟩ := hinit
      rw [descend_mapAt_of_append]
      cases rest with
      | nil => simp at h
      | cons next rest =>
        have hne : last ≠ next := by
          rintro rfl
          simp at h'
        cases tree.descend init with
        | none => rfl
        | some inner => exact (local?_mapAt_cons f next rest inner last).trans (if_neg hne)
    · rw [descend_mapAt_of_apart (fun hpath => h (hpath.trans (List.prefix_append _ _))) hinit]

/-! ## Storing -/

/-- The bound name finds the attached symbol, every other name what it found. -/
theorem local?_bind (tree : SymbolTree) (name : String) (symbol : Symbol) (other : String) :
    (tree.bind name symbol).local? other =
      if other = name then some (symbol.attach tree.name name) else tree.local? other :=
  lookup_bindEntry

/-- Storing a symbol binds it in the tree that the path leads to, if there is one. -/
theorem insert?_concat_eq (tree : SymbolTree) (path : Path) (name : String) (symbol : Symbol) :
    tree.insert? (path ++ [name]) symbol =
      (tree.descend path).map fun _ => mapAt (·.bind name symbol) path tree := by
  induction path generalizing tree with
  | nil => rfl
  | cons first path ih =>
    rw [List.cons_append, insert?, descend]
    · cases hlocal : tree.local? first with
      | none => rfl
      | some s =>
        cases htree : s.tree? with
        | none => simp [htree]
        | some inner =>
          simp only [Option.bind_eq_bind, Option.bind_some, htree, ih inner]
          cases inner.descend path with
          | none => rfl
          | some _ =>
            -- the symbol of that name is the one whose tree was stored in
            refine congrArg some (ext' rfl (adjustEntry_congr fun symbol hsymbol => ?_))
            refine Symbol.mapTree_congr fun t ht => ?_
            rw [local?, hsymbol] at hlocal
            cases hlocal
            rw [ht] at htree
            cases htree
            rfl
    · simp

/-- A symbol cannot be stored exactly if the path in front of its last segment leads to no tree. -/
theorem insert?_concat_eq_none_iff {symbol : Symbol} :
    tree.insert? (path ++ [name]) symbol = none ↔ tree.descend path = none := by
  rw [insert?_concat_eq, Option.map_eq_none_iff]

/-- Exactly the names with a part in front of a dot that leads to no tree cannot be stored. -/
theorem insert?_eq_none_iff {symbol : Symbol} :
    tree.insert? (.ofName name) symbol = none ↔
      ∃ outer rest, name = outer ++ "." ++ rest ∧ (tree.find? outer).bind Symbol.tree? = none := by
  obtain ⟨init, last, hpath⟩ := Path.exists_concat (Path.ofName_ne_nil name)
  rw [hpath, insert?_concat_eq_none_iff]
  constructor
  · intro hnone
    have hdotless : ∀ s ∈ init, Dotless s := fun s hs =>
      Path.dotless_of_mem_ofName (hpath ▸ List.mem_append_left _ hs)
    -- a name without dots is always bound, so the one refused has a part in front
    have hinit : init ≠ [] := by
      rintro rfl
      cases hnone
    obtain ⟨outer, rfl⟩ := Path.exists_ofName_eq hinit hdotless
    have hlast : Dotless last :=
      Path.dotless_of_mem_ofName (hpath ▸ List.mem_append_right _ (List.mem_singleton.2 rfl))
    refine ⟨outer, last, Path.ofName_injective ?_, (descend_ofName tree outer).symm.trans hnone⟩
    rw [hpath, Path.ofName_append, Path.ofName_of_dotless hlast]
  · rintro ⟨outer, rest, rfl, hnone⟩
    rw [← descend_ofName] at hnone
    obtain ⟨start, stop, hrest⟩ := Path.exists_concat (Path.ofName_ne_nil rest)
    rw [Path.ofName_append, hrest, ← List.append_assoc] at hpath
    rw [← (List.append_inj' hpath rfl).1, descend_append, hnone, Option.bind_none]

end SymbolTree

/-! ## Symbols without the names of their trees -/

mutual

/-- The symbol without the names that its trees have in the place it is stored at. -/
def Symbol.unnamed : Symbol → Symbol
  | .constant value => .constant value
  | .label label => .label label
  | .sequence code locals => .sequence code locals.unnamed
  | .scope locals => .scope locals.unnamed

/-- The tree without its name and the names of the trees in it. -/
def SymbolTree.unnamed : SymbolTree → SymbolTree
  | ⟨_, entries⟩ => ⟨"", unnamedEntries entries⟩

/-- The entries without the names of their trees. -/
def unnamedEntries : List (String × Symbol) → List (String × Symbol)
  | [] => []
  | (key, symbol) :: rest => (key, symbol.unnamed) :: unnamedEntries rest

end

theorem unnamedEntries_eq_map (entries : List (String × Symbol)) :
    unnamedEntries entries = entries.map fun entry => (entry.1, entry.2.unnamed) := by
  induction entries with
  | nil => rfl
  | cons entry rest ih => rw [unnamedEntries, ih, List.map_cons]

/-- Attaching a tree changes nothing but names of trees. -/
theorem SymbolTree.unnamed_attach (parent key : String) (tree : SymbolTree) :
    (tree.attach parent key).unnamed = tree.unnamed := by
  induction tree using SymbolTree.induction generalizing parent key with
  | tree name entries ih =>
    rw [attach, unnamed, unnamed, unnamedEntries_eq_map, unnamedEntries_eq_map,
      attachEntries_eq_map, List.map_map]
    refine ext' rfl (List.map_congr_left fun entry hentry => ?_)
    obtain ⟨key, symbol⟩ := entry
    have hinner := ih _ hentry
    cases symbol with
    | constant value => rfl
    | label l => rfl
    | sequence code locals =>
      simp only [Function.comp, Symbol.attach, Symbol.unnamed, hinner locals rfl]
    | scope locals => simp only [Function.comp, Symbol.attach, Symbol.unnamed, hinner locals rfl]

/-- Storing a symbol at another place changes the names of its trees only. -/
theorem Symbol.unnamed_attach (parent key : String) (symbol : Symbol) :
    (symbol.attach parent key).unnamed = symbol.unnamed := by
  cases symbol with
  | constant value => rfl
  | label l => rfl
  | sequence code locals => rw [attach, unnamed, unnamed, SymbolTree.unnamed_attach]
  | scope locals => rw [attach, unnamed, unnamed, SymbolTree.unnamed_attach]

/-! ## The laws of a path map -/

namespace SymbolTree

variable {tree stored : SymbolTree} {name : String} {symbol : Symbol}

/-- The second tree is the first one with a symbol stored under a dotted name. -/
structure Stores (tree : SymbolTree) (name : String) (symbol : Symbol) (stored : SymbolTree) :
    Prop where
  /-- The name finds the symbol. -/
  found : (stored.find? name).map Symbol.unnamed = some symbol.unnamed
  /-- A name that neither lies inside the name nor has it inside finds what it found. -/
  others : ∀ other, other ≠ name → ¬Inside other name → ¬Inside name other →
    stored.find? other = tree.find? other
  /-- A tree keeps its names in their order, unless the symbol is bound in it or holds it. -/
  order : ∀ path, (∀ last, Path.ofName name ≠ path ++ [last]) → ¬Path.ofName name <+: path →
    (stored.descend path).map names = (tree.descend path).map names
  /-- The tree in which the symbol is bound has the last segment where it was bound, or last. -/
  position : ∀ path last, Path.ofName name = path ++ [last] →
    ∃ outer inner, tree.descend path = some outer ∧ stored.descend path = some inner ∧
      inner.names = if last ∈ outer.names then outer.names else outer.names ++ [last]

/-- Trees that do not hold the changed tree, and that it does not hold, keep their names, and so do
those that hold it. -/
theorem names_descend_mapAt {f : SymbolTree → SymbolTree} {path other : Path}
    (hne : other ≠ path) (h : ¬path <+: other) :
    ((mapAt f path tree).descend other).map names = (tree.descend other).map names := by
  by_cases hother : other <+: path
  · obtain ⟨rest, rfl⟩ := hother
    rw [descend_mapAt_of_append, Option.map_map]
    cases rest with
    | nil => simp at hne
    | cons next rest => exact congrArg (Option.map · _) (funext (names_mapAt_cons f next rest))
  · rw [descend_mapAt_of_apart h hother]

/-- Binding a name does not change what is found under other names. -/
theorem get?_bind_of_ne {next : String} (h : next ≠ name) {rest : Path} :
    (tree.bind name symbol).get? (next :: rest) = tree.get? (next :: rest) := by
  have hlocal : (tree.bind name symbol).local? next = tree.local? next := by
    rw [local?_bind, if_neg h]
  cases rest with
  | nil => exact hlocal
  | cons first rest =>
    rw [get?_cons (List.cons_ne_nil _ _), hlocal, get?_cons (List.cons_ne_nil _ _)]

/-- Binding a name does not change where other names lead. -/
theorem descend_bind_of_ne {next : String} (h : next ≠ name) {rest : Path} :
    (tree.bind name symbol).descend (next :: rest) = tree.descend (next :: rest) := by
  rw [descend, descend, local?_bind, if_neg h]

/-- Storing a symbol changes what the laws of a path map say, and nothing else. -/
theorem stores_of_insert? (h : tree.insert? (.ofName name) symbol = some stored) :
    tree.Stores name symbol stored := by
  obtain ⟨init, last, hpath⟩ := Path.exists_concat (Path.ofName_ne_nil name)
  rw [hpath, insert?_concat_eq, Option.map_eq_some_iff] at h
  obtain ⟨outer, houter, rfl⟩ := h
  have hstored : (mapAt (·.bind last symbol) init tree).descend init =
      some (outer.bind last symbol) := by
    simpa [houter, descend] using descend_mapAt_append (·.bind last symbol) init [] tree
  constructor
  case found =>
    rw [find?, hpath, get?_concat, hstored, Option.bind_some, local?_bind, if_pos rfl,
      Option.map_some, Symbol.unnamed_attach]
  case others =>
    intro other hne hinside houtside
    -- neither name leads through the other, so their paths part somewhere
    have hparts : ¬Path.ofName name <+: Path.ofName other := fun hpre =>
      (ofName_prefix_iff.1 hpre).elim hne hinside
    have hparts' : ¬Path.ofName other <+: Path.ofName name := fun hpre =>
      (ofName_prefix_iff.1 hpre).elim (fun heq => hne heq.symm) houtside
    rw [hpath] at hparts hparts'
    rw [find?, find?]
    by_cases hinit : init <+: Path.ofName other
    · obtain ⟨rest, hrest⟩ := hinit
      rw [← hrest] at hparts hparts' ⊢
      cases rest with
      | nil => simp at hparts'
      | cons next rest =>
        have hnext : next ≠ last := by
          rintro rfl
          simp at hparts
        rw [get?_mapAt_append (List.cons_ne_nil _ _), get?_append (List.cons_ne_nil _ _), houter]
        exact get?_bind_of_ne hnext
    · exact get?_mapAt_of_apart hinit fun hpre =>
        hparts' (hpre.trans (List.prefix_append _ _))
  case order =>
    intro path hlast hpre
    rw [hpath] at hpre
    by_cases hinit : init <+: path
    · obtain ⟨rest, rfl⟩ := hinit
      cases rest with
      | nil => exact absurd (hpath.trans (by rw [List.append_nil])) (hlast last)
      | cons next rest =>
        have hnext : next ≠ last := by
          rintro rfl
          simp at hpre
        rw [descend_mapAt_append, descend_append, houter]
        exact congrArg (Option.map names) (descend_bind_of_ne hnext)
    · exact names_descend_mapAt (fun heq => hinit (heq ▸ List.prefix_refl _)) hinit
  case position =>
    intro path last' heq
    obtain ⟨rfl, hsame⟩ := List.append_inj' (hpath.symm.trans heq) rfl
    cases hsame
    exact ⟨outer, _, houter, hstored, names_bind outer last symbol⟩

end SymbolTree

end ControlStore
