import Mathlib.Data.List.Nodup
import ControlStore.Proofs.Symbol.Update

/-!
# Dotted names of trees and labels

A tree knows the dotted name of the place it is stored at, and the labels of a tree are listed with
theirs. `SymbolTree.At` says what lies where, by going from one tree into the next without looking
anything up. With it the two can be compared with lookup (`SymbolTree.Catalogued`).

Two things make them agree. In every tree the names are different and have no dots
(`SymbolTree.Regular`), so that a dotted name leads to one place. And the trees that are bound in a
tree are called by their places in it (`SymbolTree.Anchored`), which storing a symbol sees to all the
way down. The trees inside a symbol that is stored may be called anything before.

The empty name is the only one that gets lost in a dotted name, and only in the outermost tree, whose
own name is empty. So that is the one tree in which it must not be bound (`SymbolTree.IsRoot`).
-/

namespace ControlStore

/-! ## Places -/

theorem qualify_empty (name : String) : qualify "" name = name := if_pos rfl

theorem qualify_of_ne {parent : String} (h : parent ≠ "") (name : String) :
    qualify parent name = parent ++ "." ++ name :=
  if_neg h

/-- Below a name, no qualified name is empty. -/
theorem qualify_ne_empty_of_ne {parent : String} (h : parent ≠ "") (name : String) :
    qualify parent name ≠ "" := by
  rw [qualify_of_ne h]
  simp [h]

/-- A place inside a place is a place of its own, with a longer name. -/
theorem qualify_qualify {parent key : String} (h : qualify parent key ≠ "") (name : String) :
    qualify (qualify parent key) name = qualify parent (key ++ "." ++ name) := by
  rw [qualify_of_ne h]
  by_cases hparent : parent = ""
  · rw [hparent, qualify_empty, qualify_empty]
  · simp only [qualify_of_ne hparent, String.append_assoc]

/-- Names below the same parent differ if they are qualified differently. -/
theorem qualify_injective {parent name other : String}
    (h : qualify parent name = qualify parent other) : name = other := by
  by_cases hparent : parent = ""
  · rwa [hparent, qualify_empty, qualify_empty] at h
  · rw [qualify_of_ne hparent, qualify_of_ne hparent] at h
    simpa using h

namespace SymbolTree

variable {tree : SymbolTree} {name parent : String} {symbol : Symbol}

/-- The symbol lies at a place inside the tree, with the given dotted name. -/
inductive At : SymbolTree → String → Symbol → Prop
  | here {tree : SymbolTree} {key : String} {symbol : Symbol}
      (h : (key, symbol) ∈ tree.entries) : At tree key symbol
  | inside {tree inner : SymbolTree} {key name : String} {outer symbol : Symbol}
      (h : (key, outer) ∈ tree.entries) (hinner : outer.tree? = some inner)
      (hsymbol : At inner name symbol) : At tree (key ++ "." ++ name) symbol

/-- What lies inside a tree is bound in it, or lies inside a tree that is bound in it. -/
theorem at_iff : tree.At name symbol ↔ ∃ key outer, (key, outer) ∈ tree.entries ∧
    (name = key ∧ symbol = outer ∨
      ∃ inner rest, outer.tree? = some inner ∧ inner.At rest symbol ∧
        name = key ++ "." ++ rest) := by
  constructor
  · intro h
    cases h with
    | here hmem => exact ⟨_, _, hmem, .inl ⟨rfl, rfl⟩⟩
    | inside hmem hinner hsymbol => exact ⟨_, _, hmem, .inr ⟨_, _, hinner, hsymbol, rfl⟩⟩
  · rintro ⟨key, outer, hmem, ⟨rfl, rfl⟩ | ⟨inner, rest, hinner, hsymbol, rfl⟩⟩
    · exact .here hmem
    · exact .inside hmem hinner hsymbol

/-! ## Properties at every depth -/

/-- The property holds of the tree and of all trees inside it. -/
inductive Throughout (p : SymbolTree → Prop) : SymbolTree → Prop
  | intro {tree : SymbolTree} (here : p tree)
      (inner : ∀ entry ∈ tree.entries, ∀ inner, entry.2.tree? = some inner → Throughout p inner) :
      Throughout p tree

namespace Throughout

variable {p q : SymbolTree → Prop}

theorem here (h : Throughout p tree) : p tree := by
  cases h with
  | intro here _ => exact here

/-- What holds throughout a tree holds throughout the trees of its entries. -/
theorem of_mem (h : Throughout p tree) {entry : String × Symbol} (hentry : entry ∈ tree.entries)
    {inner : SymbolTree} (hinner : entry.2.tree? = some inner) : Throughout p inner := by
  cases h with
  | intro _ h => exact h entry hentry inner hinner

theorem imp (himp : ∀ tree, p tree → q tree) (h : Throughout p tree) : Throughout q tree := by
  induction h with
  | intro here _ ih => exact .intro (himp _ here) ih

/-- What holds throughout a tree holds throughout the tree of anything found in it. -/
theorem of_get? {path : Path} (h : Throughout p tree) (hget : tree.get? path = some symbol)
    {inner : SymbolTree} (hinner : symbol.tree? = some inner) : Throughout p inner := by
  induction path generalizing tree with
  | nil => cases hget
  | cons first path ih =>
    by_cases hpath : path = []
    · subst hpath
      exact h.of_mem (mem_of_lookup_eq_some hget) hinner
    · rw [get?_cons hpath, Option.bind_eq_some_iff] at hget
      obtain ⟨outer, houter, hget⟩ := hget
      obtain ⟨between, hbetween, hget⟩ := Option.bind_eq_some_iff.1 hget
      exact ih (h.of_mem (mem_of_lookup_eq_some houter) hbetween) hget

end Throughout

/-- The names bound in the tree are different and have no dots. -/
structure Regular (tree : SymbolTree) : Prop where
  nodup : tree.names.Nodup
  dotless : ∀ name ∈ tree.names, Dotless name

/-- The trees that are bound in the tree are called by their places in it. -/
structure Anchored (tree : SymbolTree) : Prop extends tree.Regular where
  name : ∀ entry ∈ tree.entries, ∀ inner, entry.2.tree? = some inner →
    inner.name = qualify tree.name entry.1

end SymbolTree

/-! ## Storing and moving -/

/-- An attached symbol has the attached tree. -/
theorem Symbol.tree?_attach (parent key : String) (symbol : Symbol) :
    (symbol.attach parent key).tree? = symbol.tree?.map (·.attach parent key) := by
  cases symbol <;> simp [attach, tree?]

namespace SymbolTree

variable {tree stored : SymbolTree} {name : String} {symbol : Symbol} {p : SymbolTree → Prop}

/-- An attached tree is named after its parent and its key. -/
theorem name_attach (parent key : String) (tree : SymbolTree) :
    (tree.attach parent key).name = qualify parent key := by
  cases tree
  rfl

theorem name_bind (tree : SymbolTree) (name : String) (symbol : Symbol) :
    (tree.bind name symbol).name = tree.name := rfl

/-- A change at a path that keeps names keeps the name of the tree. -/
theorem name_mapAt {f : SymbolTree → SymbolTree} (hname : ∀ inner, (f inner).name = inner.name)
    (path : Path) (tree : SymbolTree) : (mapAt f path tree).name = tree.name := by
  cases path with
  | nil => exact hname tree
  | cons first path => rfl

/-- Storing a tree gives all trees inside it the names of their places. -/
theorem Throughout.attach (h : Throughout Regular tree) (parent key : String) :
    Throughout Anchored (tree.attach parent key) := by
  induction h generalizing parent key with
  | @intro tree here _ ih =>
    -- the names inside become longer from the outside in, each tree below the new name of the one
    -- around it
    have hentries : (tree.attach parent key).entries =
        tree.entries.map fun entry => (entry.1, entry.2.attach (qualify parent key) entry.1) := by
      cases tree
      rw [SymbolTree.attach, attachEntries_eq_map]
    have hnames := names_attach parent key tree
    refine .intro ⟨⟨hnames ▸ here.nodup, hnames ▸ here.dotless⟩, ?_⟩ ?_
    · intro entry hentry inner hinner
      rw [hentries] at hentry
      obtain ⟨old, -, rfl⟩ := List.mem_map.1 hentry
      rw [Symbol.tree?_attach] at hinner
      obtain ⟨oldInner, -, rfl⟩ := Option.map_eq_some_iff.1 hinner
      rw [name_attach, name_attach]
    · intro entry hentry inner hinner
      rw [hentries] at hentry
      obtain ⟨old, hold, rfl⟩ := List.mem_map.1 hentry
      rw [Symbol.tree?_attach] at hinner
      obtain ⟨oldInner, holdInner, rfl⟩ := Option.map_eq_some_iff.1 hinner
      exact ih old hold oldInner holdInner _ _

/-- Binding a name without dots keeps the names regular. -/
theorem Regular.bind (h : tree.Regular) (hname : Dotless name) (symbol : Symbol) :
    (tree.bind name symbol).Regular := by
  refine ⟨nodup_names_bind h.nodup name symbol, fun other hother => ?_⟩
  rcases mem_names_bind hother with rfl | hother
  · exact hname
  · exact h.dotless other hother

/-- Binding a symbol keeps a tree regular, and the trees inside get the names of their places. -/
theorem Throughout.bind_regular (h : Throughout Regular tree) (hname : Dotless name)
    (hsymbol : ∀ inner, symbol.tree? = some inner → Throughout Regular inner) :
    Throughout Regular (tree.bind name symbol) := by
  refine .intro (h.here.bind hname symbol) fun entry hentry inner hinner => ?_
  rcases mem_bindEntry hentry with rfl | hold
  · rw [Symbol.tree?_attach] at hinner
    obtain ⟨old, hold, rfl⟩ := Option.map_eq_some_iff.1 hinner
    exact ((hsymbol old hold).attach _ _).imp fun _ => Anchored.toRegular
  · exact h.of_mem hold hinner

/-- Binding a regular symbol under a name without dots keeps all trees named after their places. -/
theorem Throughout.bind (h : Throughout Anchored tree) (hname : Dotless name)
    (hsymbol : ∀ inner, symbol.tree? = some inner → Throughout Regular inner) :
    Throughout Anchored (tree.bind name symbol) := by
  refine .intro ⟨h.here.toRegular.bind hname symbol, ?_⟩ ?_
  · intro entry hentry inner hinner
    rcases mem_bindEntry hentry with rfl | hold
    · rw [Symbol.tree?_attach] at hinner
      obtain ⟨old, -, rfl⟩ := Option.map_eq_some_iff.1 hinner
      exact name_attach _ _ _
    · exact h.here.name entry hold inner hinner
  · intro entry hentry inner hinner
    rcases mem_bindEntry hentry with rfl | hold
    · rw [Symbol.tree?_attach] at hinner
      obtain ⟨old, hold, rfl⟩ := Option.map_eq_some_iff.1 hinner
      exact (hsymbol old hold).attach _ _
    · exact h.of_mem hold hinner

/-- The property of a tree does not depend on what the trees bound in it are, but for their names. -/
def IgnoresInner (p : SymbolTree → Prop) : Prop :=
  ∀ tree first f, (∀ inner : SymbolTree, (f inner).name = inner.name) → p tree →
    p { tree with entries := adjustEntry first (·.mapTree f) tree.entries }

/-- Whether names are regular does not depend on the trees inside. -/
theorem ignoresInner_regular : IgnoresInner Regular := by
  intro tree first f _ h
  have hnames : ({ tree with entries := adjustEntry first (·.mapTree f) tree.entries } :
      SymbolTree).names = tree.names := map_fst_adjustEntry _ _ _
  exact ⟨hnames ▸ h.nodup, hnames ▸ h.dotless⟩

/-- Whether trees are named after their places does not depend on what is in them. -/
theorem ignoresInner_anchored : IgnoresInner Anchored := by
  intro tree first f hname h
  refine ⟨ignoresInner_regular tree first f hname h.toRegular, ?_⟩
  intro entry hentry inner hinner
  rcases mem_adjustEntry hentry with hold | ⟨old, hold, rfl⟩
  · exact h.name entry hold inner hinner
  · rw [Symbol.tree?_mapTree] at hinner
    obtain ⟨oldInner, holdInner, rfl⟩ := Option.map_eq_some_iff.1 hinner
    exact (hname oldInner).trans (h.name _ hold oldInner holdInner)

/-- Changing the tree at a path keeps what holds throughout, if it does so in that tree. -/
theorem Throughout.mapAt (hp : IgnoresInner p) {f : SymbolTree → SymbolTree}
    (hname : ∀ inner, (f inner).name = inner.name)
    (hf : ∀ inner, Throughout p inner → Throughout p (f inner)) (path : Path)
    (h : Throughout p tree) : Throughout p (SymbolTree.mapAt f path tree) := by
  induction path generalizing tree with
  | nil => exact hf tree h
  | cons first path ih =>
    refine .intro (hp tree first _ (name_mapAt hname path) h.here) ?_
    intro entry hentry inner hinner
    rcases mem_adjustEntry hentry with hold | ⟨old, hold, rfl⟩
    · exact h.of_mem hold hinner
    · rw [Symbol.tree?_mapTree] at hinner
      obtain ⟨oldInner, holdInner, rfl⟩ := Option.map_eq_some_iff.1 hinner
      -- the change is made inside one entry, whose tree keeps the property by induction
      exact ih (h.of_mem hold holdInner)

/-- Storing a symbol is binding it in the tree at a path. -/
theorem exists_mapAt_of_insert? (h : tree.insert? (.ofName name) symbol = some stored) :
    ∃ path last, Path.ofName name = path ++ [last] ∧ Dotless last ∧
      stored = mapAt (·.bind last symbol) path tree := by
  obtain ⟨path, last, hpath⟩ := Path.exists_concat (Path.ofName_ne_nil name)
  have hlast : Dotless last :=
    Path.dotless_of_mem_ofName (hpath ▸ List.mem_append_right _ (List.mem_singleton.2 rfl))
  rw [hpath, insert?_concat_eq] at h
  obtain ⟨_, -, rfl⟩ := Option.map_eq_some_iff.1 h
  exact ⟨path, last, hpath, hlast, rfl⟩

/-- Storing a symbol keeps the name of the tree. -/
theorem name_insert? (h : tree.insert? (.ofName name) symbol = some stored) :
    stored.name = tree.name := by
  obtain ⟨path, last, -, -, rfl⟩ := exists_mapAt_of_insert? h
  exact name_mapAt (fun inner => name_bind inner last symbol) path tree

/-- Storing a symbol keeps all trees called by their places. -/
theorem Throughout.insert? (h : Throughout Anchored tree)
    (hsymbol : ∀ inner, symbol.tree? = some inner → Throughout Regular inner)
    (hstored : tree.insert? (.ofName name) symbol = some stored) :
    Throughout Anchored stored := by
  obtain ⟨path, last, -, hlast, rfl⟩ := exists_mapAt_of_insert? hstored
  exact h.mapAt ignoresInner_anchored (fun inner => name_bind inner last symbol)
    (fun inner hinner => hinner.bind hlast hsymbol) path

/-- Built trees are regular at every depth. -/
theorem Built.regular (h : tree.Built) : Throughout Regular tree := by
  induction h with
  | new name => exact .intro ⟨List.nodup_nil, by simp [names]⟩ (by simp)
  | insert _ _ hstored ih ihsymbol =>
    obtain ⟨path, last, -, hlast, rfl⟩ := exists_mapAt_of_insert? hstored
    exact ih.mapAt ignoresInner_regular (fun inner => name_bind inner last _)
      (fun inner hinner => hinner.bind_regular hlast ihsymbol) path

/-- Moving labels changes no name. -/
theorem Throughout.mapLabels (hp : ∀ tree f, p tree → p (tree.mapLabels f))
    (h : Throughout p tree) (f : Label → Label) : Throughout p (tree.mapLabels f) := by
  induction h with
  | @intro tree here _ ih =>
    refine .intro (hp tree f here) fun entry hentry inner hinner => ?_
    rw [mapLabels_entries] at hentry
    obtain ⟨old, hold, rfl⟩ := List.mem_map.1 hentry
    rw [Symbol.tree?_mapLabels] at hinner
    obtain ⟨oldInner, holdInner, rfl⟩ := Option.map_eq_some_iff.1 hinner
    exact ih old hold oldInner holdInner

/-- Moving labels keeps the names regular. -/
theorem Regular.mapLabels (h : tree.Regular) (f : Label → Label) : (tree.mapLabels f).Regular := by
  have hnames := names_mapLabels f tree
  exact ⟨hnames ▸ h.nodup, hnames ▸ h.dotless⟩

/-- Moving labels keeps trees named after their places. -/
theorem Anchored.mapLabels (h : tree.Anchored) (f : Label → Label) :
    (tree.mapLabels f).Anchored := by
  refine ⟨h.toRegular.mapLabels f, fun entry hentry inner hinner => ?_⟩
  rw [mapLabels_entries] at hentry
  obtain ⟨old, hold, rfl⟩ := List.mem_map.1 hentry
  rw [Symbol.tree?_mapLabels] at hinner
  obtain ⟨oldInner, holdInner, rfl⟩ := Option.map_eq_some_iff.1 hinner
  rw [mapLabels_name, mapLabels_name]
  exact h.name old hold oldInner holdInner

/-! ## Looking up places -/

/-- What is found lies at the place that the name spells. -/
theorem at_of_get? {path : Path} (h : tree.get? path = some symbol)
    (hpath : Path.ofName name = path) : tree.At name symbol := by
  induction path generalizing tree name with
  | nil => exact absurd hpath (Path.ofName_ne_nil name)
  | cons first path ih =>
    by_cases hrest : path = []
    · subst hrest
      obtain ⟨-, rfl⟩ := Path.eq_of_ofName_eq_singleton hpath
      exact .here (mem_of_lookup_eq_some h)
    · rw [get?_cons hrest, Option.bind_eq_some_iff] at h
      obtain ⟨outer, houter, h⟩ := h
      obtain ⟨inner, hinner, h⟩ := Option.bind_eq_some_iff.1 h
      -- the rest of the path is spelled by the rest of the name
      have hdotless : ∀ s ∈ first :: path, Dotless s := fun s hs =>
        Path.dotless_of_mem_ofName (hpath ▸ hs)
      obtain ⟨rest, hspelled⟩ := Path.exists_ofName_eq hrest fun s hs =>
        hdotless s (List.mem_cons_of_mem _ hs)
      have hname : name = first ++ "." ++ rest := by
        apply Path.ofName_injective
        rw [hpath, Path.ofName_append, hspelled,
          Path.ofName_of_dotless (hdotless first (List.mem_cons_self ..))]
        rfl
      rw [hname]
      exact .inside (mem_of_lookup_eq_some houter) hinner (ih h hspelled)

/-- A symbol is found under the name of its place. -/
theorem At.find? (h : tree.At name symbol) (hregular : Throughout Regular tree) :
    tree.find? name = some symbol := by
  induction h with
  | here hmem => exact find?_eq_of_mem hregular.here.nodup hregular.here.dotless hmem
  | @inside tree inner key name outer symbol hmem hinner _ ih =>
    have hkey : Dotless key := hregular.here.dotless key (List.mem_map_of_mem hmem)
    have hlocal : tree.local? key = some outer := (lookup_eq_some_iff hregular.here.nodup).2 hmem
    rw [SymbolTree.find?, Path.ofName_append, Path.ofName_of_dotless hkey, List.singleton_append,
      get?_cons (Path.ofName_ne_nil name), hlocal, Option.bind_some, hinner, Option.bind_some]
    exact ih (hregular.of_mem hmem hinner)

/-- A dotted name finds exactly what lies at its place. -/
theorem find?_eq_some_iff_at (hregular : Throughout Regular tree) :
    tree.find? name = some symbol ↔ tree.At name symbol :=
  ⟨fun h => at_of_get? h rfl, fun h => h.find? hregular⟩

/-- A tree inside a tree is called by its place, behind the name of the outer tree. -/
theorem At.name_eq (h : tree.At name symbol) (hanchored : Throughout Anchored tree)
    (hclear : ∀ key ∈ tree.names, qualify tree.name key ≠ "") {inner : SymbolTree}
    (hinner : symbol.tree? = some inner) : inner.name = qualify tree.name name := by
  induction h with
  | here hmem => exact hanchored.here.name _ hmem inner hinner
  | @inside tree between key name outer symbol hmem hbetween _ ih =>
    have hname := hanchored.here.name _ hmem between hbetween
    have hne : between.name ≠ "" := hname ▸ hclear key (List.mem_map_of_mem hmem)
    rw [ih (hanchored.of_mem hmem hbetween) (fun key _ => qualify_ne_empty_of_ne hne key) hinner,
      hname, qualify_qualify (hname ▸ hne)]

/-! ## Lists of labels -/

/-- The labels of entries are listed entry by entry. -/
theorem labelEntries_eq_flatMap (parent : String) (entries : List (String × Symbol)) :
    labelEntries parent entries =
      entries.flatMap fun entry => entry.2.labels (qualify parent entry.1) := by
  induction entries with
  | nil => rfl
  | cons entry rest ih => rw [labelEntries, ih, List.flatMap_cons]

/-- The labels of a tree are listed entry by entry. -/
theorem labelsUnder_eq_flatMap (parent : String) (tree : SymbolTree) :
    tree.labelsUnder parent =
      tree.entries.flatMap fun entry => entry.2.labels (qualify parent entry.1) := by
  cases tree
  rw [labelsUnder, labelEntries_eq_flatMap]

end SymbolTree

/-- The labels of a symbol are itself, if it is one, or those of the tree in it. -/
theorem Symbol.mem_labels_iff {name other : String} {symbol : Symbol} {l : Label} :
    (other, l) ∈ symbol.labels name ↔ other = name ∧ symbol = .label l ∨
      ∃ inner, symbol.tree? = some inner ∧ (other, l) ∈ inner.labelsUnder name := by
  cases symbol <;> simp [labels, tree?, eq_comm]

namespace SymbolTree

variable {tree : SymbolTree} {name parent : String}

/-- The labels of a tree are listed by their places, behind the name that the tree is given. -/
theorem mem_labelsUnder_iff (hclear : ∀ key ∈ tree.names, qualify parent key ≠ "") {l : Label} :
    (name, l) ∈ tree.labelsUnder parent ↔
      ∃ place, tree.At place (.label l) ∧ name = qualify parent place := by
  induction tree using SymbolTree.induction generalizing name parent with
  | tree treeName entries ih =>
    -- in the trees inside, no place has the empty name
    have hinner : ∀ entry ∈ entries, ∀ inner, entry.2.tree? = some inner →
        ((name, l) ∈ inner.labelsUnder (qualify parent entry.1) ↔
          ∃ place, inner.At place (.label l) ∧
            name = qualify parent (entry.1 ++ "." ++ place)) := by
      intro entry hentry inner htree
      have hne : qualify parent entry.1 ≠ "" := hclear entry.1 (List.mem_map_of_mem hentry)
      rw [ih entry hentry inner htree fun key _ => qualify_ne_empty_of_ne hne key]
      simp only [qualify_qualify hne]
    rw [labelsUnder_eq_flatMap, List.mem_flatMap]
    simp only [Symbol.mem_labels_iff]
    constructor
    · rintro ⟨⟨key, outer⟩, hentry, ⟨rfl, rfl⟩ | ⟨inner, htree, hmem⟩⟩
      · exact ⟨key, .here hentry, rfl⟩
      · obtain ⟨place, hplace, rfl⟩ := (hinner _ hentry inner htree).1 hmem
        exact ⟨_, .inside hentry htree hplace, rfl⟩
    · rintro ⟨place, hplace, rfl⟩
      obtain ⟨key, outer, hentry, ⟨rfl, rfl⟩ | ⟨inner, rest, htree, hrest, rfl⟩⟩ := at_iff.1 hplace
      · exact ⟨_, hentry, .inl ⟨rfl, rfl⟩⟩
      · exact ⟨_, hentry, .inr ⟨inner, htree, (hinner _ hentry inner htree).2 ⟨rest, hrest, rfl⟩⟩⟩

/-- The labels of an entry are listed under names that start with the name of the entry. -/
theorem exists_place_of_mem_labels {key : String} {symbol : Symbol} (hkey : Dotless key)
    (hne : qualify parent key ≠ "") {l : Label} (h : (name, l) ∈ symbol.labels (qualify parent key)) :
    ∃ place, name = qualify parent place ∧ [key] <+: Path.ofName place := by
  rcases Symbol.mem_labels_iff.1 h with ⟨rfl, -⟩ | ⟨inner, -, hmem⟩
  · exact ⟨key, rfl, (Path.ofName_of_dotless hkey).symm ▸ List.prefix_refl _⟩
  · obtain ⟨rest, -, rfl⟩ :=
      (mem_labelsUnder_iff fun key _ => qualify_ne_empty_of_ne hne key).1 hmem
    refine ⟨_, qualify_qualify hne rest, ?_⟩
    rw [Path.ofName_append, Path.ofName_of_dotless hkey]
    exact List.prefix_append _ _

/-- No label is listed twice. -/
theorem nodup_labelsUnder (hregular : Throughout Regular tree)
    (hclear : ∀ key ∈ tree.names, qualify parent key ≠ "") :
    ((tree.labelsUnder parent).map Prod.fst).Nodup := by
  induction hregular generalizing parent with
  | @intro tree here _ ih =>
    have hne : ∀ entry ∈ tree.entries, qualify parent entry.1 ≠ "" := fun entry hentry =>
      hclear entry.1 (List.mem_map_of_mem hentry)
    rw [labelsUnder_eq_flatMap, List.map_flatMap, List.nodup_flatMap]
    constructor
    · intro entry hentry
      have hinner : ∀ inner, entry.2.tree? = some inner →
          ((inner.labelsUnder (qualify parent entry.1)).map Prod.fst).Nodup :=
        fun inner htree => ih entry hentry inner htree fun key _ =>
          qualify_ne_empty_of_ne (hne entry hentry) key
      -- an entry lists its own label, or those in its tree
      cases hsymbol : entry.2 with
      | constant value => exact List.nodup_nil
      | label l => exact List.nodup_singleton _
      | sequence code locals => exact hinner locals (by rw [hsymbol]; rfl)
      | scope locals => exact hinner locals (by rw [hsymbol]; rfl)
    · -- labels of different entries start with different names
      refine (List.pairwise_map.1 here.nodup).imp_of_mem fun {entry other} hentry hother hkeys => ?_
      intro listed hlisted hlisted'
      obtain ⟨⟨name, l⟩, hmem, rfl⟩ := List.mem_map.1 hlisted
      obtain ⟨⟨_, l'⟩, hmem', rfl⟩ := List.mem_map.1 hlisted'
      have hkey := here.dotless entry.1 (List.mem_map_of_mem hentry)
      have hkey' := here.dotless other.1 (List.mem_map_of_mem hother)
      obtain ⟨place, hplace, hstart⟩ := exists_place_of_mem_labels hkey (hne entry hentry) hmem
      obtain ⟨place', hplace', hstart'⟩ :=
        exists_place_of_mem_labels hkey' (hne other hother) hmem'
      cases qualify_injective (hplace.symm.trans hplace')
      have hsame := List.prefix_of_prefix_length_le hstart hstart' (Nat.le_refl 1)
      rw [List.cons_prefix_cons] at hsame
      exact hkeys hsame.1

/-- Changing labels changes them in the list, and nothing else in it. -/
theorem labelsUnder_mapLabels (f : Label → Label) (tree : SymbolTree) (parent : String) :
    (tree.mapLabels f).labelsUnder parent =
      (tree.labelsUnder parent).map fun listed => (listed.1, f listed.2) := by
  induction tree using SymbolTree.induction generalizing parent with
  | tree name entries ih =>
    rw [labelsUnder_eq_flatMap, labelsUnder_eq_flatMap, mapLabels_entries, List.flatMap_map,
      List.map_flatMap]
    refine List.flatMap_congr fun entry hentry => ?_
    obtain ⟨key, symbol⟩ := entry
    have hinner := ih _ hentry
    cases symbol with
    | constant value => rfl
    | label l => rfl
    | sequence code locals => exact hinner locals rfl _
    | scope locals => exact hinner locals rfl _

end SymbolTree

/-! ## Catalogues -/

/-- The second symbol is the first one, changed if it is a label. The tree inside it is called as
before and binds the same names in the same order. -/
inductive Symbol.Relabels (f : Label → Label) : Symbol → Symbol → Prop
  | constant (value : Int) : Relabels f (.constant value) (.constant value)
  | label (l : Label) : Relabels f (.label l) (.label (f l))
  | sequence (code : Code) {locals locals' : SymbolTree} (hname : locals'.name = locals.name)
      (hnames : locals'.names = locals.names) :
      Relabels f (.sequence code locals) (.sequence code locals')
  | scope {locals locals' : SymbolTree} (hname : locals'.name = locals.name)
      (hnames : locals'.names = locals.names) : Relabels f (.scope locals) (.scope locals')

namespace SymbolTree

variable {tree : SymbolTree} {name : String} {symbol : Symbol}

/-- The names of trees and the list of labels agree with what is found. -/
structure Catalogued (tree : SymbolTree) : Prop where
  /-- Only the empty name leads to the tree itself. -/
  root : tree.name = ""
  /-- A name finds exactly what lies at its place. -/
  found : ∀ name symbol, tree.find? name = some symbol ↔ tree.At name symbol
  /-- A tree inside is called by its place. -/
  named : ∀ name symbol inner, tree.At name symbol → symbol.tree? = some inner → inner.name = name
  /-- No name is listed twice. -/
  once : (tree.labels.map Prod.fst).Nodup
  /-- Exactly the labels at places inside are listed, by their places. -/
  listed : ∀ name l, (name, l) ∈ tree.labels ↔ tree.At name (.label l)
  /-- Changing all labels changes them in the list, under the same names in the same order. -/
  relisted : ∀ f, (tree.mapLabels f).labels =
    tree.labels.map fun listed => (listed.1, f listed.2)
  /-- The tree is called as before then, and binds the same names in the same order. -/
  kept : ∀ f, (tree.mapLabels f).name = tree.name ∧ (tree.mapLabels f).names = tree.names
  /-- What is found by a name is as before, but for the labels. -/
  relabelled : ∀ f name,
    Option.Rel (Symbol.Relabels f) (tree.find? name) ((tree.mapLabels f).find? name)

/-- A tree that is not inside another one: all trees in it are called by their places, and it does
not bind the empty name. -/
structure IsRoot (tree : SymbolTree) : Prop where
  root : tree.name = ""
  named : "" ∉ tree.names
  anchored : Throughout Anchored tree

/-- Moving labels relabels every symbol: a label moves, a tree has its labels moved, the rest stays.
-/
theorem relabels_mapLabels (f : Label → Label) (symbol : Symbol) :
    symbol.Relabels f (symbol.mapLabels f) := by
  cases symbol with
  | constant value => exact .constant value
  | label l => exact .label l
  | sequence code locals =>
    exact .sequence code (mapLabels_name f locals) (names_mapLabels f locals)
  | scope locals => exact .scope (mapLabels_name f locals) (names_mapLabels f locals)

/-- The symbols of a program are catalogued by their names. -/
theorem IsRoot.catalogued (h : tree.IsRoot) : tree.Catalogued := by
  -- names decide places and back: no name has a dot, and none is empty at the top
  have hregular : Throughout Regular tree := h.anchored.imp fun _ => Anchored.toRegular
  have hclear : ∀ key ∈ tree.names, qualify "" key ≠ "" := by
    rintro key hkey hempty
    rw [qualify_empty] at hempty
    exact h.named (hempty ▸ hkey)
  constructor
  case root => exact h.root
  case found => exact fun name symbol => find?_eq_some_iff_at hregular
  case named =>
    intro name symbol inner hat hinner
    have hname := hat.name_eq h.anchored (by rwa [h.root]) hinner
    rwa [h.root, qualify_empty] at hname
  case once => exact nodup_labelsUnder hregular hclear
  case listed =>
    intro name l
    rw [labels, mem_labelsUnder_iff hclear]
    simp only [qualify_empty, exists_eq_right']
  case relisted => exact fun f => labelsUnder_mapLabels f tree ""
  case kept => exact fun f => ⟨mapLabels_name f tree, names_mapLabels f tree⟩
  case relabelled =>
    intro f name
    rw [find?_mapLabels]
    cases tree.find? name with
    | none => exact .none
    | some found => exact .some (relabels_mapLabels f found)

/-! ## Storing one symbol after the other -/

/-- Symbols are stored one after the other in a new tree, under names that are not empty. A symbol
for which there is no place is left out. The trees inside symbols may come from anywhere. -/
inductive Rooted : SymbolTree → Prop
  | new : Rooted empty
  | store {tree : SymbolTree} {name : String} {symbol : Symbol} (htree : Rooted tree)
      (hname : name ≠ "")
      (hsymbol : ∀ inner, symbol.tree? = some inner → Throughout Regular inner) :
      Rooted ((tree.insert? (.ofName name) symbol).getD tree)

theorem isRoot_empty : empty.IsRoot where
  root := rfl
  named := List.not_mem_nil
  anchored := .intro ⟨⟨List.nodup_nil, by simp [names, empty]⟩, by simp [empty]⟩ (by simp [empty])

/-- A symbol that is stored keeps the outermost tree what it is. -/
theorem IsRoot.insert? {stored : SymbolTree} (h : tree.IsRoot) (hname : name ≠ "")
    (hsymbol : ∀ inner, symbol.tree? = some inner → Throughout Regular inner)
    (hstored : tree.insert? (.ofName name) symbol = some stored) : stored.IsRoot := by
  refine ⟨(name_insert? hstored).trans h.root, ?_, h.anchored.insert? hsymbol hstored⟩
  rcases names_insert? hstored with hnames | ⟨last, hpath, rfl⟩
  · rw [hnames]
    exact h.named
  · obtain ⟨-, rfl⟩ := Path.eq_of_ofName_eq_singleton hpath
    intro hempty
    rcases mem_names_bind hempty with heq | hold
    · exact hname heq.symm
    · exact h.named hold

/-- A tree that was stored into from the start is that of a program. -/
theorem Rooted.isRoot (h : tree.Rooted) : tree.IsRoot := by
  induction h with
  | new => exact isRoot_empty
  | @store tree name symbol _ hname hsymbol ih =>
    cases hstored : tree.insert? (.ofName name) symbol with
    | none => exact ih
    | some stored => exact ih.insert? hname hsymbol hstored

/-- A tree in which entries are stored one after the other is the outermost one. -/
theorem rooted_ofEntries {entries : List (String × Symbol)}
    (h : ∀ entry ∈ entries,
      entry.1 ≠ "" ∧ ∀ inner, entry.2.tree? = some inner → Throughout Regular inner) :
    (ofEntries entries).Rooted := by
  rw [ofEntries]
  generalize htree : SymbolTree.empty = tree
  have hrooted : tree.Rooted := htree ▸ .new
  clear htree
  induction entries generalizing tree with
  | nil => exact hrooted
  | cons entry rest ih =>
    obtain ⟨⟨hname, hsymbol⟩, hrest⟩ := List.forall_mem_cons.1 h
    exact ih hrest _ (.store hrooted hname hsymbol)

end SymbolTree

end ControlStore
