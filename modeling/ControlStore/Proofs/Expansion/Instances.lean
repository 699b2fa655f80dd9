import ControlStore.Proofs.Expansion.CallGraph
import ControlStore.Proofs.Expansion.Names
import ControlStore.Proofs.Expansion.Refusal
import ControlStore.Proofs.Layout.Link

/-!
# Names that expansion adds

Expansion only adds to the names of a host. A host has labels and, as expansion goes on, scopes of
instances, and a reference that was copied out of an instance has the scope of the instance as its
parent (`Site.Placed`). The new instance gets a name that is free there, so nothing is replaced:
`Site.Adds` says what a path finds after the expansion, which is what it found before, or the new
scope, or a label of the macro in it.

A path that finds something therefore does so for the rest of the run (`SymbolTree.Keeps`,
`Grows.keeps_of_expandsIn`). So no two instances of a host have the same path (`Grows.scope_ne`), and
there always is a place for the next one.
-/

namespace ControlStore

/-! ## Kinds of symbols -/

/-- What kind of symbol a name is bound to. -/
inductive Symbol.Kind where
  | constant
  | label
  | sequence
  | scope
  deriving DecidableEq, Repr

/-- The kind of a symbol. -/
def Symbol.kind : Symbol → Symbol.Kind
  | constant _ => .constant
  | label _ => .label
  | sequence _ _ => .sequence
  | scope _ => .scope

namespace Symbol

theorem kind_mapTree (f : SymbolTree → SymbolTree) (symbol : Symbol) :
    (symbol.mapTree f).kind = symbol.kind := by
  cases symbol <;> rfl

theorem kind_mapLabels (f : Label → Label) (symbol : Symbol) :
    (symbol.mapLabels f).kind = symbol.kind := by
  cases symbol <;> simp only [mapLabels, kind]

end Symbol

namespace SymbolTree

variable {tree inner : SymbolTree} {path other rest : Path} {key : String} {symbol added : Symbol}

/-! ## A symbol under a new name -/

/-- Adding entries at a path changes the tree at the path only. -/
theorem extend_eq_mapAt (tree : SymbolTree) (path : Path) (added : List (String × Symbol)) :
    tree.extend path added =
      mapAt (fun inner => { inner with entries := inner.entries ++ added }) path tree := by
  induction path generalizing tree with
  | nil => rfl
  | cons first path ih => rw [extend, mapAt, funext ih]

/-- No path starts with a name that the tree does not have. -/
theorem get?_of_not_mem (h : key ∉ tree.names) (rest : Path) : tree.get? (key :: rest) = none := by
  have hlocal : tree.local? key = none := lookup_eq_none h
  cases rest with
  | nil => exact hlocal
  | cons next rest => rw [get?_cons (List.cons_ne_nil _ _), hlocal, Option.bind_none]

/-- Off the new name, a path finds what it found, up to names that the new one joins. -/
theorem get?_extend_of_apart (tree : SymbolTree) (h : ¬path ++ [key] <+: other) :
    ∃ f, (tree.extend path [(key, added)]).get? other =
      (tree.get? other).map (Symbol.mapTree f) := by
  -- where nothing changes, the change is the identity
  have hsame : tree.get? other = (tree.get? other).map (Symbol.mapTree fun t => t) := by
    cases tree.get? other with
    | none => rfl
    | some s => rw [Option.map_some, Symbol.mapTree_id]
  rw [extend_eq_mapAt]
  -- three places: the path leads through the symbol, beside it, or behind the same parent
  by_cases hother : other <+: path
  · obtain ⟨rest, rfl⟩ := hother
    by_cases hne : other = []
    · subst hne
      exact ⟨id, rfl⟩
    · exact ⟨_, get?_mapAt_of_append hne _ rest tree⟩
  · refine ⟨fun t => t, Eq.trans ?_ hsame⟩
    by_cases hpath : path <+: other
    · obtain ⟨rest, rfl⟩ := hpath
      cases rest with
      | nil => simp at hother
      | cons first rest =>
        have hfirst : first ≠ key := by
          rintro rfl
          simp at h
        rw [get?_mapAt_append (List.cons_ne_nil _ _), get?_append (List.cons_ne_nil _ _)]
        congr 1
        funext inner
        refine get?_congr ?_ rest
        rw [local?, List.lookup_append, List.lookup_cons, beq_false_of_ne hfirst]
        exact Option.or_none
    · exact get?_mapAt_of_apart hpath hother

/-- At the new name a path finds the new symbol, or goes on in the symbol's tree. -/
theorem get?_extend_append (h : tree.descend path = some inner) (hnew : key ∉ inner.names)
    (added : Symbol) :
    (tree.extend path [(key, added)]).get? (path ++ [key]) = some added ∧
      ∀ rest ≠ [], (tree.extend path [(key, added)]).get? (path ++ key :: rest) =
        added.tree?.bind (·.get? rest) := by
  have hlocal : SymbolTree.local? { inner with entries := inner.entries ++ [(key, added)] } key =
      some added := by
    rw [local?, List.lookup_append, lookup_eq_none hnew]
    simp
  constructor
  · rw [get?_concat, descend_extend h, Option.bind_some, hlocal]
  · intro rest hrest
    rw [get?_append (List.cons_ne_nil _ _), descend_extend h, Option.bind_some, get?_cons hrest,
      hlocal, Option.bind_some]

/-- The second tree binds each name that the first one binds, to a symbol of the same kind. -/
def Keeps (locals grown : SymbolTree) : Prop :=
  ∀ name s, locals.find? name = some s → ∃ s', grown.find? name = some s' ∧ s'.kind = s.kind

theorem Keeps.refl (locals : SymbolTree) : locals.Keeps locals := fun _ s h => ⟨s, h, rfl⟩

/-- What is kept twice is kept. -/
theorem Keeps.trans {first second third : SymbolTree} (h : first.Keeps second)
    (h' : second.Keeps third) : first.Keeps third := by
  intro name s hs
  obtain ⟨s', hs', hkind'⟩ := h name s hs
  obtain ⟨s'', hs'', hkind''⟩ := h' name s' hs'
  exact ⟨s'', hs'', hkind''.trans hkind'⟩

/-- Adding entries without sequences adds no sequence. -/
theorem Sequenceless.extend (h : tree.Sequenceless) {name : String}
    {entries : List (String × Symbol)} (hentries : (⟨name, entries⟩ : SymbolTree).Sequenceless)
    (path : Path) : (tree.extend path entries).Sequenceless := by
  intro code locals hholds
  rcases holds_extend hholds with ⟨old, f, hold, heq⟩ | hnew
  · cases old with
    | constant value => cases heq
    | label l => cases heq
    | scope locals => cases heq
    | sequence code' locals' => exact h code' locals' hold
  · exact hentries code locals hnew

/-- What a path finds in a tree does not depend on the tree's name. -/
theorem get?_congr_entries {other : SymbolTree} (h : tree.entries = other.entries) (path : Path) :
    tree.get? path = other.get? path := by
  cases path with
  | nil => rfl
  | cons first rest => exact get?_congr (congrArg (List.lookup first) h) rest

/-- A path through a name that is free finds nothing. -/
theorem get?_through_new (h : tree.descend path = some inner) (hnew : key ∉ inner.names)
    (hother : path ++ [key] <+: other) : tree.get? other = none := by
  obtain ⟨rest, rfl⟩ := hother
  rw [List.append_assoc, get?_append (by simp), h]
  exact get?_of_not_mem hnew rest

section Splice

variable {locals labels : SymbolTree} {scope : String} {count : Nat}

/-- Storing a scope under a new name changes no kind. -/
theorem keeps_splice (h : locals.descend path = some tree) (hnew : key ∉ tree.names)
    (name : String) (start total count : Nat) (labels : List (String × Symbol)) :
    locals.Keeps (locals.splice path name key start total count labels) := by
  intro other s hs
  have hoff : ¬path ++ [key] <+: Path.ofName other := by
    intro hother
    rw [find?, get?_through_new h hnew hother] at hs
    cases hs
  obtain ⟨f, hf⟩ := get?_extend_of_apart (locals.mapLabels (Label.makeRoom start total count)) hoff
  rw [find?, splice, hf, get?_mapLabels, ← find?, hs]
  exact ⟨_, rfl, (Symbol.kind_mapTree _ _).trans (Symbol.kind_mapLabels _ _)⟩

/-- The new scope is found by its path, and a longer path finds a label in it. -/
theorem find?_splice (h : locals.descend path = some tree) (hnew : key ∉ tree.names)
    (start total count : Nat) (labels : SymbolTree) :
    (locals.splice path tree.name key start total count labels.entries).get? (path ++ [key]) =
        some (.scope
          ⟨qualify tree.name key, mapLabelEntries (Label.moveTo start count) labels.entries⟩) ∧
      ∀ rest ≠ [], (locals.splice path tree.name key start total count labels.entries).get?
        (path ++ key :: rest) =
          (labels.get? rest).map (Symbol.mapLabels (Label.moveTo start count)) := by
  -- making room moves labels only, so the parent is still found
  have hmoved := descend_mapLabels_of_eq h (Label.makeRoom start total count)
  obtain ⟨hscope, hinner⟩ := get?_extend_append hmoved (by rwa [names_mapLabels])
    (.scope ⟨qualify tree.name key, mapLabelEntries (Label.moveTo start count) labels.entries⟩)
  refine ⟨hscope, fun rest hrest => (hinner rest hrest).trans ?_⟩
  rw [Symbol.tree?, Option.bind_some, ← get?_mapLabels]
  exact get?_congr_entries (by rw [mapLabels_entries, mapLabelEntries_eq_map]) rest

/-- What is found after storing a scope was found before, or lies at the new name. -/
theorem prefix_of_get?_splice {name : String} {start total count : Nat}
    {labels : List (String × Symbol)}
    (hfound : (locals.splice path name key start total count labels).get? other = some symbol)
    (hfree : locals.get? other = none) : path ++ [key] <+: other := by
  by_contra hoff
  obtain ⟨f, hf⟩ := get?_extend_of_apart (locals.mapLabels (Label.makeRoom start total count)) hoff
  rw [splice, hf, get?_mapLabels, hfree] at hfound
  cases hfound

/-- Putting an instance into the labels of a host adds no sequence. -/
theorem OnlyLabels.sequenceless_splice (hlabels : labels.OnlyLabels count)
    (hlocals : locals.Sequenceless) (path : Path) (name key : String) (start total size : Nat) :
    (locals.splice path name key start total size labels.entries).Sequenceless := by
  -- the entry added is one scope of labels
  have hadded : (⟨"", [(key, .scope ⟨qualify name key,
      mapLabelEntries (Label.moveTo start size) labels.entries⟩)]⟩ : SymbolTree).Sequenceless := by
    intro code inner hholds
    obtain ⟨entry, hentry, hsymbol⟩ := holds_iff.1 hholds
    rw [List.mem_singleton.1 hentry] at hsymbol
    rcases hsymbol with hsymbol | ⟨tree, htree, hsymbol⟩
    · cases hsymbol
    · cases htree
      exact hlabels.sequenceless_mapLabelEntries _ _ code inner hsymbol
  exact (hlocals.mapLabels _).extend hadded path

end Splice

end SymbolTree

/-! ## The new instance -/

namespace Site

variable {site : Site} {symbols : SymbolTree}

/-- The path of the instance that the reference at a site is to be expanded to. -/
def scope (site : Site) : String := site.host.reference.scopePath site.host.locals

/-- The place of a new instance in its host. -/
structure Placed (site : Site) : Prop where
  /-- The reference is written in the host itself, or comes from an instance with a scope there. -/
  parent : site.host.reference.parent = "" ∨
    ∃ tree, site.host.locals.find? site.host.reference.parent = some (.scope tree)
  /-- The instance is named for its macro, and lies in the scope that the reference comes from. -/
  scope : ∃ n : Nat, site.scope =
    qualify site.host.reference.parent ("_" ++ site.host.reference.symbol ++ "_" ++ toString n)
  /-- Nothing has its path yet. -/
  free : site.host.locals.find? site.scope = none

/-- What the expansion of a macro with the given labels adds to its host, which has the names
`locals` afterwards. -/
structure Adds (site : Site) (labels locals : SymbolTree) : Prop where
  /-- Names of the host stay what they are. -/
  keeps : site.host.locals.Keeps locals
  /-- The scope of the instance has been bound. -/
  scope : ∃ tree, locals.find? site.scope = some (.scope tree)
  /-- The labels of the macro have been copied to the scope. They have moved up to where the copied
  steps start. -/
  label : ∀ name l, labels.local? name = some (.label l) →
    locals.find? (site.scope ++ "." ++ name) =
      some (.label { l with offset := l.offset + site.host.before.length })
  /-- Nothing else has been bound. -/
  only : ∀ name s, locals.find? name = some s → site.host.locals.find? name = none →
    name = site.scope ∨
      ∃ label l, name = site.scope ++ "." ++ label ∧ labels.local? label = some (.label l)

/-- An expansion stores the labels of the macro as a scope in its host. -/
theorem insert?_of_expand (hok : (site.expand symbols).result = .ok ()) :
    ∃ code labels steps locals,
      symbols.macroOf site.host.reference = .ok (code, labels) ∧
      (site.host.locals.mapLabels (Label.makeRoom site.host.before.length
        site.host.code.steps.length code.steps.length)).insert? (.ofName site.scope)
          (.scope (labels.mapLabels
            (Label.moveTo site.host.before.length code.steps.length))) = some locals ∧
      (site.expand symbols).state =
        site.rebuild symbols (site.host.before ++ steps ++ site.host.after) locals := by
  unfold expand at hok ⊢
  split at hok
  · cases hok
  · next inst steps hinst =>
    obtain ⟨code, hbody, hscope, -, hlength⟩ := instantiate_eq_ok hinst
    dsimp only at hok ⊢
    split at hok
    · cases hok
    · next locals hlocals =>
      rw [hscope, hlength] at hlocals
      exact ⟨code, inst.locals, steps, locals, hbody, hlocals, rfl⟩

end Site

namespace Tracks

variable {macros symbols : SymbolTree} {site : Site}

/-- The reference that is to be expanded next is pending in its host. -/
theorem pending_of_nextSite? (h : Tracks macros symbols) (hsite : symbols.nextSite? = some site) :
    Pending macros site.host.locals site.host.reference := by
  obtain ⟨hentries, hkind, hsteps⟩ := SymbolTree.entries_of_nextSite? hsite
  refine h.pending site.host.name _ _ ?_ hkind _ ?_
  · rw [hentries]
    exact List.mem_append_right _ (List.mem_cons_self ..)
  · rw [hsteps, references_append, references_reference_cons]
    exact List.mem_append_right _ (List.mem_cons_self ..)

/-- After an expansion the names of the host are those before it with a new scope among them. -/
theorem splice_of_expand (hmacros : macros.WellFormed) (h : Tracks macros symbols)
    (hsite : symbols.nextSite? = some site) (hok : (site.expand symbols).result = .ok ()) :
    ∃ code labels tree key steps,
      macros.IsMacro site.host.reference.symbol code labels ∧
      symbols.find? site.host.reference.symbol = some (.sequence code labels) ∧
      site.host.locals.descend (.ofScope site.host.reference.parent) = some tree ∧
      key ∉ tree.names ∧
      Path.ofName site.scope = .ofScope site.host.reference.parent ++ [key] ∧
      (site.expand symbols).state = site.rebuild symbols steps
        (site.host.locals.splice (.ofScope site.host.reference.parent) tree.name key
          site.host.before.length site.host.code.steps.length code.steps.length
          labels.entries) := by
  have hr := h.pending_of_nextSite? hsite
  obtain ⟨code, labels, steps, locals, hof, hlocals, hstate⟩ := Site.insert?_of_expand hok
  have hdef := h.expanding.isMacro _ _ _ (h.expanding.isMacro_of_macroOf hof).1
  -- a pending reference has a place for the scope, so the tree stored is the spliced one
  obtain ⟨tree, htree, hpath, hstored⟩ := hr.insert?_scope hmacros hdef
    site.host.before.length site.host.code.steps.length
  rw [Site.scope] at hlocals
  rw [hstored, Option.some.injEq] at hlocals
  subst hlocals
  refine ⟨code, labels, tree, _, _, hdef, (SymbolTree.macroOf_eq_ok hof).1, htree,
    site.host.reference.scopeKey_not_mem _, ?_, hstate⟩
  rw [Site.scope, hpath, Path.ofName_qualify _
    (Reference.dotless_scopeKey (hmacros.isWritten hdef).2 _)]

end Tracks

namespace Site

variable {site : Site}

/-- A host without sequences among its names, whose reference has its parent, places the instance:
under a scope, with a numbered name that is free. -/
theorem placed (hlocals : site.host.locals.Sequenceless)
    (htree : ∃ tree, site.host.locals.descend (.ofScope site.host.reference.parent) = some tree) :
    site.Placed := by
  obtain ⟨n, hpath, hfree, -⟩ := site.host.reference.scopePath_isLeast site.host.locals
  constructor
  case parent =>
    by_cases hparent : site.host.reference.parent = ""
    · exact .inl hparent
    · right
      obtain ⟨tree, htree⟩ := htree
      -- the parent is a scope: the labels of a host hold no sequence
      rw [Path.ofScope_of_ne hparent] at htree
      obtain ⟨symbol, hget, hinner⟩ :=
        SymbolTree.exists_get?_of_descend htree (Path.ofName_ne_nil _)
      cases symbol with
      | constant value => cases hinner
      | label l => cases hinner
      | scope locals => exact ⟨locals, hget⟩
      | sequence code locals =>
        exact absurd (SymbolTree.holds_of_get? hget) (hlocals code locals)
  case scope =>
    refine ⟨n, ?_⟩
    rw [scope, hpath, Reference.scopeStem, qualify]
    by_cases hparent : site.host.reference.parent = ""
    · simp [hparent]
    · have hdot : "._" = "." ++ "_" := rfl
      simp only [if_neg hparent, hdot, String.append_assoc]
  case free =>
    rw [scope, hpath]
    exact hfree

/-- A scope with the labels of a macro, under a name that is free, is all that is added. -/
theorem adds_splice {path : Path} {key : String} {tree labels : SymbolTree} {count : Nat}
    (hlabels : labels.OnlyLabels count)
    (htree : site.host.locals.descend path = some tree) (hnew : key ∉ tree.names)
    (hscope : Path.ofName site.scope = path ++ [key]) (total : Nat) :
    site.Adds labels
      (site.host.locals.splice path tree.name key site.host.before.length total count
        labels.entries) := by
  obtain ⟨hfound, hinner⟩ :=
    SymbolTree.find?_splice htree hnew site.host.before.length total count labels
  constructor
  case keeps => exact SymbolTree.keeps_splice htree hnew _ _ _ _ _
  case scope => exact ⟨_, by rw [SymbolTree.find?, hscope, hfound]⟩
  case label =>
    intro name l hl
    have hmem := mem_of_lookup_eq_some hl
    have hdotless := hlabels.dotless name (List.mem_map_of_mem hmem)
    obtain ⟨offset, hle, heq⟩ := hlabels.label _ hmem
    cases heq
    rw [SymbolTree.find?, Path.ofName_append, hscope, Path.ofName_of_dotless hdotless,
      List.append_assoc, List.singleton_append, hinner [name] (List.cons_ne_nil _ _),
      SymbolTree.get?, hl, Option.map_some, Symbol.mapLabels, Label.moveTo_of_le hle]
  case only =>
    intro name s hs hfree
    obtain ⟨rest, hrest⟩ := SymbolTree.prefix_of_get?_splice hs hfree
    -- a path that is found newly is that of the scope, or leads to a label in it
    by_cases hne : rest = []
    · rw [hne, List.append_nil, ← hscope] at hrest
      exact .inl (Path.ofName_injective hrest.symm)
    · right
      rw [SymbolTree.find?, ← hrest, List.append_assoc, List.singleton_append,
        hinner rest hne, Option.map_eq_some_iff] at hs
      obtain ⟨old, hold, -⟩ := hs
      obtain ⟨label, offset, rfl, hmem, -⟩ := hlabels.of_get? hold
      have hdotless := hlabels.dotless label (List.mem_map_of_mem hmem)
      refine ⟨label, { offset }, Path.ofName_injective ?_,
        (lookup_eq_some_iff hlabels.nodup).2 hmem⟩
      rw [← hrest, Path.ofName_append, hscope, Path.ofName_of_dotless hdotless]

end Site

/-! ## The whole run -/

/-- What is known about symbols during a run, and about the names of the hosts. -/
structure Grows (macros symbols : SymbolTree) : Prop where
  tracks : Tracks macros symbols
  /-- No sequence is bound inside a host. -/
  sequenceless : ∀ name code locals, (name, .sequence code locals) ∈ symbols.entries →
    code.isMacro = false → locals.Sequenceless

namespace Grows

variable {macros symbols next : SymbolTree} {site : Site}

/-- Before the run a host has labels only. -/
theorem start (hmacros : macros.WellFormed) : Grows macros macros :=
  ⟨.start hmacros, fun _ _ _ hmem _ => (hmacros.symbol _ hmem).labels.sequenceless⟩

/-- The host of the next reference is an entry of the program. -/
theorem mem_host (hsite : symbols.nextSite? = some site) :
    (site.host.name, .sequence site.host.code site.host.locals) ∈ symbols.entries := by
  obtain ⟨hentries, -, -⟩ := SymbolTree.entries_of_nextSite? hsite
  rw [hentries]
  exact List.mem_append_right _ (List.mem_cons_self ..)

/-- In a program that has grown by expansions the next instance is placed. -/
theorem placed (h : Grows macros symbols) (hsite : symbols.nextSite? = some site) :
    site.Placed := by
  obtain ⟨-, hkind, -⟩ := SymbolTree.entries_of_nextSite? hsite
  exact Site.placed (h.sequenceless _ _ _ (mem_host hsite) hkind)
    (h.tracks.pending_of_nextSite? hsite).scope

/-- One expansion adds an instance to its host, and leaves the other symbols alone. -/
theorem adds (hmacros : macros.WellFormed) (h : Grows macros symbols)
    (hsite : symbols.nextSite? = some site) (hok : (site.expand symbols).result = .ok ()) :
    ∃ code labels steps locals,
      symbols.find? site.host.reference.symbol = some (.sequence code labels) ∧
      site.Adds labels locals ∧ locals.Sequenceless ∧
      (site.expand symbols).state = site.rebuild symbols steps locals := by
  obtain ⟨code, labels, tree, key, steps, hdef, hfind, htree, hnew, hscope, hstate⟩ :=
    h.tracks.splice_of_expand hmacros hsite hok
  obtain ⟨-, hkind, -⟩ := SymbolTree.entries_of_nextSite? hsite
  have hlabels := (hmacros.isWritten hdef).1.labels
  refine ⟨code, labels, steps, _, hfind, Site.adds_splice hlabels htree hnew hscope _, ?_, hstate⟩
  exact hlabels.sequenceless_splice (h.sequenceless _ _ _ (mem_host hsite) hkind) _ _ _ _ _ _

/-- One expansion keeps what a grown program is. -/
theorem expandsTo (hmacros : macros.WellFormed) (h : Grows macros symbols)
    (hpass : symbols.ExpandsTo next) : Grows macros next := by
  refine ⟨h.tracks.expandsTo hmacros hpass, ?_⟩
  obtain ⟨site, hsite, hok, rfl⟩ := hpass
  obtain ⟨hentries, -, -⟩ := SymbolTree.entries_of_nextSite? hsite
  obtain ⟨_, _, steps, locals, -, -, hlocals, hstate⟩ := h.adds hmacros hsite hok
  intro name code names hmem hkind
  rw [hstate, Site.rebuild, List.mem_append, List.mem_cons] at hmem
  have hother : (name, .sequence code names) ∈ site.earlier ++ site.later →
      names.Sequenceless := by
    intro hmem
    -- an entry that is not the host was there before
    refine h.sequenceless name code names ?_ hkind
    rw [hentries, List.mem_append, List.mem_cons]
    exact (List.mem_append.1 hmem).imp_right .inr
  rcases hmem with hmem | heq | hmem
  · exact hother (List.mem_append_left _ hmem)
  · cases heq
    exact hlocals
  · exact hother (List.mem_append_right _ hmem)

/-- Any number of expansions keeps what a grown program is. -/
theorem expandsIn (hmacros : macros.WellFormed) (h : Grows macros symbols) {n : Nat}
    {final : SymbolTree} (hrun : SymbolTree.ExpandsIn n symbols final) : Grows macros final := by
  induction hrun with
  | refl symbols => exact h
  | head hfirst _ ih => exact ih (h.expandsTo hmacros hfirst)

/-- A pass keeps the names of every host. -/
theorem keeps_of_expandsTo (hmacros : macros.WellFormed) (h : Grows macros symbols)
    (hpass : symbols.ExpandsTo next) {name : String} {code : Code} {locals : SymbolTree}
    (hmem : (name, .sequence code locals) ∈ symbols.entries) :
    ∃ code' locals', (name, .sequence code' locals') ∈ next.entries ∧ locals.Keeps locals' := by
  obtain ⟨site, hsite, hok, rfl⟩ := hpass
  obtain ⟨hentries, -, -⟩ := SymbolTree.entries_of_nextSite? hsite
  obtain ⟨_, _, steps, grown, -, hadds, -, hstate⟩ := h.adds hmacros hsite hok
  rw [hstate, Site.rebuild]
  rw [hentries, List.mem_append, List.mem_cons] at hmem
  rcases hmem with hmem | heq | hmem
  · exact ⟨code, locals, List.mem_append_left _ hmem, .refl locals⟩
  · cases heq
    exact ⟨_, grown, List.mem_append_right _ (List.mem_cons_self ..), hadds.keeps⟩
  · exact ⟨code, locals, List.mem_append_right _ (List.mem_cons_of_mem _ hmem), .refl locals⟩

/-- A run keeps the names of every host. -/
theorem keeps_of_expandsIn (hmacros : macros.WellFormed) (h : Grows macros symbols) {n : Nat}
    {final : SymbolTree} (hrun : SymbolTree.ExpandsIn n symbols final) {name : String} {code : Code}
    {locals : SymbolTree} (hmem : (name, .sequence code locals) ∈ symbols.entries) :
    ∃ code' locals', (name, .sequence code' locals') ∈ final.entries ∧ locals.Keeps locals' := by
  induction hrun generalizing code locals with
  | refl symbols => exact ⟨code, locals, hmem, .refl locals⟩
  | head hfirst _ ih =>
    obtain ⟨code', locals', hmem', hkeeps⟩ := h.keeps_of_expandsTo hmacros hfirst hmem
    obtain ⟨code'', locals'', hmem'', hkeeps'⟩ := ih (h.expandsTo hmacros hfirst) hmem'
    exact ⟨code'', locals'', hmem'', hkeeps.trans hkeeps'⟩

/-- A symbol of the program is found by its name. -/
theorem find?_of_mem (hmacros : macros.WellFormed) (h : Grows macros symbols) {name : String}
    {symbol : Symbol} (hmem : (name, symbol) ∈ symbols.entries) :
    symbols.find? name = some symbol := by
  refine SymbolTree.find?_eq_of_mem ?_ ?_ hmem
  · rw [h.tracks.names]
    exact hmacros.nodup
  · rw [h.tracks.names]
    exact hmacros.dotless

/-- A later instance in the same host has another path. -/
theorem scope_ne (hmacros : macros.WellFormed) (h : Grows macros symbols) {n : Nat}
    {final : SymbolTree} {first second : Site} (hfirst : symbols.nextSite? = some first)
    (hpass : symbols.ExpandsTo next) (hrun : SymbolTree.ExpandsIn n next final)
    (hsecond : final.nextSite? = some second) (hhost : first.host.name = second.host.name) :
    first.scope ≠ second.scope := by
  have hnext := h.expandsTo hmacros hpass
  have hfinal := hnext.expandsIn hmacros hrun
  obtain ⟨site, hsite, hok, rfl⟩ := hpass
  cases hfirst.symm.trans hsite
  obtain ⟨_, _, steps, grown, -, hadds, -, hstate⟩ := h.adds hmacros hfirst hok
  have hgrown : (first.host.name, .sequence { first.host.code with steps } grown) ∈
      (first.expand symbols).state.entries := by
    rw [hstate, Site.rebuild]
    exact List.mem_append_right _ (List.mem_cons_self ..)
  obtain ⟨code, locals, hmem, hkeeps⟩ := hnext.keeps_of_expandsIn hmacros hrun hgrown
  -- the host has one entry, so the second instance is to join what the first one is in
  have hsame := (hfinal.find?_of_mem hmacros hmem).symm.trans
    (hhost ▸ hfinal.find?_of_mem hmacros (mem_host hsecond))
  cases hsame
  obtain ⟨tree, hscope⟩ := hadds.scope
  obtain ⟨kept, hkept, -⟩ := hkeeps _ _ hscope
  intro heq
  rw [heq, (hfinal.placed hsecond).free] at hkept
  cases hkept

end Grows

/-- Expansion only adds to the names of a host. Every instance is placed in its host under a path
that is free, and the expansion adds its scope and its labels. So there always is a place for an
instance, and two instances in a host have different paths. -/
theorem Program.expand_adds_instances {text : String} {program : Program}
    (hread : program.ReadFrom text) :
    (∀ n middle site, SymbolTree.ExpandsIn n program.symbols middle →
      middle.nextSite? = some site →
        middle.find? site.host.name = some (.sequence site.host.code site.host.locals) ∧
        site.Placed ∧
        ∀ next, middle.ExpandsTo next → ∃ code labels host locals,
          middle.find? site.host.reference.symbol = some (.sequence code labels) ∧
          next.find? site.host.name = some (.sequence host locals) ∧ site.Adds labels locals) ∧
    (∀ path line, ¬Program.expand.Fails program (.scope path line)) ∧
    ∀ m n first second start next final, SymbolTree.ExpandsIn m program.symbols start →
      start.nextSite? = some first → start.ExpandsTo next → SymbolTree.ExpandsIn n next final →
        final.nextSite? = some second → first.host.name = second.host.name →
          first.scope ≠ second.scope := by
  have hsymbols := hread.wellFormed.symbols
  have hgrows : ∀ {n middle}, SymbolTree.ExpandsIn n program.symbols middle →
      Grows program.symbols middle := (Grows.start hsymbols).expandsIn hsymbols
  refine ⟨fun n middle site hrun hsite => ?_, fun path line hfails => ?_, ?_⟩
  · have hmiddle := hgrows hrun
    refine ⟨hmiddle.find?_of_mem hsymbols (Grows.mem_host hsite), hmiddle.placed hsite, ?_⟩
    intro next hpass
    have hnext := hmiddle.expandsTo hsymbols hpass
    obtain ⟨site', hsite', hok, rfl⟩ := hpass
    cases hsite.symm.trans hsite'
    obtain ⟨code, labels, steps, locals, hfind, hadds, -, hstate⟩ :=
      hmiddle.adds hsymbols hsite hok
    refine ⟨code, labels, { site.host.code with steps }, locals, hfind, ?_, hadds⟩
    apply hnext.find?_of_mem hsymbols
    rw [hstate, Site.rebuild]
    exact List.mem_append_right _ (List.mem_cons_self ..)
  · exact Program.justified_of_fails hsymbols hfails
  · intro m n first second start next final hrun hfirst hpass hrest hsecond hhost
    exact (hgrows hrun).scope_ne hsymbols hfirst hpass hrest hsecond hhost

/-- A text with a macro that uses another one, in a sequence with a label that is named like an
instance. -/
def nestedText : String :=
  "config { controlwordwidth 3 microprogramlength 1 opwidth 1 bankmask 0 } " ++
  "macro inner { ::x:: } macro outer { inner() inner() } sequence s { ::_outer_0:: outer() }"

/-- The first instance of the text goes beside the label. -/
theorem read_nestedText :
    ((Reader.readText nestedText).run {}).result = .ok () ∧
      (Program.ofText nestedText).symbols.nextSite?.map Site.scope = some "_outer_1" := by
  decide +kernel

/-- The first expansion in the text is placed, and there is a place for all of them. -/
theorem Program.expand_adds_instances_nestedText :
    (ofText nestedText).ReadFrom nestedText ∧
      (∀ path line, ¬Program.expand.Fails (ofText nestedText) (.scope path line)) ∧
      ∃ site, (ofText nestedText).symbols.nextSite? = some site ∧ site.scope = "_outer_1" ∧
        site.Placed := by
  obtain ⟨hok, hscope⟩ := read_nestedText
  have hread := readFrom_ofText hok
  obtain ⟨site, hsite, hpath⟩ := Option.map_eq_some_iff.1 hscope
  obtain ⟨hsteps, hfails, -⟩ := Program.expand_adds_instances hread
  exact ⟨hread, hfails, site, hsite, hpath, (hsteps 0 _ site (.refl _) hsite).2.1⟩

end ControlStore
