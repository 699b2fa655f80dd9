import ControlStore.Proofs.Expansion.Instances
import ControlStore.Proofs.Source.Naming
import ControlStore.Proofs.Symbol.Qualified

/-!
# Dotted names during expansion

The names of trees and the lists of labels agree with lookup (`SymbolTree.Catalogued`) in every tree
that is made by storing symbols, and in the symbols of every program that was read, before, during
and after its expansion (`SymbolTree.catalogued_stored_and_expanded`).

A program that was read binds trees with nothing but labels in them (`Program.ReadFrom.isRoot`). An
expansion moves labels and stores a copy of a macro's names in its host, where the copy gets the name
of its new place (`SymbolTree.IsRoot.expand`).
-/

namespace ControlStore

namespace SymbolTree

/-- A tree that holds nothing but labels holds no tree. -/
theorem OnlyLabels.anchored {count : Nat} {tree : SymbolTree} (h : tree.OnlyLabels count) :
    Throughout Anchored tree := by
  have hinner : ∀ entry ∈ tree.entries, ∀ inner, entry.2.tree? ≠ some inner := by
    intro entry hentry inner hinner
    obtain ⟨offset, -, heq⟩ := h.label entry hentry
    rw [heq] at hinner
    cases hinner
  exact .intro ⟨⟨h.nodup, h.dotless⟩, fun entry hentry inner htree =>
    absurd htree (hinner entry hentry inner)⟩ fun entry hentry inner htree =>
      absurd htree (hinner entry hentry inner)

end SymbolTree

/-- In a program that was read, the tree of each sequence is called by the sequence. -/
theorem Program.ReadFrom.isRoot {text : String} {program : Program} (h : program.ReadFrom text) :
    program.symbols.IsRoot := by
  have hsymbols := h.wellFormed.symbols
  -- only sequences and macros have a tree of their own, and it holds labels only
  have htree : ∀ entry ∈ program.symbols.entries, ∀ inner, entry.2.tree? = some inner →
      inner.name = qualify program.symbols.name entry.1 ∧
        SymbolTree.Throughout SymbolTree.Anchored inner := by
    rintro ⟨name, symbol⟩ hentry inner hinner
    have hsymbol := hsymbols.symbol _ hentry
    cases symbol with
    | constant value => cases hinner
    | label l => cases hinner
    | scope locals => exact hsymbol.elim
    | sequence code locals =>
      cases hinner
      exact ⟨h.named.tree name code _ hentry, hsymbol.labels.anchored⟩
  refine ⟨hsymbols.root, fun hempty => (h.named.name "" hempty).ne_empty rfl, ?_⟩
  exact .intro ⟨⟨hsymbols.nodup, hsymbols.dotless⟩, fun entry hentry inner hinner =>
    (htree entry hentry inner hinner).1⟩ fun entry hentry inner hinner =>
      (htree entry hentry inner hinner).2

namespace SymbolTree

variable {symbols : SymbolTree} {site : Site}

/-- A host may get other names, if the trees among them are called by their places. -/
theorem IsRoot.rebuild (h : symbols.IsRoot) (hsite : symbols.nextSite? = some site)
    {locals : SymbolTree} (hname : locals.name = site.host.locals.name)
    (hlocals : Throughout Anchored locals) (steps : List Step) :
    (site.rebuild symbols steps locals).IsRoot := by
  obtain ⟨hentries, -, -⟩ := entries_of_nextSite? hsite
  have hnames : (site.rebuild symbols steps locals).names = symbols.names := by
    rw [names, names, hentries]
    simp [Site.rebuild, Host.toEntry]
  -- an entry is that of the host or was there before
  have htree : ∀ entry ∈ (site.rebuild symbols steps locals).entries, ∀ inner,
      entry.2.tree? = some inner →
        inner.name = qualify symbols.name entry.1 ∧ Throughout Anchored inner := by
    intro entry hentry inner hinner
    have hold : ∀ old ∈ symbols.entries, old.2.tree? = some inner →
        inner.name = qualify symbols.name old.1 ∧ Throughout Anchored inner := fun old hold htree =>
      ⟨h.anchored.here.name old hold inner htree, h.anchored.of_mem hold htree⟩
    simp only [Site.rebuild, Host.toEntry, List.mem_append, List.mem_cons] at hentry
    rcases hentry with hearlier | rfl | hlater
    · exact hold entry (by simp [hentries, hearlier]) hinner
    · cases hinner
      refine ⟨?_, hlocals⟩
      rw [hname]
      exact h.anchored.here.name
        (site.host.name, .sequence site.host.code site.host.locals) (by simp [hentries]) _ rfl
    · exact hold entry (by simp [hentries, hlater]) hinner
  refine ⟨h.root, hnames ▸ h.named, .intro ⟨⟨?_, ?_⟩, ?_⟩ ?_⟩
  · exact hnames ▸ h.anchored.here.nodup
  · exact hnames ▸ h.anchored.here.dotless
  · exact fun entry hentry inner hinner => (htree entry hentry inner hinner).1
  · exact fun entry hentry inner hinner => (htree entry hentry inner hinner).2

/-- An expansion leaves all trees called by their places, whether it succeeds or not. -/
theorem IsRoot.expand (h : symbols.IsRoot) (hsite : symbols.nextSite? = some site) :
    (site.expand symbols).state.IsRoot := by
  obtain ⟨hentries, -, -⟩ := entries_of_nextSite? hsite
  have hhost : Throughout Anchored site.host.locals := by
    have hmem : (site.host.name, .sequence site.host.code site.host.locals) ∈ symbols.entries := by
      simp [hentries]
    exact h.anchored.of_mem hmem rfl
  unfold Site.expand
  split
  · exact h
  · next inst steps hinst =>
    unfold Site.instantiate at hinst
    obtain ⟨⟨code, scope⟩, hof, hrest⟩ := bind_eq_ok_iff.1 hinst
    obtain ⟨copies, -, heq⟩ := bind_eq_ok_iff.1 hrest
    obtain ⟨rfl, rfl⟩ := Prod.mk.inj (pure_eq_ok_iff.1 heq)
    obtain ⟨hfind, -, -⟩ := macroOf_eq_ok hof
    -- moving labels touches neither names nor nesting, also where the instance is then refused
    have hmoved := hhost.mapLabels (fun _ f htree => htree.mapLabels f)
      (Label.makeRoom site.host.before.length site.host.code.steps.length copies.length)
    have hscope : Throughout Regular scope :=
      (h.anchored.of_get? hfind rfl).imp fun _ => Anchored.toRegular
    dsimp only
    split
    · exact h.rebuild hsite (mapLabels_name _ _) hmoved _
    · next locals hlocals =>
      refine h.rebuild hsite ((name_insert? hlocals).trans (mapLabels_name _ _)) ?_ _
      refine hmoved.insert? (fun inner hinner => ?_) hlocals
      -- the copy of the macro's names may be called anything before it is stored
      cases hinner
      exact hscope.mapLabels (fun _ f htree => htree.mapLabels f) _

/-- Any number of expansions keeps the tree that of a program. -/
theorem IsRoot.expandsIn {n : Nat} {final : SymbolTree} (h : symbols.IsRoot)
    (hrun : ExpandsIn n symbols final) : final.IsRoot := by
  induction hrun with
  | refl symbols => exact h
  | head hfirst _ ih =>
    obtain ⟨site, hsite, -, rfl⟩ := hfirst
    exact ih (h.expand hsite)

/-- Expanding all macros takes as many expansions as it says. -/
theorem expandsIn_of_expand {n : Nat} {final : SymbolTree} (h : expand.Yields symbols n final) :
    ExpandsIn n symbols final := by
  obtain ⟨hresult, rfl⟩ := h
  rcases expandAll_run _ _ (Vocabulary.covers_ofSymbols symbols) with
    ⟨_, hok, hrun, -⟩ | ⟨_, _, _, _, -, -, -, hfails, -⟩
  · cases hok.symm.trans hresult
    exact hrun
  · cases hfails.symm.trans hresult

/-- The names of trees and the list of labels agree with lookup in every tree that is made by storing
symbols under names that are not empty. They do so in the symbols of a program that was read, after
any number of expansions, and also after one that fails. -/
theorem catalogued_stored_and_expanded :
    (∀ tree, Rooted tree → tree.Catalogued) ∧
    ∀ (text : String) (program : Program) (n : Nat) (symbols : SymbolTree),
      program.ReadFrom text → ExpandsIn n program.symbols symbols →
        symbols.Catalogued ∧
          ∀ site, symbols.nextSite? = some site → (site.expand symbols).state.Catalogued := by
  refine ⟨fun tree h => h.isRoot.catalogued, fun text program n symbols hread hrun => ?_⟩
  have hroot := hread.isRoot.expandsIn hrun
  exact ⟨hroot.catalogued, fun site hsite => (hroot.expand hsite).catalogued⟩

/-- A scope with a label and a constant. -/
def labelledScope : SymbolTree := .ofEntries [("here", .label { offset := 2 }), ("k", .constant 1)]

/-- The scope at three places. At the last one it is stored as a copy of the second one, so that it
is called by another place before. -/
def repeatedScope : SymbolTree :=
  .ofEntries [("a", .scope labelledScope), ("a.b", .scope labelledScope), ("s", .sequence {} .empty),
    ("s.b", .scope (labelledScope.attach "a" "b"))]

/-- A tree that has the name of a scope twice, at different depths, is a stored one. -/
theorem rooted_repeatedScope : repeatedScope.Rooted := by
  have hempty : Throughout Regular .empty := built_empty.regular
  have hscope : Throughout Regular labelledScope := by
    refine (built_ofEntries ?_).regular
    simp [Symbol.tree?]
  have hcopy := (hscope.attach "a" "b").imp fun _ => Anchored.toRegular
  refine rooted_ofEntries ?_
  simp [Symbol.tree?, hempty, hscope, hcopy]

/-- The places of labels in the symbols of the text once all of its macros are expanded. -/
theorem labels_expand_nestedText :
    (expand.run (Program.ofText nestedText).symbols).result = .ok 3 ∧
      (expand.run (Program.ofText nestedText).symbols).state.labels.map Prod.fst =
        ["inner.x", "s._outer_0", "s._outer_1._inner_0.x", "s._outer_1._inner_1.x"] := by
  decide +kernel

/-- The repeated scope, and the expanded text, are catalogued. -/
theorem catalogued_stored_and_expanded_nestedText :
    repeatedScope.Rooted ∧ repeatedScope.Catalogued ∧
      repeatedScope.labels.map Prod.fst = ["a.here", "a.b.here", "s.b.here"] ∧
      ∃ final, (Program.ofText nestedText).ReadFrom nestedText ∧
        ExpandsIn 3 (Program.ofText nestedText).symbols final ∧ final.Catalogued ∧
        final.labels.map Prod.fst =
          ["inner.x", "s._outer_0", "s._outer_1._inner_0.x", "s._outer_1._inner_1.x"] := by
  obtain ⟨hstored, hexpanded⟩ := catalogued_stored_and_expanded
  have hread := Program.readFrom_ofText read_nestedText.1
  obtain ⟨hcount, hlabels⟩ := labels_expand_nestedText
  have hrun := expandsIn_of_expand ⟨hcount, rfl⟩
  exact ⟨rooted_repeatedScope, hstored _ rooted_repeatedScope, by decide +kernel, _, hread, hrun,
    (hexpanded _ _ _ _ hread hrun).1, hlabels⟩

end SymbolTree

end ControlStore
