import Mathlib.Order.Bounds.Basic
import ControlStore.Proofs.Expansion.Simulation
import ControlStore.Proofs.Symbol.Built

/-!
# Expansion comes to an end

Expansion is a loop whose passes are single expansions. `SymbolTree.ExpandsTo` is one pass, and
`SymbolTree.ExpandsIn` is a number of passes one after the other. The symbols may come from
anywhere: references may already carry parents and callers, macros may refer to each other, and
macros may be bound inside other symbols.

No run is longer than the weight of the symbols that it starts from (`ExpandsIn.weight_le`). The
loop is a run up to symbols without references, or up to an expansion that fails (`expandAll_run`).

A pass also has to find its host again by the name of the host, and a free name for the new scope.
The search for that name tries one number after the other, and `Reference.scopePath_isLeast` says
that it stops at the first one that is free.
-/

namespace ControlStore

/-! ## The search for a free scope -/

/-- All names with a smaller number are taken. -/
theorem mem_of_lt_firstFree {stem : String} {n m : Nat} {taken : List String} (hn : n ≤ m)
    (hm : m < firstFree stem n taken) : stem ++ toString m ∈ taken := by
  fun_induction firstFree stem n taken with
  | case1 n taken hmem hlt ih =>
    by_cases heq : m = n
    · rwa [heq]
    · exact List.mem_of_mem_erase (ih (by omega) hm)
  | case2 n taken hmem => omega

/-- A text behind a name joins the last segment of the name's path, if it has no dots. -/
theorem splitAll_append (sep : Char) (text : List Char) :
    ∃ init last, splitAll sep text = init ++ [last] ∧
      ∀ suffix, sep ∉ suffix → splitAll sep (text ++ suffix) = init ++ [last ++ suffix] := by
  induction text with
  | nil => exact ⟨[], [], rfl, fun suffix h => splitAll_of_not_mem h⟩
  | cons c cs ih =>
    obtain ⟨init, last, hsplit, hsuffix⟩ := ih
    -- a separator starts a segment, any other character joins the one behind it
    by_cases hc : c = sep
    · refine ⟨[] :: init, last, ?_, fun suffix h => ?_⟩
      · rw [splitAll, if_pos hc, hsplit, List.cons_append]
      · rw [List.cons_append, splitAll, if_pos hc, hsuffix suffix h, List.cons_append]
    · cases init with
      | nil =>
        refine ⟨[], c :: last, ?_, fun suffix h => ?_⟩
        · rw [splitAll, if_neg hc, hsplit]
          rfl
        · rw [List.cons_append, splitAll, if_neg hc, hsuffix suffix h]
          rfl
      | cons piece pieces =>
        refine ⟨(c :: piece) :: pieces, last, ?_, fun suffix h => ?_⟩
        · rw [splitAll, if_neg hc, hsplit]
          rfl
        · rw [List.cons_append, splitAll, if_neg hc, hsuffix suffix h]
          rfl

/-- Text without dots behind a name belongs to its last segment. -/
theorem Path.ofName_append_dotless (name : String) :
    ∃ init last, ofName name = init ++ [last] ∧
      ∀ suffix, Dotless suffix → ofName (name ++ suffix) = init ++ [last ++ suffix] := by
  obtain ⟨init, last, hsplit, hsuffix⟩ := splitAll_append '.' name.toList
  refine ⟨init.map String.ofList, String.ofList last, ?_, fun suffix h => ?_⟩
  · rw [ofName, hsplit, List.map_append, List.map_singleton]
  · rw [ofName, String.toList_append, hsuffix _ h, List.map_append, List.map_singleton,
      String.ofList_append, String.ofList_toList]

/-- Beside the end of a path that leads nowhere no names are taken. -/
theorem SymbolTree.siblings_concat_of_none {tree : SymbolTree} {path : Path}
    (h : tree.descend path = none) (name : String) : tree.siblings (path ++ [name]) = [] := by
  induction path generalizing tree with
  | nil => cases h
  | cons first path ih =>
    obtain ⟨second, rest, hrest⟩ := List.exists_cons_of_ne_nil (l := path ++ [name]) (by simp)
    rw [List.cons_append, hrest, siblings, ← hrest]
    · rw [descend] at h
      cases hlocal : tree.local? first with
      | none => rfl
      | some s =>
        rw [hlocal, Option.bind_some] at h
        rw [Option.bind_some]
        cases htree : s.tree? with
        | none => rfl
        | some inner =>
          rw [htree, Option.bind_some] at h
          exact ih h
    · simp

/-- The scope of an expansion gets the first number for which its path is not bound in the host. -/
theorem Reference.scopePath_isLeast (r : Reference) (locals : SymbolTree) :
    ∃ n : Nat, r.scopePath locals = r.scopeStem ++ toString n ∧
      IsLeast {n : Nat | locals.find? (r.scopeStem ++ toString n) = none} n := by
  obtain ⟨init, last, hstem, hnumber⟩ := Path.ofName_append_dotless r.scopeStem
  -- all paths that are tried have their last segment in the same tree
  have hfind : ∀ n : Nat, locals.find? (r.scopeStem ++ toString n) =
      (locals.descend init).bind (·.local? (last ++ toString n)) := by
    intro n
    rw [SymbolTree.find?, hnumber _ (dotless_toString n), SymbolTree.get?_concat]
  refine ⟨firstFree last 0 (locals.siblings (init ++ [last])), ?_, ?_⟩
  · simp [scopePath, hstem]
  · simp only [hfind]
    -- without a parent every number is free, so the first is taken
    cases hdescend : locals.descend init with
    | none => exact ⟨rfl, fun m _ => by
        rw [SymbolTree.siblings_concat_of_none hdescend, firstFree]
        simp⟩
    | some inner =>
      rw [SymbolTree.siblings_concat hdescend]
      simp only [Option.bind_some]
      refine ⟨lookup_eq_none (firstFree_not_mem last 0 inner.names), fun m hm => ?_⟩
      by_contra hlt
      have hmem := mem_of_lt_firstFree (Nat.zero_le m) (Nat.lt_of_not_le hlt)
      have hbound := SymbolTree.contains_iff.2 hmem
      rw [SymbolTree.contains, hm] at hbound
      cases hbound

/-! ## Single passes -/

namespace SymbolTree

/-- One pass of expansion: the first reference of the first sequence with one is expanded. -/
def ExpandsTo (symbols next : SymbolTree) : Prop :=
  ∃ site, symbols.nextSite? = some site ∧ (site.expand symbols).result = .ok () ∧
    (site.expand symbols).state = next

/-- A number of passes, one after the other. -/
inductive ExpandsIn : Nat → SymbolTree → SymbolTree → Prop
  | refl (symbols : SymbolTree) : ExpandsIn 0 symbols symbols
  | head {n : Nat} {symbols middle final : SymbolTree} (hfirst : symbols.ExpandsTo middle)
      (hrest : ExpandsIn n middle final) : ExpandsIn (n + 1) symbols final

/-- No sequence among the global symbols has a macro reference. -/
def IsExpanded (symbols : SymbolTree) : Prop :=
  ∀ name code locals, (name, .sequence code locals) ∈ symbols.entries → code.isMacro = false →
    references code.steps = []

/-- Where no reference is left, the symbols are expanded. -/
theorem isExpanded_of_nextSite?_eq_none {symbols : SymbolTree} (h : symbols.nextSite? = none) :
    symbols.IsExpanded := by
  intro name code locals hmem hkind
  have hnone := List.filterMap_eq_nil_iff.1 (cutAtFirst?_eq_none (Option.map_eq_none_iff.1 h))
  have hhost := hnone _ hmem
  rw [Host.ofEntry?, if_neg (by simp [hkind]), Option.map_eq_none_iff] at hhost
  exact cutAtFirst?_eq_none hhost

/-- A pass takes weight off the symbols, and brings no macro into them. -/
theorem ExpandsTo.weight_lt {vocabulary : Vocabulary} {symbols next : SymbolTree}
    (h : symbols.ExpandsTo next) (hcovers : vocabulary.Covers symbols) :
    vocabulary.Covers next ∧ vocabulary.weight next < vocabulary.weight symbols := by
  obtain ⟨site, hsite, hok, rfl⟩ := h
  exact ⟨hcovers.expand hsite hok, Vocabulary.weight_expand_lt hcovers hsite hok⟩

/-- One expansion keeps the global names. -/
theorem ExpandsTo.names_eq {symbols next : SymbolTree} (h : symbols.ExpandsTo next) :
    next.names = symbols.names := by
  obtain ⟨site, hsite, hok, rfl⟩ := h
  obtain ⟨hentries, -, -⟩ := entries_of_nextSite? hsite
  obtain ⟨_, _, _, _, _, -, -, -, -, hstate⟩ := Site.expand_eq_ok hok
  rw [hstate, names, names, hentries]
  simp [Site.rebuild, Host.toEntry]

namespace ExpandsIn

variable {n : Nat} {symbols final : SymbolTree}

/-- Every pass of a run takes weight off the symbols, so a run is no longer than their weight. -/
theorem weight_le {vocabulary : Vocabulary} (h : ExpandsIn n symbols final)
    (hcovers : vocabulary.Covers symbols) :
    vocabulary.weight final + n ≤ vocabulary.weight symbols := by
  induction h with
  | refl symbols => exact Nat.le_refl _
  | head hfirst _ ih =>
    obtain ⟨hmiddle, hlt⟩ := hfirst.weight_lt hcovers
    have hrest := ih hmiddle
    omega

/-- Expansion keeps the global names. -/
theorem names_eq (h : ExpandsIn n symbols final) : final.names = symbols.names := by
  induction h with
  | refl symbols => rfl
  | head hfirst _ ih => rw [ih, hfirst.names_eq]

end ExpandsIn

end SymbolTree

/-! ## The whole loop -/

/-- How the loop of expansions ends: with symbols that have no reference left, after as many
expansions as it says, or with the error of an expansion. -/
theorem expandAll_run (vocabulary : Vocabulary) (symbols : SymbolTree)
    (covers : vocabulary.Covers symbols) :
    (∃ n, (expandAll vocabulary symbols covers).result = .ok n ∧
      SymbolTree.ExpandsIn n symbols (expandAll vocabulary symbols covers).state ∧
      (expandAll vocabulary symbols covers).state.IsExpanded) ∨
    ∃ n middle site error, SymbolTree.ExpandsIn n symbols middle ∧
      middle.nextSite? = some site ∧ (site.expand middle).result = .error error ∧
      (expandAll vocabulary symbols covers).result = .error error ∧
      (expandAll vocabulary symbols covers).state = (site.expand middle).state := by
  -- the cases of the run: nothing left, the next expansion fails, or it is made and the run goes on
  fun_induction expandAll vocabulary symbols covers with
  | case1 symbols covers hsite =>
    exact .inl ⟨0, rfl, .refl symbols, SymbolTree.isExpanded_of_nextSite?_eq_none hsite⟩
  | case2 symbols covers site hsite first error hfirst =>
    exact .inr ⟨0, symbols, site, error, .refl symbols, hsite, hfirst, rfl, rfl⟩
  | case3 symbols covers site hsite first hfirst hweight rest ih =>
    have hpass : symbols.ExpandsTo first.state := ⟨site, hsite, hfirst, rfl⟩
    rcases ih with ⟨n, hok, hrun, hdone⟩ |
      ⟨n, middle, last, error, hrun, hlast, hfails, herror, hstate⟩
    · exact .inl ⟨n + 1, map_eq_ok_iff.2 ⟨n, hok, rfl⟩, .head hpass hrun, hdone⟩
    · refine .inr ⟨n + 1, middle, last, error, .head hpass hrun, hlast, hfails, ?_, hstate⟩
      have hrest : rest.result = .error error := herror
      rw [hrest]
      rfl

/-- A program that has been expanded has no reference left in its sequences. -/
theorem Program.isExpanded_of_expand {program expanded : Program} {n : Nat}
    (h : Program.expand.Yields program n expanded) : expanded.symbols.IsExpanded := by
  obtain ⟨final, hexpand, rfl⟩ := yields_expand.1 h
  rcases expandAll_run _ _ (Vocabulary.covers_ofSymbols program.symbols) with
    ⟨_, -, -, hdone⟩ | ⟨_, _, _, error, -, -, -, hfails, -⟩
  · rw [← hexpand.2]
    exact hdone
  · exact absurd hfails (hexpand.not_fails error)

/-- What an expansion relies on when it is made in a program. -/
structure Site.Located (site : Site) (symbols : SymbolTree) : Prop where
  /-- The host is found again by its name. -/
  host : symbols.find? site.host.name = some (.sequence site.host.code site.host.locals)
  /-- The scope gets the first number for which its path is free. -/
  scope : ∃ n : Nat,
    site.host.reference.scopePath site.host.locals =
      site.host.reference.scopeStem ++ toString n ∧
    IsLeast
      {n : Nat | site.host.locals.find? (site.host.reference.scopeStem ++ toString n) = none} n

/-- At every point of a run the next host is found under its name. -/
theorem SymbolTree.ExpandsIn.located {n : Nat} {symbols middle : SymbolTree} {site : Site}
    (hbuilt : symbols.Built) (hrun : ExpandsIn n symbols middle)
    (hsite : middle.nextSite? = some site) : site.Located middle := by
  obtain ⟨hentries, -, -⟩ := entries_of_nextSite? hsite
  refine ⟨find?_eq_of_mem ?_ ?_ ?_, Reference.scopePath_isLeast _ _⟩
  · rw [hrun.names_eq]
    exact hbuilt.nodup_names
  · rw [hrun.names_eq]
    exact hbuilt.dotless
  · rw [hentries]
    exact List.mem_append_right _ (List.mem_cons_self ..)

namespace Program

/-- Expansion comes to an end for all programs whose symbols are built by storing them, whatever
their references and macros are. There is a bound on the number of expansions in any run. In each
expansion the host is found and the search for a scope stops. The loop succeeds when no sequence has
a reference left, and otherwise it ends with the error of an expansion. -/
theorem expand_terminates {program : Program} (hbuilt : program.symbols.Built) :
    (∃ bound, ∀ n middle, SymbolTree.ExpandsIn n program.symbols middle →
      n ≤ bound ∧ ∀ site, middle.nextSite? = some site → site.Located middle) ∧
    ((∃ n final, SymbolTree.ExpandsIn n program.symbols final ∧ final.IsExpanded ∧
        Program.expand.Yields program n { program with symbols := final }) ∨
      ∃ n middle site error, SymbolTree.ExpandsIn n program.symbols middle ∧
        middle.nextSite? = some site ∧ (site.expand middle).result = .error error ∧
        Program.expand.Fails program error) := by
  refine ⟨⟨(Vocabulary.ofSymbols program.symbols).weight program.symbols, ?_⟩, ?_⟩
  · intro n middle hrun
    have hweight := hrun.weight_le (Vocabulary.covers_ofSymbols program.symbols)
    exact ⟨by omega, fun site hsite => hrun.located hbuilt hsite⟩
  · rcases expandAll_run _ _ (Vocabulary.covers_ofSymbols program.symbols) with
      ⟨n, hok, hrun, hdone⟩ | ⟨n, middle, site, error, hrun, hsite, herror, hfails, -⟩
    · exact .inl ⟨n, _, hrun, hdone, yields_expand.2 ⟨_, ⟨hok, rfl⟩, rfl⟩⟩
    · exact .inr ⟨n, middle, site, error, hrun, hsite, herror, fails_expand.2 hfails⟩

/-- Symbols that no text gives: two macros that call each other, a macro inside a scope, and a
reference that already has a parent and a caller. -/
def tangledSymbols : SymbolTree :=
  .ofEntries
    [("ping", .sequence
       { steps := [.reference { line := 1, symbol := "pong" }], isMacro := true } .empty),
     ("pong", .sequence
       { steps := [.reference { line := 2, symbol := "ping" }], isMacro := true } .empty),
     ("tools", .scope (.ofEntries [("inner", .sequence
       { steps := [.reference { line := 3, symbol := "ping" }], isMacro := true } .empty)])),
     ("host", .sequence
       { steps := [.reference
          { line := 4, symbol := "tools.inner", parent := "box", callers := ["pong"] }] }
       (.ofEntries [("box", .scope .empty)]))]

/-- The tangled symbols can be built by adding entries. -/
theorem built_tangledSymbols : tangledSymbols.Built := by
  have hinner : ∀ code, (SymbolTree.ofEntries [("inner", .sequence code .empty)]).Built := by
    intro code
    refine SymbolTree.built_ofEntries ?_
    simp [Symbol.tree?, SymbolTree.built_empty]
  have hbox : (SymbolTree.ofEntries [("box", .scope .empty)]).Built := by
    refine SymbolTree.built_ofEntries ?_
    simp [Symbol.tree?, SymbolTree.built_empty]
  refine SymbolTree.built_ofEntries ?_
  simp [Symbol.tree?, SymbolTree.built_empty, hinner, hbox]

/-- The macros that call each other do not keep the loop going. -/
theorem expand_terminates_tangledSymbols :
    tangledSymbols.Built ∧ ∃ bound, ∀ n middle, SymbolTree.ExpandsIn n tangledSymbols middle →
      n ≤ bound ∧ ∀ site, middle.nextSite? = some site → site.Located middle :=
  ⟨built_tangledSymbols,
    (@expand_terminates { symbols := tangledSymbols } built_tangledSymbols).1⟩

end Program

end ControlStore
