import Mathlib.Algebra.GroupWithZero.Nat
import ControlStore.Proofs.Expansion.Run

/-!
# Expansion is inlining

A run of a host, seen as a whole. While a body is expanded inside a host, its steps stand between
steps that have been expanded already and steps that come later, and its names stand in a scope of
the host. `HostRun.inlines` says that the run first makes the words of the body's expansion tree
out of its steps and then goes on: the labels of the host move and the scopes of the blocks join
the scope of the body, all of which is `Inlining.install`. It goes by induction on the number of
expansions. The body of a macro and the steps behind the reference are two shorter runs, and
`Inlining.install_block` puts them together.

`Program.expandsTo_of_expand` says what this comes to for a whole program.
-/

namespace ControlStore

/-! ## Names of scopes -/

/-- The count of a free name starts where the search does. -/
theorem le_firstFree (stem : String) (n : Nat) (taken : List String) :
    n ≤ firstFree stem n taken := by
  fun_induction firstFree stem n taken with
  | case1 n taken hmem hlt ih => omega
  | case2 n taken hmem => exact Nat.le_refl n

/-- The number that is picked is free. -/
theorem firstFree_not_mem (stem : String) (n : Nat) (taken : List String) :
    stem ++ toString (firstFree stem n taken) ∉ taken := by
  fun_induction firstFree stem n taken with
  | case1 n taken hmem hlt ih =>
    intro h
    refine ih ((List.mem_erase_of_ne fun heq => ?_).2 h)
    -- the numbers tried later are larger
    have hle := le_firstFree stem (n + 1) (taken.erase (stem ++ toString n))
    have hsame := toString_injective (String.append_right_inj stem |>.1 heq)
    omega
  | case2 n taken hmem => exact hmem

namespace Reference

variable {r : Reference}

/-- The name of an instance is not taken. -/
theorem scopeKey_not_mem (r : Reference) (taken : List String) : r.scopeKey taken ∉ taken :=
  firstFree_not_mem _ _ _

/-- The name of an instance is one segment of a path. -/
theorem dotless_scopeKey (h : Dotless r.symbol) (taken : List String) :
    Dotless (r.scopeKey taken) := by
  have hmark : Dotless "_" := by simp [Dotless]
  exact ((hmark.append h).append hmark).append (dotless_toString _)

theorem scopeKey_ne_empty (r : Reference) (taken : List String) : r.scopeKey taken ≠ "" := by
  simp [scopeKey]

/-- The scope of an expansion has a new name inside the scope that its reference comes from. -/
theorem scopePath_eq (h : Dotless r.symbol) {locals tree : SymbolTree}
    (htree : locals.descend (.ofScope r.parent) = some tree) :
    r.scopePath locals = qualify r.parent (r.scopeKey tree.names) := by
  have hmark : Dotless "_" := by simp [Dotless]
  -- the stem of the name is one more segment of the path to the parent
  have hstem : r.scopeStem = qualify r.parent ("_" ++ r.symbol ++ "_") := by
    by_cases hparent : r.parent = ""
    · simp [scopeStem, qualify, hparent]
    · have hdot : "._" = "." ++ "_" := rfl
      simp only [scopeStem, qualify, if_neg hparent, hdot, String.append_assoc]
  have hpath : Path.ofName r.scopeStem = Path.ofScope r.parent ++ ["_" ++ r.symbol ++ "_"] := by
    rw [hstem, Path.ofName_qualify _ ((hmark.append h).append hmark)]
  rw [scopePath, hpath, SymbolTree.siblings_concat htree, List.getLast?_concat, Option.getD_some,
    hstem, scopeKey]
  by_cases hparent : r.parent = ""
  · simp [qualify, hparent]
  · simp [qualify, hparent, String.append_assoc]

end Reference

namespace Frame

@[simp]
theorem symbol_reference (frame : Frame) (r : Reference) :
    (frame.reference r).symbol = r.symbol := by
  cases frame <;> rfl

/-- A copied reference has as many arguments as were written. -/
@[simp]
theorem length_arguments_reference (frame : Frame) (r : Reference) :
    (frame.reference r).arguments.length = r.arguments.length := by
  cases frame with
  | none => rfl
  | some inst => simp [reference]

/-- A reference of the body has the scope of the body as its parent. -/
theorem parent_reference (frame : Frame) {r : Reference} (h : r.IsWritten) :
    (frame.reference r).parent = frame.scope := by
  cases frame with
  | none => exact h.1
  | some inst => rfl

end Frame

/-! ## What a body leaves in the host -/

/-- The names of a host with `total` steps after its step at `start` has been replaced by the
`count` steps of a macro with the given labels. The macro's scope is stored as `key` in the tree
called `name` at the given path. -/
def SymbolTree.splice (path : Path) (name key : String) (start total count : Nat)
    (labels : List (String × Symbol)) (locals : SymbolTree) : SymbolTree :=
  (locals.mapLabels (Label.makeRoom start total count)).extend path
    [(key, .scope ⟨qualify name key, mapLabelEntries (Label.moveTo start count) labels⟩)]

namespace Inlining

/-- The names of a host after a body has been inlined whose steps started at `start`. The body has
its names in the tree called `name` at the given path. -/
def install (path : Path) (name : String) (start : Nat) (inl : Inlining) (locals : SymbolTree) :
    SymbolTree :=
  (locals.mapLabels (inl.relocate start)).extend path (inl.scopes name start)

/-- The scopes of blocks hold labels on places among the words only. -/
theorem labelsWithin_scopes (tree name : String) (start : Nat) (inl : Inlining) :
    (⟨tree, inl.scopes name start⟩ : SymbolTree).LabelsWithin (start + inl.size) := by
  induction inl generalizing tree name start with
  | done =>
    intro l hl
    obtain ⟨entry, hentry, -⟩ := SymbolTree.holds_iff.1 hl
    cases hentry
  | word a rest ih =>
    have hrest := ih tree name (start + 1)
    rwa [Nat.add_right_comm] at hrest
  | block inst key body rest ihbody ihrest =>
    intro l hl
    rw [size_block]
    obtain ⟨entry, hentry, hsymbol⟩ := SymbolTree.holds_iff.1 hl
    rcases List.mem_cons.1 hentry with rfl | hentry
    · rcases hsymbol with hsymbol | ⟨inner, hinner, hsymbol⟩
      · cases hsymbol
      · cases hinner
        -- a label of the macro itself, or one of a block inside
        obtain ⟨entry, hentry, hsymbol⟩ := SymbolTree.holds_iff.1 hsymbol
        rcases List.mem_append.1 hentry with hentry | hentry
        · have hown : (inst.locals.mapLabels (body.place start)).LabelsWithin
              (start + body.size) :=
            SymbolTree.labelsWithin_mapLabels fun l _ => offset_place_le start body l
          rw [mapLabelEntries_eq_map, ← SymbolTree.mapLabels_entries] at hentry
          have hle := hown l (SymbolTree.holds_iff.2 ⟨entry, hentry, hsymbol⟩)
          omega
        · -- the words of a block end where the later ones start, so the bound only grows
          have hle := ihbody "" (qualify name key) start l
            (SymbolTree.holds_iff.2 ⟨entry, hentry, hsymbol⟩)
          omega
    · have hle := ihrest "" name (start + body.size) l
        (SymbolTree.holds_iff.2 ⟨entry, hentry, hsymbol⟩)
      omega

/-- Steps behind a tree move none of its scopes. -/
theorem mapLabelEntries_scopes {name : String} {start : Nat} {body : Inlining} (rest : Inlining) :
    mapLabelEntries (rest.relocate (start + body.size)) (body.scopes name start) =
      body.scopes name start := by
  have hfixed : (⟨"", body.scopes name start⟩ : SymbolTree).mapLabels
      (rest.relocate (start + body.size)) = ⟨"", body.scopes name start⟩ :=
    SymbolTree.mapLabels_of_fixed fun l hl =>
      relocate_of_le (labelsWithin_scopes _ _ _ _ l hl) rest
  exact congrArg SymbolTree.entries hfixed

theorem install_done (path : Path) (name : String) (start : Nat) (locals : SymbolTree) :
    done.install path name start locals = locals := by
  rw [install, scopes, SymbolTree.extend_nil]
  exact SymbolTree.mapLabels_of_fixed fun l _ => relocate_done start l

theorem install_word (path : Path) (name : String) (start : Nat) (a : Assertion) (rest : Inlining)
    (locals : SymbolTree) :
    (word a rest).install path name start locals = rest.install path name (start + 1) locals := by
  rw [install, install, scopes, funext (relocate_word start a rest)]

variable {path : Path} {start : Nat} {locals tree : SymbolTree}

/-- Behind an inlining the labels stay among the words. -/
theorem labelsWithin_install {more : Nat} {inl : Inlining} (path : Path) (name : String)
    (h : locals.LabelsWithin (start + inl.stepCount + more)) :
    (inl.install path name start locals).LabelsWithin (start + inl.size + more) := by
  have hscopes := (labelsWithin_scopes "" name start inl).mono (Nat.le_add_right _ more)
  refine SymbolTree.LabelsWithin.extend ?_ hscopes path
  exact SymbolTree.labelsWithin_mapLabels fun l hl => offset_relocate_le (h l hl)

/-- Inlining a macro's body after its scope has been stored is storing the whole scope. -/
theorem install_splice {key : String} {body : Inlining} {total : Nat}
    {labels : List (String × Symbol)} (htree : locals.descend path = some tree)
    (hnew : key ∉ tree.names) :
    body.install (path ++ [key]) (qualify tree.name key) start
        (locals.splice path tree.name key start total body.stepCount labels) =
      ((locals.mapLabels (Label.makeRoom start total body.stepCount)).mapLabels
        (body.relocate start)).extend path [(key, .scope ⟨qualify tree.name key,
          mapLabelEntries (body.relocate start)
              (mapLabelEntries (Label.moveTo start body.stepCount) labels) ++
            body.scopes (qualify tree.name key) start⟩)] := by
  have hmoved := SymbolTree.descend_mapLabels_of_eq (SymbolTree.descend_mapLabels_of_eq htree
    (Label.makeRoom start total body.stepCount)) (body.relocate start)
  rw [install, SymbolTree.splice, SymbolTree.mapLabels_extend]
  apply SymbolTree.extend_concat hmoved
  rwa [SymbolTree.names_mapLabels, SymbolTree.names_mapLabels]

/-- The body of a macro leaves just the macro's scope in the tree around it. -/
theorem descend_install_splice {key : String} (body : Inlining) (start total : Nat)
    (labels : List (String × Symbol)) (htree : locals.descend path = some tree)
    (hnew : key ∉ tree.names) :
    ∃ grown, (body.install (path ++ [key]) (qualify tree.name key) start
        (locals.splice path tree.name key start total body.stepCount labels)).descend path =
          some grown ∧ grown.name = tree.name ∧ grown.names = tree.names ++ [key] := by
  have hmoved := SymbolTree.descend_mapLabels_of_eq (SymbolTree.descend_mapLabels_of_eq htree
    (Label.makeRoom start total body.stepCount)) (body.relocate start)
  rw [install_splice htree hnew]
  refine ⟨_, SymbolTree.descend_extend hmoved, ?_, ?_⟩
  · exact (SymbolTree.mapLabels_name _ _).trans (SymbolTree.mapLabels_name _ _)
  · have hnames : ((tree.mapLabels (Label.makeRoom start total body.stepCount)).mapLabels
        (body.relocate start)).names = tree.names :=
      (SymbolTree.names_mapLabels _ _).trans (SymbolTree.names_mapLabels _ _)
    rw [← hnames, SymbolTree.names, SymbolTree.names, List.map_append]
    rfl

/-- The names after a reference has been expanded altogether: its scope has been stored, then the
body has been inlined, and then the steps behind the reference. -/
theorem install_block {inst : MacroInstance} {key : String} {body rest : Inlining} {total : Nat}
    (htree : locals.descend path = some tree) (hnew : key ∉ tree.names)
    (hwithin : locals.LabelsWithin total) (hlabels : inst.locals.OnlyLabels body.stepCount) :
    rest.install path tree.name (start + body.size)
        (body.install (path ++ [key]) (qualify tree.name key) start
          (locals.splice path tree.name key start total body.stepCount inst.locals.entries)) =
      (block inst key body rest).install path tree.name start locals := by
  -- labels of the host go through all three moves
  have hhost : ((locals.mapLabels (Label.makeRoom start total body.stepCount)).mapLabels
        (body.relocate start)).mapLabels (rest.relocate (start + body.size)) =
      locals.mapLabels ((block inst key body rest).relocate start) := by
    rw [SymbolTree.mapLabels_mapLabels, SymbolTree.mapLabels_mapLabels]
    exact SymbolTree.mapLabels_congr fun l hl => (relocate_block _ _ _ _ (hwithin l hl)).symm
  -- labels of the macro are placed by the body, and the rest does not reach them
  have hown : mapLabelEntries (rest.relocate (start + body.size)) (mapLabelEntries
        (body.relocate start)
        (mapLabelEntries (Label.moveTo start body.stepCount) inst.locals.entries)) =
      mapLabelEntries (body.place start) inst.locals.entries := by
    simp only [mapLabelEntries_eq_map, List.map_map]
    refine List.map_congr_left fun entry hentry => ?_
    obtain ⟨name, symbol⟩ := entry
    obtain ⟨offset, hoffset, rfl⟩ := hlabels.label _ hentry
    have hplace : body.relocate start (Label.moveTo start body.stepCount { offset }) =
        body.place start { offset } := relocate_moveTo hoffset
    simp only [Function.comp, Symbol.mapLabels, hplace,
      relocate_of_le (offset_place_le start body _)]
  rw [install_splice htree hnew, install, SymbolTree.mapLabels_extend, SymbolTree.extend_extend,
    hhost, install]
  simp only [mapLabelEntries, Symbol.mapLabels, SymbolTree.mapLabels, mapLabelEntries_append, hown,
    mapLabelEntries_scopes, scopes, List.singleton_append]

end Inlining

/-- The tree of steps has as many nodes as there are steps. -/
theorem Inlines.stepCount_eq {macros : SymbolTree} {frame : Frame} {taken : List String}
    {steps : List Step} {inl : Inlining} (h : Inlines macros frame taken steps inl) :
    inl.stepCount = steps.length := by
  induction h with
  | done => rfl
  | word hrest ih => rw [Inlining.stepCount, ih, List.length_cons]
  | block hdef harity hkey hinst hbody hrest ihbody ihrest =>
    rw [Inlining.stepCount, ihrest, List.length_cons]

/-! ## One expansion in a frame -/

namespace SymbolTree

/-- The labels of a macro, moved behind the steps of its host, are labels again. -/
theorem OnlyLabels.moveTo {tree : SymbolTree} {count : Nat} (h : tree.OnlyLabels count)
    (start : Nat) : (tree.mapLabels (Label.moveTo start count)).OnlyLabels (count + start) := by
  refine ⟨?_, ?_, ?_⟩
  · rw [names_mapLabels]
    exact h.nodup
  · rw [names_mapLabels]
    exact h.dotless
  · intro entry hentry
    rw [mapLabels_entries] at hentry
    obtain ⟨⟨name, symbol⟩, hold, rfl⟩ := List.mem_map.1 hentry
    obtain ⟨offset, hle, heq⟩ := h.label _ hold
    dsimp only at heq
    refine ⟨offset + start, Nat.add_le_add_right hle start, ?_⟩
    rw [heq, Symbol.mapLabels, Label.moveTo_of_le hle]

/-- Labels of steps lie among the steps. -/
theorem OnlyLabels.labelsWithin {tree : SymbolTree} {count : Nat} (h : tree.OnlyLabels count) :
    tree.LabelsWithin count := by
  intro l hl
  obtain ⟨entry, hentry, hsymbol⟩ := holds_iff.1 hl
  obtain ⟨offset, hle, heq⟩ := h.label entry hentry
  rcases hsymbol with hsymbol | ⟨inner, hinner, -⟩
  · rw [heq] at hsymbol
    cases hsymbol
    exact hle
  · rw [heq] at hinner
    cases hinner

variable {path : Path} {start total : Nat} {locals tree : SymbolTree} {key : String}

/-- A scope whose reference is expanded at `start` is stored under a new name. -/
theorem insert?_eq_splice {scope : SymbolTree} {count : Nat} (hscope : scope.OnlyLabels count)
    (htree : locals.descend path = some tree) (hnew : key ∉ tree.names) :
    (locals.mapLabels (Label.makeRoom start total count)).insert? (path ++ [key])
        (.scope (scope.mapLabels (Label.moveTo start count))) =
      some (locals.splice path tree.name key start total count scope.entries) := by
  have hmoved := descend_mapLabels_of_eq htree (Label.makeRoom start total count)
  have hattach : (scope.mapLabels (Label.moveTo start count)).attach tree.name key =
      ⟨qualify tree.name key, mapLabelEntries (Label.moveTo start count) scope.entries⟩ := by
    refine ext' (by cases scope; rfl) ?_
    rw [entries_attach_of_onlyLabels (hscope.moveTo start), mapLabels_entries,
      mapLabelEntries_eq_map]
  rw [insert?_concat hmoved (by rwa [names_mapLabels]), mapLabels_name, Symbol.attach, hattach]
  rfl

/-- The new scope is found under the new name, with the moved labels of the macro. -/
theorem descend_splice (start total count : Nat) (labels : List (String × Symbol)) (name : String)
    (htree : locals.descend path = some tree) (hnew : key ∉ tree.names) :
    (locals.splice path name key start total count labels).descend (path ++ [key]) =
      some ⟨qualify name key, mapLabelEntries (Label.moveTo start count) labels⟩ := by
  have hmoved := descend_mapLabels_of_eq htree (Label.makeRoom start total count)
  exact descend_extend_concat hmoved (by rwa [names_mapLabels])

/-- Labels stay within the steps of the host, which has the macro's steps instead of one. -/
theorem labelsWithin_splice {scope : SymbolTree} {count : Nat} (h : locals.LabelsWithin total)
    (hscope : scope.OnlyLabels count) (hstart : start < total) (name : String) :
    (locals.splice path name key start total count scope.entries).LabelsWithin
      (total + count - 1) := by
  have hadded : (⟨"", [(key, .scope ⟨qualify name key,
      mapLabelEntries (Label.moveTo start count) scope.entries⟩)]⟩ : SymbolTree).LabelsWithin
        (total + count - 1) := by
    intro l hl
    obtain ⟨entry, hentry, hsymbol⟩ := holds_iff.1 hl
    rw [List.mem_singleton.1 hentry] at hsymbol
    rcases hsymbol with hsymbol | ⟨inner, hinner, hsymbol⟩
    · cases hsymbol
    · cases hinner
      obtain ⟨entry, hentry, hsymbol⟩ := holds_iff.1 hsymbol
      rw [mapLabelEntries_eq_map, ← mapLabels_entries] at hentry
      have hle := (hscope.moveTo start).labelsWithin l (holds_iff.2 ⟨entry, hentry, hsymbol⟩)
      omega
  refine LabelsWithin.extend (labelsWithin_mapLabels fun l hl => ?_) hadded path
  have hle := h l hl
  simp only [Label.makeRoom, if_pos hle]
  split
  · dsimp only
    omega
  · omega

end SymbolTree

/-- A list of steps has one first reference. -/
theorem first_reference_unique {before before' after after' : List Step} {r r' : Reference}
    (hbefore : references before = []) (hbefore' : references before' = [])
    (h : before ++ .reference r :: after = before' ++ .reference r' :: after') :
    before = before' ∧ r = r' ∧ after = after' := by
  -- the words before the first reference are passed on both sides together
  induction before generalizing before' with
  | nil =>
    cases before' with
    | nil =>
      cases h
      exact ⟨rfl, rfl, rfl⟩
    | cons step rest =>
      cases h
      cases hbefore'
  | cons step rest ih =>
    cases before' with
    | nil =>
      cases h
      cases hbefore
    | cons step' rest' =>
      obtain ⟨rfl, htail⟩ := List.cons.inj h
      cases step with
      | reference r'' => cases hbefore
      | assertion a =>
        have hrest' : references rest' = [] := hbefore'
        obtain ⟨rfl, hr, hafter⟩ := ih hbefore hrest' htail
        exact ⟨rfl, hr, hafter⟩

/-- The definition of a macro is as it is written. -/
theorem SymbolTree.WellFormed.isWritten {symbols locals : SymbolTree} {name : String} {code : Code}
    (h : symbols.WellFormed) (hdef : symbols.IsMacro name code locals) :
    code.IsWritten locals ∧ Dotless name :=
  ⟨h.symbol _ hdef.mem, h.dotless _ (List.mem_map_of_mem hdef.mem)⟩

/-- The scope of an instance has a new name in the scope around it. -/
theorem scope_ofScope {macros locals : SymbolTree} (hmacros : macros.WellFormed) {frame : Frame}
    {taken : List String} {r : Reference} {code : Code} {key : String} {inst : MacroInstance}
    (hdef : macros.IsMacro r.symbol code locals) (hkey : key = r.scopeKey taken)
    (hinst : inst = ⟨qualify frame.scope key, frame.reference r, code.parameters, locals⟩) :
    Path.ofScope (Frame.scope (some inst)) = Path.ofScope frame.scope ++ [key] ∧ key ∉ taken := by
  have hdot : Dotless key := hkey ▸ Reference.dotless_scopeKey (hmacros.isWritten hdef).2 _
  have hne : key ≠ "" := hkey ▸ r.scopeKey_ne_empty _
  rw [hinst, Frame.scope, Path.ofScope_qualify _ hdot hne, hkey]
  exact ⟨rfl, r.scopeKey_not_mem _⟩

/-- Expanding the first reference of a body stores the macro's scope beside the names that the
scope of the body has. -/
theorem HostStep.eq_splice {macros locals locals' tree : SymbolTree} (hmacros : macros.WellFormed)
    {done after steps : List Step} {frame : Frame} {r : Reference}
    (hdone : references done = []) (hwritten : r.IsWritten)
    (htree : locals.descend (.ofScope frame.scope) = some tree)
    (h : HostStep macros (done ++ .reference (frame.reference r) :: after) locals steps locals') :
    ∃ code inst, macros.IsMacro r.symbol code inst.locals ∧
      code.parameters.length ≤ r.arguments.length ∧
      inst = ⟨qualify frame.scope (r.scopeKey tree.names), frame.reference r, code.parameters,
        inst.locals⟩ ∧
      steps = done ++ code.steps.map (Frame.step (some inst)) ++ after ∧
      locals' = locals.splice (.ofScope frame.scope) tree.name (r.scopeKey tree.names) done.length
        (done.length + (after.length + 1)) code.steps.length inst.locals.entries := by
  generalize hsteps : done ++ .reference (frame.reference r) :: after = all at h
  cases h with
  | @splice before after' r' code scope _ _ inst hbefore hdef harity hinst hlocals =>
    obtain ⟨rfl, rfl, rfl⟩ := first_reference_unique hdone hbefore hsteps
    rw [Frame.symbol_reference] at hdef
    rw [Frame.length_arguments_reference] at harity
    obtain ⟨hcode, hdotless⟩ := hmacros.isWritten hdef
    -- the path of the scope is a new name in the scope of the body
    have hkey : (frame.reference r).scopeKey tree.names = r.scopeKey tree.names := by
      simp only [Reference.scopeKey, Frame.symbol_reference]
    have hpath : (frame.reference r).scopePath locals =
        qualify frame.scope (r.scopeKey tree.names) := by
      rw [Reference.scopePath_eq (by rwa [Frame.symbol_reference])
        (by rwa [frame.parent_reference hwritten]), frame.parent_reference hwritten, hkey]
    rw [hpath] at hinst
    have hname : Path.ofName inst.scope =
        Path.ofScope frame.scope ++ [r.scopeKey tree.names] := by
      rw [hinst, Path.ofName_qualify _ (Reference.dotless_scopeKey hdotless _)]
    rw [hname, SymbolTree.insert?_eq_splice hcode.labels htree (r.scopeKey_not_mem _),
      Option.some.injEq, List.length_append, List.length_cons] at hlocals
    refine ⟨code, inst, ?_, harity, ?_, rfl, ?_⟩
    · rwa [hinst]
    · rw [hinst]
    · rw [← hlocals, hinst]

/-! ## The simulation -/

/-- Every run of a host with `n` expansions inlines the steps of a body first, wherever they stand
in the host. -/
def RunInlines (macros : SymbolTree) (n : Nat) (frame : Frame) (todo : List Step) : Prop :=
  ∀ ⦃done rest final : List Step⦄ ⦃locals tree names : SymbolTree⦄, references done = [] →
    locals.descend (.ofScope frame.scope) = some tree →
    locals.LabelsWithin (done.length + todo.length + rest.length) →
    HostRun macros n (done ++ todo.map frame.step ++ rest) locals final names →
    ∃ inl m, Inlines macros frame tree.names todo inl ∧ n = inl.references + m ∧
      HostRun macros m (done ++ inl.words.map .assertion ++ rest)
        (inl.install (.ofScope frame.scope) tree.name done.length locals) final names

/-- Words refer to no macro. -/
theorem references_map_assertion (words : List Assertion) :
    references (words.map .assertion) = [] := by
  induction words with
  | nil => rfl
  | cons a words ih => exact ih

namespace RunInlines

variable {macros : SymbolTree} {n : Nat} {frame : Frame} {todo : List Step}

/-- An assertion joins the steps that are done. -/
theorem word (h : RunInlines macros n frame todo) (a : Assertion) :
    RunInlines macros n frame (.assertion a :: todo) := by
  intro done rest final locals tree names hdone htree hwithin hrun
  have hdone' : references (done ++ [.assertion (frame.assertion a)]) = [] := by
    rw [references_append, hdone]
    rfl
  have hwithin' : locals.LabelsWithin
      ((done ++ [Step.assertion (frame.assertion a)]).length + todo.length + rest.length) :=
    hwithin.mono (by simp; omega)
  have hsteps : done ++ (Step.assertion a :: todo).map frame.step ++ rest =
      (done ++ [.assertion (frame.assertion a)]) ++ todo.map frame.step ++ rest := by
    simp [Frame.step]
  rw [hsteps] at hrun
  obtain ⟨inl, m, hinl, hn, hrest⟩ := h hdone' htree hwithin' hrun
  refine ⟨.word (frame.assertion a) inl, m, .word hinl, hn, ?_⟩
  rw [Inlining.install_word]
  simpa [Inlining.words] using hrest

/-- A reference is expanded in three moves: its scope is stored, the body of the macro is inlined,
and then the steps behind the reference. The last two are shorter runs. -/
theorem block (hmacros : macros.WellFormed) {r : Reference} (hwritten : r.IsWritten)
    (hbody : ∀ (frame : Frame) (code : Code) (locals : SymbolTree), code.IsWritten locals →
      RunInlines macros n frame code.steps)
    (hrest : ∀ m ≤ n, RunInlines macros m frame todo) :
    RunInlines macros (n + 1) frame (.reference r :: todo) := by
  intro done rest final locals tree names hdone htree hwithin hrun
  generalize hafter : todo.map frame.step ++ rest = after
  have hsteps : done ++ (Step.reference r :: todo).map frame.step ++ rest =
      done ++ .reference (frame.reference r) :: after := by
    simp [Frame.step, hafter]
  have hlength : after.length = todo.length + rest.length := by
    rw [← hafter, List.length_append, List.length_map]
  rw [hsteps] at hrun
  cases hrun with
  | @step _ _ _ _ _ _ _ hstep hrun =>
    obtain ⟨code, inst, hdef, harity, hinst, rfl, rfl⟩ :=
      hstep.eq_splice hmacros hdone hwritten htree
    obtain ⟨hcode, -⟩ := hmacros.isWritten hdef
    clear hstep
    generalize hkey : r.scopeKey tree.names = key at hinst hrun
    obtain ⟨hscope, hnew⟩ := scope_ofScope hmacros hdef hkey.symm hinst
    have htotal : locals.LabelsWithin (done.length + (after.length + 1)) :=
      hwithin.mono (by rw [List.length_cons]; omega)
    -- the body of the macro stands in front of the steps behind the reference
    have hsplice : (locals.splice (.ofScope frame.scope) tree.name key done.length
        (done.length + (after.length + 1)) code.steps.length inst.locals.entries).LabelsWithin
          (done.length + code.steps.length + after.length) :=
      (SymbolTree.labelsWithin_splice htotal hcode.labels (by omega) tree.name).mono (by omega)
    have hdescend := SymbolTree.descend_splice done.length (done.length + (after.length + 1))
      code.steps.length inst.locals.entries tree.name htree hnew
    rw [← hscope] at hdescend
    obtain ⟨body, m, hinlines, hn, hrun⟩ := hbody (some inst) code inst.locals hcode hdone
      hdescend hsplice hrun
    have hcount := hinlines.stepCount_eq
    rw [← hcount] at hsplice hrun
    rw [hscope] at hrun
    -- the words of the body join the steps that are done
    have hdone' : references (done ++ body.words.map .assertion) = [] := by
      rw [references_append, hdone, references_map_assertion, List.append_nil]
    have hsize : (done ++ body.words.map Step.assertion).length = done.length + body.size := by
      rw [List.length_append, List.length_map, Inlining.size]
    obtain ⟨grown, hgrown, hname, hnames⟩ := Inlining.descend_install_splice body done.length
      (done.length + (after.length + 1)) inst.locals.entries htree hnew
    have hwithin' := Inlining.labelsWithin_install (.ofScope frame.scope ++ [key])
      (qualify tree.name key) hsplice
    have hsteps' : done ++ body.words.map .assertion ++ after =
        done ++ body.words.map .assertion ++ todo.map frame.step ++ rest := by
      rw [List.append_assoc _ (todo.map frame.step), hafter]
    rw [hsteps'] at hrun
    obtain ⟨inl, m', hinl, hn', hrun⟩ := hrest m (by omega) hdone' hgrown
      (hwithin'.mono (by omega)) hrun
    rw [hnames] at hinl
    rw [hsize, hname,
      Inlining.install_block htree hnew htotal (hcount ▸ hcode.labels)] at hrun
    refine ⟨.block inst key body inl, m', ?_, ?_, ?_⟩
    · have hown : (⟨qualify tree.name key, mapLabelEntries
          (Label.moveTo done.length code.steps.length) inst.locals.entries⟩ : SymbolTree).names =
            inst.locals.names := by
        simp [SymbolTree.names, mapLabelEntries_eq_map, Function.comp_def]
      rw [hown] at hinlines
      exact .block hdef harity hkey.symm hinst hinlines hinl
    · rw [hn, hn', Inlining.references]
      omega
    · simpa [Inlining.words] using hrun

end RunInlines

/-- Runs of a host inline the steps of a body as they are written. -/
theorem runInlines {macros : SymbolTree} (hmacros : macros.WellFormed) (n : Nat) :
    ∀ {frame : Frame} {todo : List Step}, (∀ r ∈ references todo, r.IsWritten) →
      RunInlines macros n frame todo := by
  -- induction on the expansions that are left: the body and the later steps both use up fewer;
  -- inside it, on the steps
  induction n using Nat.strongRecOn with
  | ind n ih =>
    intro frame todo
    induction todo with
    | nil =>
      intro _ done rest final locals tree names _ _ _ hrun
      refine ⟨.done, n, .done, by simp [Inlining.references], ?_⟩
      rwa [Inlining.install_done]
    | cons step todo ihtodo =>
      intro hwritten
      cases step with
      | assertion a => exact (ihtodo hwritten).word a
      | reference r =>
        have hr : r.IsWritten := hwritten r (List.mem_cons_self ..)
        have htodo : ∀ r ∈ references todo, r.IsWritten :=
          fun r hr => hwritten r (List.mem_cons_of_mem _ hr)
        cases n with
        | zero =>
          intro done rest final locals tree names _ _ _ hrun
          cases hrun with
          | done hnone => simp [references_append, references_reference_cons, Frame.step] at hnone
        | succ n =>
          refine RunInlines.block hmacros hr ?_ ?_
          · intro frame code locals hcode
            exact ih n (Nat.lt_succ_self n) hcode.references
          · intro m hm
            exact ih m (Nat.lt_succ_of_le hm) htodo

/-! ## Whole programs -/

/-- A host without references stays as it is. -/
theorem HostRun.eq_of_references_eq_nil {macros locals names : SymbolTree} {n : Nat}
    {steps final : List Step} (hnone : references steps = [])
    (h : HostRun macros n steps locals final names) :
    n = 0 ∧ final = steps ∧ names = locals := by
  cases h with
  | done _ => exact ⟨rfl, rfl, rfl⟩
  | step hstep _ =>
    cases hstep with
    | splice _ _ _ _ _ => simp [references_append, references_reference_cons] at hnone

/-- In the host itself, all names of a body are the names of the host. -/
theorem Inlining.install_host {inl : Inlining} {locals : SymbolTree}
    (h : locals.OnlyLabels inl.stepCount) :
    inl.install [] locals.name 0 locals = inl.tree locals.name 0 locals.entries := by
  refine SymbolTree.ext' (SymbolTree.mapLabels_name _ _) (congrArg (· ++ _) ?_)
  rw [SymbolTree.mapLabels_entries, mapLabelEntries_eq_map]
  refine List.map_congr_left fun entry hentry => ?_
  obtain ⟨name, symbol⟩ := entry
  obtain ⟨offset, hoffset, rfl⟩ := h.label _ hentry
  -- the words of a host start at its own start
  have hplace : inl.relocate 0 (Label.moveTo 0 inl.stepCount { offset }) =
      inl.place 0 { offset } := relocate_moveTo hoffset
  rw [Label.moveTo_of_le hoffset] at hplace
  rw [Symbol.mapLabels, Symbol.mapLabels, ← hplace]
  rfl

/-- Outside a macro every step is read as it is written. -/
theorem Frame.step_none (step : Step) : Frame.step none step = step := by
  cases step with
  | assertion a => simp [step, assertion, value]
  | reference r => rfl

/-- A host ends up with the words of its expansion tree, and with the names that the tree leaves. -/
theorem HostRun.eq_inlining {macros : SymbolTree} (hmacros : macros.WellFormed) {n : Nat}
    {code : Code} {locals names : SymbolTree} {steps : List Step} (hcode : code.IsWritten locals)
    (h : HostRun macros n code.steps locals steps names) :
    ∃ inl, Inlines macros none locals.names code.steps inl ∧ n = inl.references ∧
      steps = inl.words.map .assertion ∧ names = inl.tree locals.name 0 locals.entries := by
  -- a host is the case of a body with nothing done, nothing behind it and no parameters
  have hsteps : [] ++ code.steps.map (Frame.step none) ++ [] = code.steps := by
    rw [funext Frame.step_none, List.map_id', List.nil_append, List.append_nil]
  have hwithin : locals.LabelsWithin (([] : List Step).length + code.steps.length +
      ([] : List Step).length) := by
    simpa using hcode.labels.labelsWithin
  rw [← hsteps] at h
  obtain ⟨inl, m, hinl, hn, hrun⟩ := runInlines hmacros n hcode.references rfl rfl hwithin h
  rw [List.nil_append, List.append_nil] at hrun
  obtain ⟨rfl, rfl, rfl⟩ := hrun.eq_of_references_eq_nil (references_map_assertion inl.words)
  have hlabels := hcode.labels
  rw [← hinl.stepCount_eq] at hlabels
  exact ⟨inl, hinl, hn, rfl, Inlining.install_host hlabels⟩

/-- A global symbol after expansion, for the expansion trees of the sequences by their names. -/
def expandEntry (trees : String → Inlining) : String × Symbol → String × Symbol
  | (name, .sequence code locals) =>
    if code.isMacro then (name, .sequence code locals)
    else
      (name, .sequence { code with steps := (trees name).words.map .assertion }
        ((trees name).tree locals.name 0 locals.entries))
  | entry => entry

/-- An entry keeps its name. -/
theorem expandEntry_fst (trees : String → Inlining) (entry : String × Symbol) :
    (expandEntry trees entry).1 = entry.1 := by
  obtain ⟨name, symbol⟩ := entry
  cases symbol with
  | constant value => rfl
  | label l => rfl
  | scope locals => rfl
  | sequence code locals =>
    rw [expandEntry]
    split <;> rfl

/-- A sequence has the words and the names of its tree. -/
theorem expandEntry_sequence (trees : String → Inlining) (name : String) {code : Code}
    (hkind : code.isMacro = false) (locals : SymbolTree) :
    expandEntry trees (name, .sequence code locals) =
      (name, .sequence { code with steps := (trees name).words.map .assertion }
        ((trees name).tree locals.name 0 locals.entries)) := by
  rw [expandEntry, if_neg (by simp [hkind])]

/-- Entries that are not sequences stay what they are. -/
theorem expandEntry_of_not_isPlaced {trees : String → Inlining} {entry : String × Symbol}
    (h : entry.2.isPlaced = false) : expandEntry trees entry = entry := by
  obtain ⟨name, symbol⟩ := entry
  cases symbol with
  | constant value => rfl
  | label l => rfl
  | scope locals => rfl
  | sequence code locals =>
    rw [expandEntry, if_pos]
    simpa [Symbol.isPlaced] using h

/-- Expansion makes no sequence and removes none. -/
theorem isPlaced_expandEntry (trees : String → Inlining) (entry : String × Symbol) :
    (expandEntry trees entry).2.isPlaced = entry.2.isPlaced := by
  obtain ⟨name, symbol⟩ := entry
  cases symbol with
  | constant value => rfl
  | label l => rfl
  | scope locals => rfl
  | sequence code locals =>
    rw [expandEntry]
    split <;> rfl

/-- The entry depends on the tree of its own name only. -/
theorem expandEntry_congr {trees trees' : String → Inlining} {entry : String × Symbol}
    (h : trees entry.1 = trees' entry.1) : expandEntry trees entry = expandEntry trees' entry := by
  obtain ⟨name, symbol⟩ := entry
  cases symbol with
  | constant value => rfl
  | label l => rfl
  | scope locals => rfl
  | sequence code locals => rw [expandEntry, expandEntry, h]

/-- The number of expansions in the sequences among the entries. -/
def expansionCount (trees : String → Inlining) (entries : List (String × Symbol)) : Nat :=
  ((entries.filter fun entry => entry.2.isPlaced).map fun entry =>
    (trees entry.1).references).sum

/-- The sequences among the entries are inlined to the trees of their names. -/
def TreesOf (macros : SymbolTree) (trees : String → Inlining) (entries : List (String × Symbol)) :
    Prop :=
  ∀ name code locals, (name, Symbol.sequence code locals) ∈ entries → code.isMacro = false →
    Inlines macros none locals.names code.steps (trees name)

/-- A run of global symbols inlines each sequence. -/
theorem EntriesRun.eq_map {macros : SymbolTree} (hmacros : macros.WellFormed) {n : Nat}
    {entries final : List (String × Symbol)} (hnodup : (entries.map Prod.fst).Nodup)
    (hwellFormed : ∀ entry ∈ entries, entry.2.WellFormed) (h : EntriesRun macros n entries final) :
    ∃ trees, TreesOf macros trees entries ∧ final = entries.map (expandEntry trees) ∧
      n = expansionCount trees entries := by
  induction h with
  | nil => exact ⟨fun _ => .done, by simp [TreesOf], rfl, rfl⟩
  | @kept n entry rest rest' hkind hrest ih =>
    rw [List.map_cons, List.nodup_cons] at hnodup
    obtain ⟨trees, htrees, rfl, rfl⟩ :=
      ih hnodup.2 fun e he => hwellFormed e (List.mem_cons_of_mem _ he)
    refine ⟨trees, ?_, ?_, ?_⟩
    · intro name code locals hmem hcode
      rcases List.mem_cons.1 hmem with rfl | hmem
      · simp [Symbol.isPlaced, hcode] at hkind
      · exact htrees name code locals hmem hcode
    · rw [List.map_cons, expandEntry_of_not_isPlaced hkind]
    · rw [expansionCount, expansionCount, List.filter_cons_of_neg (by simp [hkind])]
  | @host m n name code locals locals' steps rest rest' hkind hrun hrest ih =>
    rw [List.map_cons, List.nodup_cons] at hnodup
    obtain ⟨trees, htrees, rfl, rfl⟩ :=
      ih hnodup.2 fun e he => hwellFormed e (List.mem_cons_of_mem _ he)
    have hcode := hwellFormed _ (List.mem_cons_self ..)
    obtain ⟨inl, hinl, rfl, rfl, rfl⟩ := hrun.eq_inlining hmacros hcode
    -- the tree of this name joins those of the others
    let all : String → Inlining := fun other => if other = name then inl else trees other
    have hself : all name = inl := if_pos rfl
    have hother : ∀ e ∈ rest, all e.1 = trees e.1 := by
      intro e he
      refine if_neg fun heq => hnodup.1 ?_
      exact List.mem_map.2 ⟨e, he, heq⟩
    refine ⟨all, ?_, ?_, ?_⟩
    · intro name' code' locals' hmem hcode'
      rcases List.mem_cons.1 hmem with heq | hmem
      · cases heq
        rw [hself]
        exact hinl
      · rw [hother _ hmem]
        exact htrees name' code' locals' hmem hcode'
    · rw [List.map_cons, expandEntry_sequence all name hkind, hself]
      exact congrArg _ (List.map_congr_left fun e he => expandEntry_congr (hother e he).symm)
    · have hcount : expansionCount all rest = expansionCount trees rest := by
        refine congrArg List.sum (List.map_congr_left fun e he => ?_)
        rw [hother e (List.mem_filter.1 he).1]
      rw [← hcount, expansionCount, expansionCount,
        List.filter_cons_of_pos (by simp [Symbol.isPlaced, hkind]), List.map_cons, List.sum_cons,
        hself]

/-- What expansion does to a program: each of its sequences is inlined, and nothing else changes. -/
theorem Program.eq_of_expand {program expanded : Program} {n : Nat}
    (hsymbols : program.symbols.WellFormed) (h : Program.expand.Yields program n expanded) :
    ∃ trees, TreesOf program.symbols trees program.symbols.entries ∧
      n = expansionCount trees program.symbols.entries ∧
      expanded = { program with symbols :=
        ⟨program.symbols.name, program.symbols.entries.map (expandEntry trees)⟩ } := by
  obtain ⟨final, rfl, hname, hrun⟩ := entriesRun_of_expand hsymbols h
  obtain ⟨trees, htrees, hfinal, hn⟩ := hrun.eq_map hsymbols hsymbols.nodup hsymbols.symbol
  have hsame : final = ⟨program.symbols.name, program.symbols.entries.map (expandEntry trees)⟩ :=
    SymbolTree.ext' hname hfinal
  exact ⟨trees, htrees, hn, by rw [hsame]⟩

end ControlStore
