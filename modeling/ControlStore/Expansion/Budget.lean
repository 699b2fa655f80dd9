import ControlStore.Expansion.Macros
import ControlStore.Expansion.Site

/-!
# Why expansion comes to an end

Each copied reference has a longer chain of callers than the one it was copied for, and no macro
occurs twice in a chain. So a reference can only be nested as deeply as there are names of macros
left that its chain does not hold.

`Vocabulary.depth` counts these names. A reference weighs a power with that exponent of a base
larger than any macro body, so a reference weighs more than all references that replace it
together (`weight_expand_lt`). The vocabulary itself is not enlarged by an expansion, since the
scopes stored in a host are copies of trees that were there before (`Vocabulary.Covers.expand`).
-/

namespace ControlStore

/-- The macro references among steps. -/
def references (steps : List Step) : List Reference := steps.filterMap Step.reference?

/-- An assertion is no reference. -/
theorem references_assertion_cons (a : Assertion) (steps : List Step) :
    references (.assertion a :: steps) = references steps := rfl

/-- A reference comes before those behind it. -/
theorem references_reference_cons (r : Reference) (steps : List Step) :
    references (.reference r :: steps) = r :: references steps := rfl

/-- What the macros of a program refer to, and how long their bodies are at most. -/
structure Vocabulary where
  names : List String
  size : Nat

namespace Vocabulary

/-- The vocabulary describes every macro of the tree. -/
def Covers (vocabulary : Vocabulary) (symbols : SymbolTree) : Prop :=
  ∀ body ∈ symbols.macroBodies,
    body.length ≤ vocabulary.size ∧ ∀ r ∈ references body, r.symbol ∈ vocabulary.names

/-- The vocabulary of a tree. -/
def ofSymbols (symbols : SymbolTree) : Vocabulary where
  names := (references symbols.macroBodies.flatten).map Reference.symbol
  size := symbols.macroBodies.flatten.length

/-- The vocabulary of a tree describes the tree. -/
theorem covers_ofSymbols (symbols : SymbolTree) : (ofSymbols symbols).Covers symbols := by
  intro body hbody
  have hsub := List.sublist_flatten_of_mem hbody
  refine ⟨hsub.length_le, fun r hr => ?_⟩
  exact List.mem_map_of_mem ((hsub.filterMap _).subset hr)

/-- The number of names that the chain of a reference does not hold. -/
def depth (vocabulary : Vocabulary) (reference : Reference) : Nat :=
  (vocabulary.names.filter fun name => name ∉ reference.symbol :: reference.callers).length

/-- The weight of a reference. -/
def weigh (vocabulary : Vocabulary) (reference : Reference) : Nat :=
  Nat.pow (vocabulary.size + 1) (vocabulary.depth reference)

/-- The weight of references together. -/
def weighAll (vocabulary : Vocabulary) : List Reference → Nat
  | [] => 0
  | r :: rest => vocabulary.weigh r + vocabulary.weighAll rest

/-- The weight of all references among steps. -/
def stepWeight (vocabulary : Vocabulary) (steps : List Step) : Nat :=
  vocabulary.weighAll (references steps)

/-- The weight of an entry: that of its references, if it is to be expanded. -/
def entryWeight (vocabulary : Vocabulary) : String × Symbol → Nat
  | (_, .sequence code _) => if code.isMacro then 0 else vocabulary.stepWeight code.steps
  | _ => 0

/-- The weight of entries together. -/
def entriesWeight (vocabulary : Vocabulary) : List (String × Symbol) → Nat
  | [] => 0
  | entry :: rest => vocabulary.entryWeight entry + vocabulary.entriesWeight rest

/-- The weight of all that is left to expand. -/
def weight (vocabulary : Vocabulary) (symbols : SymbolTree) : Nat :=
  vocabulary.entriesWeight symbols.entries

end Vocabulary

/-! ## Sites -/

/-- A list that is cut consists of the parts, and has its answer at the cut. -/
theorem eq_of_cutAtFirst? {α β : Type} {f : α → Option β} {l before after : List α} {b : β}
    (h : cutAtFirst? f l = some (before, b, after)) :
    ∃ a, l = before ++ a :: after ∧ f a = some b := by
  induction l generalizing before with
  | nil => simp [cutAtFirst?] at h
  | cons a as ih =>
    rw [cutAtFirst?] at h
    split at h
    · next hb => cases h; exact ⟨a, rfl, hb⟩
    · obtain ⟨⟨p, q, r⟩, hp, heq⟩ := Option.map_eq_some_iff.1 h
      cases heq
      obtain ⟨x, hx, hfx⟩ := ih hp
      exact ⟨x, by simp [hx], hfx⟩

/-- A host is a sequence whose steps are those before the reference, the reference, and those
behind it. -/
theorem Host.eq_of_ofEntry? {entry : String × Symbol} {host : Host}
    (h : Host.ofEntry? entry = some host) :
    entry = (host.name, .sequence host.code host.locals) ∧ host.code.isMacro = false ∧
      host.code.steps = host.before ++ .reference host.reference :: host.after := by
  obtain ⟨name, symbol⟩ := entry
  cases symbol with
  | constant value => simp [Host.ofEntry?] at h
  | label l => simp [Host.ofEntry?] at h
  | scope locals => simp [Host.ofEntry?] at h
  | sequence code locals =>
    simp only [Host.ofEntry?] at h
    split at h
    · simp at h
    · next hkind =>
      obtain ⟨⟨before, reference, after⟩, hcut, heq⟩ := Option.map_eq_some_iff.1 h
      cases heq
      -- the step at the cut is the reference itself
      obtain ⟨step, hsteps, hstep⟩ := eq_of_cutAtFirst? hcut
      cases step with
      | assertion a => simp [Step.reference?] at hstep
      | reference r => cases hstep; exact ⟨rfl, by simpa using hkind, hsteps⟩

/-- A site cuts the global symbols at its host. -/
theorem SymbolTree.entries_of_nextSite? {symbols : SymbolTree} {site : Site}
    (h : symbols.nextSite? = some site) :
    symbols.entries =
        site.earlier ++ (site.host.name, .sequence site.host.code site.host.locals) :: site.later ∧
      site.host.code.isMacro = false ∧
      site.host.code.steps =
        site.host.before ++ .reference site.host.reference :: site.host.after := by
  obtain ⟨⟨earlier, host, later⟩, hcut, heq⟩ := Option.map_eq_some_iff.1 h
  cases heq
  obtain ⟨entry, hentries, hentry⟩ := eq_of_cutAtFirst? hcut
  obtain ⟨rfl, hkind, hsteps⟩ := Host.eq_of_ofEntry? hentry
  exact ⟨hentries, hkind, hsteps⟩

/-- A macro that is found for a reference is one, and the reference has arguments for all of its
parameters. -/
theorem SymbolTree.macroOf_eq_ok {symbols : SymbolTree} {reference : Reference} {code : Code}
    {locals : SymbolTree} (h : symbols.macroOf reference = .ok (code, locals)) :
    symbols.find? reference.symbol = some (.sequence code locals) ∧ code.isMacro = true ∧
      code.parameters.length ≤ reference.arguments.length := by
  unfold SymbolTree.macroOf at h
  split at h
  · next hfind =>
    split at h
    · cases h
    · next hkind =>
      split at h
      · cases h
      · cases h; exact ⟨hfind, by simpa using hkind, by omega⟩
  · cases h

/-- What a successful expansion leaves behind. -/
theorem Site.expand_eq_ok {site : Site} {symbols : SymbolTree}
    (h : (site.expand symbols).result = .ok ()) :
    ∃ (code : Code) (scope : SymbolTree) (inst : MacroInstance) (steps : List Step)
      (locals : SymbolTree),
      symbols.macroOf site.host.reference = .ok (code, scope) ∧
      inst.reference = site.host.reference ∧
      code.steps.mapM inst.copyStep = .ok steps ∧
      (∀ body ∈ locals.macroBodies,
        body ∈ scope.macroBodies ∨ body ∈ site.host.locals.macroBodies) ∧
      (site.expand symbols).state =
        site.rebuild symbols (site.host.before ++ steps ++ site.host.after) locals := by
  unfold Site.expand at h ⊢
  split at h
  · cases h
  · next inst steps hinst =>
    unfold Site.instantiate at hinst
    obtain ⟨⟨code, scope⟩, hkind, hrest⟩ := bind_eq_ok_iff.1 hinst
    obtain ⟨copies, hcopies, heq⟩ := bind_eq_ok_iff.1 hrest
    simp only [pure, Except.pure, Except.ok.injEq, Prod.mk.injEq] at heq
    obtain ⟨rfl, rfl⟩ := heq
    dsimp only at h ⊢
    split at h
    · cases h
    · next locals hlocals =>
      refine ⟨code, scope, _, copies, locals, hkind, rfl, hcopies, ?_, rfl⟩
      intro body hbody
      have := SymbolTree.mem_macroBodies_insert? hlocals hbody
      simpa only [Symbol.macroBodies, SymbolTree.macroBodies_mapLabels] using this

/-! ## Weights -/

namespace Vocabulary

variable {vocabulary : Vocabulary}

/-- An expansion leaves no macro behind that the vocabulary does not describe. -/
theorem Covers.expand {symbols : SymbolTree} {site : Site} (hcovers : vocabulary.Covers symbols)
    (hsite : symbols.nextSite? = some site) (hok : (site.expand symbols).result = .ok ()) :
    vocabulary.Covers (site.expand symbols).state := by
  obtain ⟨hentries, hkind, -⟩ := SymbolTree.entries_of_nextSite? hsite
  obtain ⟨code, scope, inst, steps, locals, hbody, -, -, hlocals, hstate⟩ := Site.expand_eq_ok hok
  -- the new scope is a copy of the macro's own names, which were in the tree before
  have hscope : scope.macroBodies ⊆ symbols.macroBodies := by
    obtain ⟨hfind, -, -⟩ := SymbolTree.macroOf_eq_ok hbody
    refine List.Subset.trans ?_ (SymbolTree.macroBodies_subset_of_get? hfind)
    exact macroBodies_subset_of_tree? rfl
  intro body hmem
  refine hcovers body ?_
  rw [hstate, SymbolTree.macroBodies_def] at hmem
  simp only [Site.rebuild, Host.toEntry, entryBodies_append, entryBodies, Symbol.macroBodies,
    hkind, Bool.false_eq_true, if_false, List.mem_append] at hmem
  -- everything else was in the tree before as well
  have hold : ∀ b, b ∈ entryBodies site.earlier ∨ b ∈ site.host.locals.macroBodies ∨
      b ∈ entryBodies site.later → b ∈ symbols.macroBodies := by
    intro b hb
    rw [SymbolTree.macroBodies_def, hentries]
    simpa only [entryBodies_append, entryBodies, Symbol.macroBodies, hkind, Bool.false_eq_true,
      if_false, List.mem_append] using hb
  rcases hmem with hmem | hmem | hmem
  · exact hold body (.inl hmem)
  · rcases hlocals body hmem with h | h
    · exact hscope h
    · exact hold body (.inr (.inl h))
  · exact hold body (.inr (.inr hmem))

/-- A name that only the stricter test refuses makes a shorter list. -/
theorem length_filter_lt {α : Type} {p q : α → Bool} {l : List α}
    (hpq : ∀ a ∈ l, q a = true → p a = true) {a : α} (ha : a ∈ l) (hp : p a = true)
    (hq : q a = false) : (l.filter q).length < (l.filter p).length := by
  induction l with
  | nil => simp at ha
  | cons b l ih =>
    have hle : (l.filter q).length ≤ (l.filter p).length := by
      rw [← List.countP_eq_length_filter, ← List.countP_eq_length_filter]
      exact List.countP_mono_left fun x hx h => hpq x (List.mem_cons_of_mem _ hx) h
    rcases List.mem_cons.1 ha with rfl | ha
    · simp only [List.filter_cons, hp, hq, if_true, Bool.false_eq_true, if_false,
        List.length_cons]
      omega
    · have hlt := ih (fun x hx => hpq x (List.mem_cons_of_mem _ hx)) ha
      by_cases hqb : q b = true
      · simp only [List.filter_cons, hqb, hpq b (List.mem_cons_self ..) hqb, if_true,
          List.length_cons]
        omega
      · rw [List.filter_cons_of_neg hqb, List.filter_cons]
        split
        · rw [List.length_cons]; omega
        · exact hlt

/-- A copied reference has fewer names left than the reference it was copied for. -/
theorem depth_copyReference {inst : MacroInstance} {nested copy : Reference}
    (hcopy : inst.copyReference nested = .ok copy) (hname : nested.symbol ∈ vocabulary.names) :
    vocabulary.depth copy < vocabulary.depth inst.reference := by
  unfold MacroInstance.copyReference at hcopy
  dsimp only at hcopy
  split at hcopy
  · cases hcopy
  · next hself =>
    split at hcopy
    · next hchain =>
      cases hcopy
      -- a chain that is dropped as a whole does not hold the name
      have hfresh : nested.symbol ∉ inst.reference.callers := by
        have hwhole := List.takeWhile_append_dropWhile (p := (· ≠ nested.symbol))
          (l := inst.reference.callers)
        rw [hchain, List.append_nil] at hwhole
        have hall := List.all_takeWhile (p := (· ≠ nested.symbol)) (l := inst.reference.callers)
        rw [hwhole] at hall
        intro hmem
        simpa using List.all_eq_true.1 hall _ hmem
      refine length_filter_lt ?_ hname ?_ ?_
      · intro name _ h
        simp only [decide_eq_true_eq, List.mem_cons, List.mem_append, not_or] at h ⊢
        exact ⟨h.2.2.1, h.2.1⟩
      · simp [hself, hfresh]
      · simp
    · cases hcopy

/-- The references among copied steps are copies of references. -/
theorem exists_of_mem_references_mapM {inst : MacroInstance} {body steps : List Step}
    (h : body.mapM inst.copyStep = .ok steps) :
    (references steps).length ≤ body.length ∧
      ∀ copy ∈ references steps, ∃ nested ∈ references body,
        inst.copyReference nested = .ok copy := by
  induction body generalizing steps with
  | nil => cases h; simp [references]
  | cons step body ih =>
    rw [List.mapM_cons] at h
    obtain ⟨first, hfirst, hrest⟩ := bind_eq_ok_iff.1 h
    obtain ⟨others, hothers, heq⟩ := bind_eq_ok_iff.1 hrest
    cases heq
    obtain ⟨hlength, hcopies⟩ := ih hothers
    cases step with
    | assertion a =>
      simp only [MacroInstance.copyStep, Except.ok.injEq] at hfirst
      subst hfirst
      simp only [references_assertion_cons, List.length_cons]
      exact ⟨Nat.le_succ_of_le hlength, hcopies⟩
    | reference r =>
      simp only [MacroInstance.copyStep] at hfirst
      cases hcopy : inst.copyReference r with
      | error e => rw [hcopy] at hfirst; cases hfirst
      | ok copy =>
        rw [hcopy] at hfirst
        cases hfirst
        simp only [references_reference_cons, List.length_cons, List.mem_cons]
        refine ⟨Nat.succ_le_succ hlength, ?_⟩
        rintro c (rfl | hc)
        · exact ⟨r, .inl rfl, hcopy⟩
        · obtain ⟨nested, hnested, h⟩ := hcopies c hc
          exact ⟨nested, .inr hnested, h⟩

theorem weighAll_append (refs others : List Reference) :
    vocabulary.weighAll (refs ++ others) =
      vocabulary.weighAll refs + vocabulary.weighAll others := by
  induction refs with
  | nil => simp [weighAll]
  | cons r rest ih => simp only [List.cons_append, weighAll, ih, Nat.add_assoc]

theorem entriesWeight_append (entries others : List (String × Symbol)) :
    vocabulary.entriesWeight (entries ++ others) =
      vocabulary.entriesWeight entries + vocabulary.entriesWeight others := by
  induction entries with
  | nil => simp [entriesWeight]
  | cons entry rest ih => simp only [List.cons_append, entriesWeight, ih, Nat.add_assoc]

/-- References of depth at most `d` weigh at most their number times the weight at depth `d`. -/
theorem weighAll_le {d : Nat} {refs : List Reference} (h : ∀ r ∈ refs, vocabulary.depth r ≤ d) :
    vocabulary.weighAll refs ≤ refs.length * Nat.pow (vocabulary.size + 1) d := by
  induction refs with
  | nil => simp [weighAll]
  | cons r rest ih =>
    have hr : vocabulary.weigh r ≤ Nat.pow (vocabulary.size + 1) d :=
      Nat.pow_le_pow_right (Nat.succ_pos _) (h r (List.mem_cons_self ..))
    have hrest := ih fun x hx => h x (List.mem_cons_of_mem _ hx)
    simp only [weighAll, List.length_cons, Nat.succ_mul]
    omega

/-- At most `size` references, each of smaller depth, weigh less than one of the greater depth. -/
theorem weighAll_lt {refs : List Reference} {reference : Reference}
    (hlength : refs.length ≤ vocabulary.size)
    (hdepth : ∀ r ∈ refs, vocabulary.depth r < vocabulary.depth reference) :
    vocabulary.weighAll refs < vocabulary.weigh reference := by
  cases hd : vocabulary.depth reference with
  | zero =>
    have hnil : refs = [] := by
      cases refs with
      | nil => rfl
      | cons r rest =>
        have := hdepth r (List.mem_cons_self ..)
        omega
    rw [hnil]
    exact Nat.pow_pos (Nat.succ_pos _)
  | succ d =>
    have hle := weighAll_le fun r hr => Nat.le_of_lt_succ (hd ▸ hdepth r hr)
    have hmul : refs.length * Nat.pow (vocabulary.size + 1) d <
        Nat.pow (vocabulary.size + 1) d * (vocabulary.size + 1) := by
      rw [Nat.mul_comm]
      exact Nat.mul_lt_mul_of_pos_left (by omega) (Nat.pow_pos (Nat.succ_pos _))
    have hweigh : vocabulary.weigh reference =
        Nat.pow (vocabulary.size + 1) d * (vocabulary.size + 1) := by
      rw [weigh, hd]
      rfl
    omega

/-- The weights of steps in a row add up. -/
theorem stepWeight_append (steps others : List Step) :
    vocabulary.stepWeight (steps ++ others) =
      vocabulary.stepWeight steps + vocabulary.stepWeight others := by
  simp only [stepWeight, references, List.filterMap_append, weighAll_append]

/-- A reference adds its own weight. -/
theorem stepWeight_reference_cons (r : Reference) (steps : List Step) :
    vocabulary.stepWeight (.reference r :: steps) =
      vocabulary.weigh r + vocabulary.stepWeight steps := rfl

/-- Every expansion takes weight off the symbols. -/
theorem weight_expand_lt {symbols : SymbolTree} {site : Site} (hcovers : vocabulary.Covers symbols)
    (hsite : symbols.nextSite? = some site) (hok : (site.expand symbols).result = .ok ()) :
    vocabulary.weight (site.expand symbols).state < vocabulary.weight symbols := by
  obtain ⟨hentries, hkind, hsteps⟩ := SymbolTree.entries_of_nextSite? hsite
  obtain ⟨code, scope, inst, steps, locals, hbody, hinst, hcopies, -, hstate⟩ :=
    Site.expand_eq_ok hok
  obtain ⟨hfind, hisMacro, -⟩ := SymbolTree.macroOf_eq_ok hbody
  have hmem : code.steps ∈ symbols.macroBodies := by
    refine SymbolTree.macroBodies_subset_of_get? hfind ?_
    simp [Symbol.macroBodies, hisMacro]
  obtain ⟨hsize, hnames⟩ := hcovers code.steps hmem
  obtain ⟨hlength, hrefs⟩ := exists_of_mem_references_mapM hcopies
  -- the copied references together weigh less than the one they replace
  have hlt : vocabulary.stepWeight steps < vocabulary.weigh site.host.reference := by
    refine weighAll_lt (Nat.le_trans hlength hsize) ?_
    intro r hr
    obtain ⟨nested, hnested, hcopy⟩ := hrefs r hr
    rw [← hinst]
    exact depth_copyReference hcopy (hnames nested hnested)
  -- all other entries, and the steps on both sides of the reference, keep their weight
  rw [hstate]
  simp only [weight, hentries, Site.rebuild, Host.toEntry, entriesWeight_append, entriesWeight,
    entryWeight, hkind, Bool.false_eq_true, if_false, hsteps, stepWeight_append,
    stepWeight_reference_cons]
  omega

end Vocabulary

end ControlStore
