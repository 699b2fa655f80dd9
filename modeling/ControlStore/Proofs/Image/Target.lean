import ControlStore.Proofs.Image.Store

/-!
# Jump targets

A label stands for the line of the store that holds the first word behind it. It may belong to a
sequence or to an instance of a macro at any depth: both are a `Body` of the sequence, with its
words together on lines of the store.

The place of a label is decided by expansion, its base by placement, and the line by the image.
`Compilation.Marks` says how they fit together.
-/

namespace ControlStore

/-! ## Bodies -/

/-- A body where a host has it after expansion. Its steps and its names are as they were written. -/
structure Body where
  frame : Frame
  /-- The number of words of the host before the body. -/
  start : Nat
  steps : List Step
  names : SymbolTree
  inl : Inlining

/-- The bodies of a host: its own, and those of the instances of macros in it, at any depth. -/
inductive Body.In (macros : SymbolTree) (code : Code) (locals : SymbolTree) (inl : Inlining) :
    Body → Prop
  | own : Body.In macros code locals inl ⟨none, 0, code.steps, locals, inl⟩
  | block {block : Block} {body : Code} (hblock : block ∈ inl.blocks 0)
      (hdef : macros.IsMacro block.inst.reference.symbol body block.inst.locals) :
      Body.In macros code locals inl
        ⟨some block.inst, block.start, body.steps, block.inst.locals, block.body⟩

section

variable {macros locals : SymbolTree} {code : Code} {inl : Inlining} {body : Body}

/-- A body is inlined to its tree. -/
theorem Body.In.inlines (h : body.In macros code locals inl) (hnodup : macros.names.Nodup)
    (hinl : Inlines macros none locals.names code.steps inl) :
    Inlines macros body.frame body.names.names body.steps body.inl := by
  cases h with
  | own => exact hinl
  | @block b written hblock hdef =>
    obtain ⟨code', hdef', -, hbody⟩ := hinl.of_mem_blocks hblock
    cases entry_unique hnodup hdef.mem hdef'.mem
    exact hbody

/-- The words of a body stand together among those of the host. -/
theorem Body.In.words (h : body.In macros code locals inl) :
    ∃ before after, inl.words = before ++ body.inl.words ++ after ∧
      body.start = before.length := by
  cases h with
  | own => exact ⟨[], [], by simp, rfl⟩
  | block hblock _ =>
    obtain ⟨before, after, hwords, hstart⟩ := Inlining.words_of_mem_blocks hblock
    exact ⟨before, after, hwords, by rw [hstart, Nat.zero_add]⟩

/-- A body ends inside the sequence it belongs to. -/
theorem Body.In.stop_le (h : body.In macros code locals inl) :
    body.start + body.inl.size ≤ inl.size := by
  obtain ⟨before, after, hwords, hstart⟩ := h.words
  rw [Inlining.size, Inlining.size, hwords, List.length_append, List.length_append]
  omega

/-- The names of a body are labels. -/
theorem Body.In.labels (h : body.In macros code locals inl) (hmacros : macros.WellFormed)
    (hcode : code.IsWritten locals) : body.names.OnlyLabels body.steps.length := by
  cases h with
  | own => exact hcode.labels
  | block hblock hdef => exact (hmacros.isWritten hdef).1.labels

/-- A label of a body is found by its path in the names of the host. -/
theorem Body.In.find? (h : body.In macros code locals inl) (hmacros : macros.WellFormed)
    (hcode : code.IsWritten locals) (hinl : Inlines macros none locals.names code.steps inl)
    {name : String} {offset : Nat} (hlabel : (name, .label { offset }) ∈ body.names.entries)
    (tree : String) :
    (inl.tree tree 0 locals.entries).find? (qualify body.frame.scope name) =
      some (.label (body.inl.place body.start { offset })) := by
  cases h with
  | own =>
    have hdotless : Dotless name := hcode.labels.dotless _ (List.mem_map_of_mem hlabel)
    rw [Frame.scope, qualify, if_pos rfl, SymbolTree.find?, Path.ofName_of_dotless hdotless,
      SymbolTree.get?]
    exact Inlining.local?_tree hcode.labels.nodup hlabel inl tree 0
  | @block b written hblock hdef =>
    obtain ⟨key, path, hscope, -⟩ := hinl.ofScope_of_mem_blocks hmacros hblock
    -- the scope of an instance has a name, so labels are below it
    have hne : b.inst.scope ≠ "" := by
      intro heq
      simp [heq, Frame.scope] at hscope
    rw [Frame.scope, qualify, if_neg hne]
    exact hinl.find?_of_mem_blocks hmacros hblock hlabel tree

end

/-! ## Words on their lines -/

variable {text : String}

/-- The words stand on the lines of the store from an address on, with their symbols resolved among
`names` first and then globally. -/
def Compilation.WordsAt (c : Compilation text) (table : List WordLine) (names : SymbolTree)
    (address : Nat) (words : List Assertion) : Prop :=
  ∀ i a, words[i]? = some a → ∃ resolved word,
    a.ResolvesTo (lookupIn names c.linked.symbols) resolved ∧
    (c.linked.encode resolved).result = .ok word ∧
    (storeWords table)[address + i]? = some word

/-- Words in the middle stand behind those before them. -/
theorem Compilation.WordsAt.middle {c : Compilation text} {table : List WordLine}
    {names : SymbolTree} {address : Nat} {before words after : List Assertion}
    (h : c.WordsAt table names address (before ++ words ++ after)) :
    c.WordsAt table names (address + before.length) words := by
  intro i a ha
  have hlt : i < words.length := (List.getElem?_eq_some_iff.1 ha).1
  have hwhole : (before ++ words ++ after)[before.length + i]? = some a := by
    rw [List.append_assoc, List.getElem?_append_right (Nat.le_add_right _ _),
      Nat.add_sub_cancel_left, List.getElem?_append_left hlt, ha]
  obtain ⟨resolved, word, hresolved, hencoded, hword⟩ := h _ a hwhole
  refine ⟨resolved, word, hresolved, hencoded, ?_⟩
  rw [Nat.add_assoc]
  exact hword

/-- A sequence of a text, from its tree to its place in the store. -/
structure Compilation.Sequenced (c : Compilation text) (name : String) (code : Code)
    (locals : SymbolTree) (inl : Inlining) (linked : Code) (names : SymbolTree) : Prop where
  inlines : Inlines c.program.symbols none locals.names code.steps inl
  mem : (name, .sequence linked names) ∈ c.linked.symbols.entries
  names_eq : names = (inl.tree locals.name 0 locals.entries).basedAt linked.address
  steps : List.Forall₂ (Step.ResolvesTo (lookupIn names c.linked.symbols))
    (inl.words.map .assertion) linked.steps
  listed : name ∈ c.layout

/-- Every sequence of the program has a tree, and its words are the linked ones. -/
theorem Compilation.exists_sequenced (c : Compilation text) {name : String} {code : Code}
    {locals : SymbolTree} (hcode : (name, .sequence code locals) ∈ c.program.symbols.entries)
    (hkind : code.isMacro = false) :
    ∃ inl linked names, c.Sequenced name code locals inl linked names := by
  obtain ⟨trees, htrees, -, hexpanded⟩ :=
    Program.eq_of_expand c.readFrom.wellFormed.symbols c.expands
  have hmem : (name, .sequence { code with steps := (trees name).words.map .assertion }
      ((trees name).tree locals.name 0 locals.entries)) ∈ c.expanded.symbols.entries := by
    rw [hexpanded]
    exact List.mem_map.2 ⟨_, hcode, expandEntry_sequence trees name hkind locals⟩
  obtain ⟨steps, hlinked, hsteps⟩ := c.linksTo.sequence name _ _ hmem hkind
  obtain ⟨codes, hcodes⟩ := c.exists_laidOut
  exact ⟨trees name, _, _, htrees name code locals hcode hkind, hlinked, rfl, hsteps,
    (hcodes.mem_iff name).2 ⟨code, locals, hcode, hkind⟩⟩

section

variable {c : Compilation text} {name : String} {code linked : Code}
  {locals names : SymbolTree} {inl : Inlining} {table : List WordLine} {body : Body}

/-- The words of a sequence are on the lines from its address on. -/
theorem Compilation.Sequenced.wordsAt (h : c.Sequenced name code locals inl linked names)
    (htable : (c.linked.wordTable c.layout).result = .ok table) :
    c.WordsAt table names linked.address inl.words := by
  intro i a ha
  have hstep : (inl.words.map Step.assertion)[i]? = some (.assertion a) := by
    rw [List.getElem?_map, ha]
    rfl
  obtain ⟨step, hlinked, hresolves⟩ := exists_getElem?_of_forall₂ h.steps hstep
  obtain ⟨word, hencoded, hword⟩ :=
    Program.word_of_step c.linksTo.linkable htable h.listed h.mem hlinked
  rw [← c.address_eq h.listed h.mem] at hword
  cases hresolves with
  | assertion ha => exact ⟨_, word, ha, hencoded, hword⟩

/-- The words of a body are together on their lines, too. -/
theorem Compilation.Sequenced.wordsAt_body (h : c.Sequenced name code locals inl linked names)
    (htable : (c.linked.wordTable c.layout).result = .ok table)
    (hbody : body.In c.program.symbols code locals inl) :
    c.WordsAt table names (linked.address + body.start) body.inl.words := by
  have hwhole := h.wordsAt htable
  obtain ⟨before, after, hwords, hstart⟩ := hbody.words
  rw [hwords] at hwhole
  rw [hstart]
  exact hwhole.middle

/-- A sequence ends within the store. -/
theorem Compilation.Sequenced.stop_le (h : c.Sequenced name code locals inl linked names) :
    linked.address + inl.size ≤ c.program.length := by
  have hsize : inl.size = linked.steps.length := by
    rw [← h.steps.length_eq, List.length_map, Inlining.size]
  rw [hsize]
  exact c.stop_le_length h.listed h.mem

end

/-! ## What an asserted name becomes -/

/-- A signal of an expanded program as `signal`, and in the linked program as `resolved`, where the
sequence has the given names. The assertion for unused addresses has no names of its own. -/
inductive Compilation.LinksSignal (c : Compilation text) : SymbolTree → Signal → Signal → Prop
  | sequence {name : String} {code linked : Code} {locals names : SymbolTree} {i j : Nat}
      {a b : Assertion} {signal resolved : Signal}
      (hcode : (name, .sequence code locals) ∈ c.expanded.symbols.entries)
      (hkind : code.isMacro = false)
      (hlinked : (name, .sequence linked names) ∈ c.linked.symbols.entries)
      (ha : code.steps[i]? = some (.assertion a)) (hb : linked.steps[i]? = some (.assertion b))
      (hsignal : a.signals[j]? = some signal) (hresolved : b.signals[j]? = some resolved) :
      LinksSignal c names signal resolved
  | empty {j : Nat} {a b : Assertion} {signal resolved : Signal}
      (ha : c.expanded.emptyAssertion = some a) (hb : c.linked.emptyAssertion = some b)
      (hsignal : a.signals[j]? = some signal) (hresolved : b.signals[j]? = some resolved) :
      LinksSignal c .empty signal resolved

/-- The signals of a resolved assertion are the resolved signals, place by place. -/
theorem Assertion.ResolvesTo.signal {lookup : Lookup} {a b : Assertion}
    (h : a.ResolvesTo lookup b) {j : Nat} {signal resolved : Signal}
    (hsignal : a.signals[j]? = some signal) (hresolved : b.signals[j]? = some resolved) :
    signal.ResolvesTo lookup resolved := by
  obtain ⟨other, hother, hresolves⟩ := exists_getElem?_of_forall₂ h.signals hsignal
  rw [hresolved] at hother
  cases hother
  exact hresolves

/-- Symbols become what the linked program says they are. -/
theorem Compilation.LinksSignal.resolvesTo {c : Compilation text} {names : SymbolTree}
    {signal resolved : Signal} (h : c.LinksSignal names signal resolved) :
    signal.ResolvesTo (lookupIn names c.linked.symbols) resolved := by
  cases h with
  | @sequence name code linked locals names i j a b _ _ hcode hkind hlinked ha hb hsignal
      hresolved =>
    obtain ⟨steps, hmem, hsteps⟩ := c.linksTo.sequence name code locals hcode hkind
    cases entry_unique c.linksTo.linkable.nodup hlinked hmem
    obtain ⟨step, hstep, hresolves⟩ := exists_getElem?_of_forall₂ hsteps ha
    have hb : steps[i]? = some (.assertion b) := hb
    rw [hb] at hstep
    cases hstep
    cases hresolves with
    | assertion h => exact h.signal hsignal hresolved
  -- the empty assertion has no names of its own, so only the global ones count
  | empty ha hb hsignal hresolved =>
    obtain ⟨empty, filled, hempty, hfilled, hresolves⟩ := c.linksTo.empty
    rw [ha] at hempty
    rw [hb] at hfilled
    cases hempty
    cases hfilled
    have hlookup : lookupIn .empty c.linked.symbols = c.linked.symbols.find? := by
      funext x
      rw [lookupIn, SymbolTree.find?_empty, Option.none_or]
    rw [hlookup]
    exact hresolves.signal hsignal hresolved

/-- An address of the store is read back as it is. -/
theorem ofPattern_of_lt {n : Nat} (h : n < 0x8000000000000000) : ofPattern n = n := by
  unfold ofPattern
  rw [Int.bmod_def]
  omega

/-! ## The places of labels -/

/-- Where a label of a body ends up: `target` is the label in the linked program, and the words of
the body start at `address`. -/
structure Compilation.Marks (c : Compilation text) (table : List WordLine) (names : SymbolTree)
    (address : Nat) (body : Body) (label target : Label) : Prop where
  /-- The label is as many words behind the start of the body as the steps before it come to. -/
  place : ∀ words, c.program.symbols.WordsOf (body.steps.take label.offset) words ↔
    target.address = address + words
  /-- On its line and the next ones are the words of the steps behind it, up to the end of the
  body. -/
  behind : ∃ taken rest,
    Inlines c.program.symbols body.frame taken (body.steps.drop label.offset) rest ∧
    c.WordsAt table names target.address rest.words ∧
    target.address + rest.size = address + body.inl.size
  /-- Every signal that asserts the label gets its address. -/
  received : ∀ scope signal resolved x, c.LinksSignal scope signal resolved →
    signal.value = .symbol x → lookupIn scope c.linked.symbols x = some (.label target) →
    resolved.value = .integer target.address

/-- A label of the linked program stands for its address, which is one of the store or the one
behind it. -/
theorem Compilation.received_of_le (c : Compilation text) {target : Label}
    (h : target.address ≤ c.program.length) {scope : SymbolTree} {signal resolved : Signal}
    {x : String} (hsignal : c.LinksSignal scope signal resolved) (hx : signal.value = .symbol x)
    (hlookup : lookupIn scope c.linked.symbols x = some (.label target)) :
    resolved.value = .integer target.address := by
  have hresolves := hsignal.resolvesTo.value
  rw [hx] at hresolves
  generalize resolved.value = value at hresolves
  cases hresolves with
  | symbol hfound hvalue =>
    rw [hlookup] at hfound
    cases hfound
    have hlt := c.readFrom.wellFormed.length_lt
    rw [Symbol.resolve, ofPattern_of_lt (by omega)] at hvalue
    cases hvalue
    rfl

/-- A label of a body marks its word: it is found under the scope of the body, and has the address
of the words written before it. -/
theorem Compilation.Sequenced.marks {c : Compilation text} {name : String} {code linked : Code}
    {locals names : SymbolTree} {inl : Inlining} {table : List WordLine} {body : Body}
    (h : c.Sequenced name code locals inl linked names)
    (hcode : code.IsWritten locals) (htable : (c.linked.wordTable c.layout).result = .ok table)
    (hbody : body.In c.program.symbols code locals inl) {l : String} {label : Label}
    (hlabel : (l, .label label) ∈ body.names.entries) :
    ∃ target, names.find? (qualify body.frame.scope l) = some (.label target) ∧
      c.Marks table names (linked.address + body.start) body label target := by
  have hsymbols := c.readFrom.wellFormed.symbols
  have hinl := hbody.inlines hsymbols.nodup h.inlines
  obtain ⟨offset, hoffset, heq⟩ := (hbody.labels hsymbols hcode).label _ hlabel
  cases heq
  refine ⟨⟨body.start + (body.inl.take offset).size, linked.address⟩, ?_, ?_⟩
  · rw [h.names_eq, SymbolTree.basedAt, SymbolTree.find?_mapLabels,
      hbody.find? hsymbols hcode h.inlines hlabel]
    rfl
  · -- the words before and behind the label are those of the body, which lies inside the sequence
    have hsizes := body.inl.size_take_add_size_drop offset
    have hstop := h.stop_le
    have hinside := hbody.stop_le
    have haddress : Label.address ⟨body.start + (body.inl.take offset).size, linked.address⟩ =
        linked.address + body.start + (body.inl.take offset).size := by
      rw [Label.address, Nat.add_assoc]
    obtain ⟨taken, hrest⟩ := hinl.drop offset
    refine ⟨?_, ⟨taken, body.inl.drop offset, hrest, ?_, ?_⟩, ?_⟩
    · intro words
      have hcount := (hinl.take offset).wordsOf
      rw [haddress]
      constructor
      · intro hother
        rw [hcount.unique hsymbols.nodup hother]
      · intro heq
        rw [← Nat.add_left_cancel heq]
        exact hcount
    · -- the body's words are cut at the label
      have hbehind := h.wordsAt_body htable hbody
      rw [← body.inl.words_take_append_drop offset, ← List.append_nil (_ ++ _)] at hbehind
      rw [haddress]
      exact hbehind.middle
    · rw [haddress]
      omega
    · intro scope signal resolved x hsignal hx hlookup
      refine c.received_of_le ?_ hsignal hx hlookup
      rw [haddress]
      omega

/-- Jump targets of a compiled text: every label of a sequence, or of a macro's instance in it, is
bound to the line of the first word behind it, and this is the number that is asserted for it. -/
theorem compile_marks {text : String} {debug : Bool} {image : Image}
    (h : (compile (.ok text) debug).result = .ok image) :
    ∃ (c : Compilation text) (table : List WordLine),
      (c.linked.image c.layout debug).result = .ok image ∧
      (c.linked.wordTable c.layout).result = .ok table ∧
      image.microprogram = renderWords debug table ∧
      ∀ name code locals, (name, .sequence code locals) ∈ c.program.symbols.entries →
        code.isMacro = false → ∃ inl linked names,
          Inlines c.program.symbols none locals.names code.steps inl ∧
          (name, .sequence linked names) ∈ c.linked.symbols.entries ∧
          ∀ body : Body, body.In c.program.symbols code locals inl →
            c.WordsAt table names (linked.address + body.start) body.inl.words ∧
            ∀ l label, (l, .label label) ∈ body.names.entries → ∃ target,
              names.find? (qualify body.frame.scope l) = some (.label target) ∧
              c.Marks table names (linked.address + body.start) body label target := by
  obtain ⟨c, himage⟩ := compile_eq_ok_iff.1 h
  obtain ⟨table, htable, hwords⟩ := Program.wordTable_of_image himage
  refine ⟨c, table, himage, htable, hwords, ?_⟩
  intro name code locals hcode hkind
  obtain ⟨inl, linked, names, hsequenced⟩ := c.exists_sequenced hcode hkind
  refine ⟨inl, linked, names, hsequenced.inlines, hsequenced.mem, ?_⟩
  intro body hbody
  refine ⟨hsequenced.wordsAt_body htable hbody, fun l label hlabel => ?_⟩
  have hwritten : code.IsWritten locals := c.readFrom.wellFormed.symbols.symbol _ hcode
  exact hsequenced.marks hwritten htable hbody hlabel

/-- The sample text is compiled, and the labels of its sequences are on the lines they mark. -/
theorem compile_marks_sampleText : ∃ image, (compile (.ok sampleText) false).result = .ok image ∧
    ∃ (c : Compilation sampleText) (table : List WordLine),
      image.microprogram = renderWords false table ∧
      ∀ name code locals, (name, .sequence code locals) ∈ c.program.symbols.entries →
        code.isMacro = false → ∃ linked names,
          (name, .sequence linked names) ∈ c.linked.symbols.entries ∧
          ∀ l label, (l, .label label) ∈ locals.entries → ∃ target,
            names.find? l = some (.label target) ∧
            ∀ words, (c.program.symbols.WordsOf (code.steps.take label.offset) words ↔
              target.address = linked.address + words) := by
  obtain ⟨image, hcompile, -⟩ := exists_image_sampleText
  obtain ⟨c, table, -, -, hwords, hsequences⟩ := compile_marks hcompile
  refine ⟨image, hcompile, c, table, hwords, ?_⟩
  intro name code locals hcode hkind
  obtain ⟨inl, linked, names, -, hlinked, hbodies⟩ := hsequences name code locals hcode hkind
  refine ⟨linked, names, hlinked, ?_⟩
  intro l label hlabel
  obtain ⟨-, hlabels⟩ := hbodies _ .own
  obtain ⟨target, hfind, hmarks⟩ := hlabels l label hlabel
  rw [Frame.scope, qualify, if_pos rfl] at hfind
  exact ⟨target, hfind, hmarks.place⟩

end ControlStore
