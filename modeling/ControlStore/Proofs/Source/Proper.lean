import ControlStore.Proofs.Source.Bindings
import ControlStore.Proofs.Source.Naming

/-!
# What reading guarantees

`Program.Proper` collects what holds of every program that was read from a text, in terms of the
program alone: what global names are bound to, which labels, references and signals there can be
inside a sequence, and how control lines, bank selector and opcodes relate to the configuration.

The parts are kept by different means. Names and references are those of the text, signals are
copies of control lines that stay as they are, and room in a word is checked at the end, whatever
the configuration was when a signal was read. `Program.read_proper` puts them together.
-/

namespace ControlStore

/-- A name that can be a segment of a dotted path. -/
structure IsSegment (name : String) : Prop where
  ne_empty : name ≠ ""
  dotless : Dotless name

/-- The signals of an assertion are control lines of the table, none of them twice, and all on the
bank of the assertion. -/
structure Assertion.Proper (controls : ControlTable) (a : Assertion) : Prop where
  control : ∀ signal ∈ a.signals, controls[signal.control.name]? = some signal.control
  nodup : (a.signals.map (·.control.name)).Nodup
  bank : ∀ signal ∈ a.signals, signal.control.bank = a.bank

/-- The own names of a sequence are labels on places among its steps, the sequence has parameters
only if it is a macro, and no reference has been copied out of an expansion. -/
structure Code.Proper (controls : ControlTable) (code : Code) (locals : SymbolTree) : Prop where
  nodup : locals.names.Nodup
  name : ∀ name ∈ locals.names, IsSegment name
  label : ∀ entry ∈ locals.entries,
    ∃ offset ≤ code.steps.length, entry.2 = .label { offset, base := 0 }
  parameters : code.isMacro = false → code.parameters = []
  reference : ∀ r, Step.reference r ∈ code.steps → r.parent = "" ∧ r.callers = []
  assertion : ∀ a, Step.assertion a ∈ code.steps → a.Proper controls

/-- A global symbol is a constant or a sequence. -/
def Symbol.Proper (controls : ControlTable) : Symbol → Prop
  | .constant _ => True
  | .sequence code locals => code.Proper controls locals
  | .label _ => False
  | .scope _ => False

/-- A program as every text leaves it that can be read. -/
structure Program.Proper (program : Program) : Prop where
  nodup : program.symbols.names.Nodup
  name : ∀ name ∈ program.symbols.names, IsSegment name
  symbol : ∀ entry ∈ program.symbols.entries, entry.2.Proper program.controls
  empty : ∀ a, program.emptyAssertion = some a → a.Proper program.controls
  upper : ∀ (name : String) (control : Control), program.controls[name]? = some control →
    control.mask.upper + program.bankMask.length < program.wordWidth
  bank : ∀ (name : String) (control : Control), program.controls[name]? = some control →
    control.bank ≤ program.maxBank
  selector : ∃ n, program.bankMask = ⟨n, 0⟩
  opcodeWidth : 0 < program.opcodeWidth ∧ program.opcodeWidth < 32
  opcode : ∀ opcode ∈ program.entrypoints, opcode < 2 ^ program.opcodeWidth

/-! ## The parts of a program -/

/-- A name without dots is a segment of a path. -/
theorem IsName.isSegment {name : String} (h : IsName name) (hdotless : Dotless name) :
    IsSegment name :=
  ⟨h.ne_empty, hdotless⟩

/-- An assertion that is built from control lines under their own names. -/
theorem Assertion.BuiltFrom.proper {controls : ControlTable} {a : Assertion}
    (hnames : ∀ (name : String) (control : Control), controls[name]? = some control →
      control.name = name) (h : a.BuiltFrom controls) : a.Proper controls := by
  refine ⟨fun signal hsignal => ?_, h.nodup, h.grounded.bank⟩
  obtain ⟨name, hcontrol⟩ := h.grounded.control signal hsignal
  rw [hnames name _ hcontrol]
  exact hcontrol

/-- A sequence as it is written has proper labels, references and assertions. -/
theorem Code.IsWritten.proper {controls : ControlTable} {code : Code} {locals : SymbolTree}
    (hcontrols : ∀ (name : String) (control : Control), controls[name]? = some control →
      control.name = name) (hnamed : code.Named locals) (hsteps : StepsBuiltFrom controls code.steps)
    (h : code.IsWritten locals) : code.Proper controls locals := by
  refine ⟨h.labels.nodup, fun name hname => ?_, h.labels.label, hnamed.parameters,
    fun r hr => ?_, fun a ha => (hsteps a ha).proper hcontrols⟩
  · exact (hnamed.labels name hname).isSegment (h.labels.dotless name hname)
  · exact h.references r (List.mem_filterMap.2 ⟨_, hr, rfl⟩)

namespace Program

/-- Whatever text a program is read from, and in whatever order its definitions come, the program is
as later stages rely on. -/
theorem read_proper {text : String} {program : Program} (h : program.ReadFrom text) :
    program.Proper := by
  have hsymbols := h.wellFormed.symbols
  have hnamed := h.named
  have hgrounded := h.grounded
  have hchecked := h.checked
  refine ⟨hsymbols.nodup, ?_, ?_, ?_, ?_, ?_, ?_, ?_, ?_⟩
  · intro name hname
    exact (hnamed.name name hname).isSegment (hsymbols.dotless name hname)
  · rintro ⟨name, symbol⟩ hentry
    -- a text defines constants, sequences and macros, and nothing else
    have hsymbol := hsymbols.symbol _ hentry
    cases symbol with
    | constant value => trivial
    | sequence code locals =>
      exact Code.IsWritten.proper hnamed.control (hnamed.code name code locals hentry)
        (hgrounded.steps name code locals hentry) hsymbol
    | label l => exact hsymbol.elim
    | scope locals => exact hsymbol.elim
  · intro a ha
    exact (hgrounded.empty a ha).proper hnamed.control
  · intro name control hcontrol
    exact (h.hasRoom.control name control hcontrol).upper
  · intro name control hcontrol
    exact (h.hasRoom.control name control hcontrol).bank
  · exact ⟨program.bankMask.msb, congrArg (Mask.mk _) hgrounded.selector⟩
  · exact ⟨hchecked.opcodeWidth_pos, hchecked.opcodeWidth_lt⟩
  · intro opcode hopcode
    rw [← hchecked.opcodeCount]
    exact hchecked.opcode_lt hopcode

/-- A text that binds a name again, and changes its configuration after a signal has been read. -/
def revisedText : String :=
  "config { bankmask 6 microprogramlength 8 opwidth 40 } control c 1 3:0 const m 5 " ++
  "macro m(x) { assert { c: x } ::b:: } sequence s { m(7) ::t:: } empty { c: 1 } " ++
  "entrypoints { 3: s } config { bankmask 1 controlwordwidth 7 opwidth 2 }"

/-- The text is read, and each name is an entry once. -/
theorem readText_revisedText : ((Reader.readText revisedText).run {}).result = .ok () ∧
    (ofText revisedText).symbols.names = ["m", "s"] := by
  decide +kernel

/-- The text is read with the bindings and the configuration that come last. -/
theorem read_proper_revisedText : (ofText revisedText).ReadFrom revisedText ∧
    (ofText revisedText).symbols.names = ["m", "s"] ∧ (ofText revisedText).Proper := by
  obtain ⟨hread, hnames⟩ := readText_revisedText
  have hfrom := readFrom_ofText hread
  exact ⟨hfrom, hnames, read_proper hfrom⟩

end Program

end ControlStore
