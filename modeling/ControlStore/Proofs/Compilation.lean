import ControlStore.Compile
import ControlStore.Proofs.Source.WellFormed

/-!
# Compilation, stage by stage

A compilation succeeds exactly if each of its stages does. `Compilation` keeps what the stages of a
text leave behind: the program that was read, the expanded one and the linked one. Statements about
compiled programs are made about these (`compile_eq_ok_iff`). A compilation that fails does so in
one of its stages (`failsWith_of_compile`).
-/

namespace ControlStore

/-- A stage that is run for its report succeeds with its answer and the state that it leaves. -/
theorem Stage.result_report_eq_ok_iff {ε ε' σ α : Type} {stage : Stage ε σ α} {restate : ε → ε'}
    {state final : σ} {a : α} :
    (stage.report restate state).result = .ok (a, final) ↔ stage.Yields state a final := by
  simp [report, Yields]

/-- A stage that is run for its report fails with its cause restated. -/
theorem Stage.result_report_eq_error_iff {ε ε' σ α : Type} {stage : Stage ε σ α}
    {restate : ε → ε'} {state : σ} {failure : ε'} :
    (stage.report restate state).result = .error failure ↔
      ∃ cause, stage.Fails state cause ∧ restate cause = failure := by
  rw [report, mapError_eq_error_iff]
  simp only [map_eq_error_iff]
  rfl

/-- What the stages of a text leave up to its linked program. -/
structure Compilation (text : String) where
  program : Program
  /-- The number of expansions. -/
  count : Nat
  expanded : Program
  layout : List String
  linked : Program
  readFrom : program.ReadFrom text
  expands : Program.expand.Yields program count expanded
  links : Program.link.Yields expanded layout linked

/-- A text is compiled to the image of its linked program. -/
theorem compile_eq_ok_iff {text : String} {debug : Bool} {image : Image} :
    (compile (.ok text) debug).result = .ok image ↔
      ∃ c : Compilation text, (c.linked.image c.layout debug).result = .ok image := by
  unfold compile
  constructor
  · intro h
    obtain ⟨⟨_, reader⟩, hread, h⟩ := Report.result_bind_eq_ok_iff.1 h
    obtain ⟨⟨count, expanded⟩, hexpand, h⟩ := Report.result_bind_eq_ok_iff.1 h
    obtain ⟨_, -, h⟩ := Report.result_bind_eq_ok_iff.1 h
    obtain ⟨⟨layout, linked⟩, hlink, h⟩ := Report.result_bind_eq_ok_iff.1 h
    obtain ⟨_, -, h⟩ := Report.result_bind_eq_ok_iff.1 h
    rw [Stage.result_report_eq_ok_iff] at hread hexpand hlink
    exact ⟨⟨reader.program, count, expanded, layout, linked, ⟨reader, hread, rfl⟩, hexpand, hlink⟩,
      mapError_eq_ok_iff.1 h⟩
  · rintro ⟨c, himage⟩
    obtain ⟨reader, hread, hprogram⟩ := c.readFrom
    refine Report.result_bind_eq_ok_iff.2
      ⟨((), reader), Stage.result_report_eq_ok_iff.2 hread, ?_⟩
    refine Report.result_bind_eq_ok_iff.2
      ⟨(c.count, c.expanded), Stage.result_report_eq_ok_iff.2 (hprogram ▸ c.expands), ?_⟩
    refine Report.result_bind_eq_ok_iff.2 ⟨(), rfl, ?_⟩
    refine Report.result_bind_eq_ok_iff.2
      ⟨(c.layout, c.linked), Stage.result_report_eq_ok_iff.2 c.links, ?_⟩
    refine Report.result_bind_eq_ok_iff.2 ⟨(), rfl, ?_⟩
    exact mapError_eq_ok_iff.2 himage

/-- How the compilation of a text can fail: in one of its stages, after those before it have done
their work. -/
inductive FailsWith (text : String) (debug : Bool) : Failure → Prop
  | parse (error : ParseError) : FailsWith text debug (.parse error)
  | expansion {program : Program} {error : ExpansionError} (hread : program.ReadFrom text)
      (hfails : Program.expand.Fails program error) : FailsWith text debug (.expansion error)
  | link {program expanded : Program} {n : Nat} {error : LinkError} (hread : program.ReadFrom text)
      (hexpand : Program.expand.Yields program n expanded)
      (hfails : Program.link.Fails expanded error) : FailsWith text debug (.link error)
  | write (c : Compilation text) {error : WriteError}
      (hfails : (c.linked.image c.layout debug).result = .error error) :
      FailsWith text debug (.write error)

/-- A compilation that fails does so in the first stage that fails. -/
theorem failsWith_of_compile {text : String} {debug : Bool} {failure : Failure}
    (h : (compile (.ok text) debug).result = .error failure) : FailsWith text debug failure := by
  unfold compile at h
  rcases Report.result_bind_eq_error_iff.1 h with h | ⟨⟨_, reader⟩, hread, h⟩
  · obtain ⟨error, -, rfl⟩ := Stage.result_report_eq_error_iff.1 h
    exact .parse error
  have hread : reader.program.ReadFrom text :=
    ⟨reader, Stage.result_report_eq_ok_iff.1 hread, rfl⟩
  rcases Report.result_bind_eq_error_iff.1 h with h | ⟨⟨count, expanded⟩, hexpand, h⟩
  · obtain ⟨error, hfails, rfl⟩ := Stage.result_report_eq_error_iff.1 h
    exact .expansion hread hfails
  rw [Stage.result_report_eq_ok_iff] at hexpand
  -- the notices between the stages cannot fail
  rcases Report.result_bind_eq_error_iff.1 h with h | ⟨_, -, h⟩
  · cases h
  rcases Report.result_bind_eq_error_iff.1 h with h | ⟨⟨layout, linked⟩, hlink, h⟩
  · obtain ⟨error, hfails, rfl⟩ := Stage.result_report_eq_error_iff.1 h
    exact .link hread hexpand hfails
  rw [Stage.result_report_eq_ok_iff] at hlink
  rcases Report.result_bind_eq_error_iff.1 h with h | ⟨_, -, h⟩
  · cases h
  obtain ⟨error, himage, rfl⟩ := mapError_eq_error_iff.1 h
  exact .write ⟨reader.program, count, expanded, layout, linked, hread, hexpand, hlink⟩ himage

/-! ## A text that compiles -/

/-- A text with a macro that has a parameter and a label, used with a label of its host. -/
def sampleText : String :=
  "config { controlwordwidth 4 microprogramlength 4 opwidth 1 bankmask 0 } control c 0 2:0 " ++
  "macro m(x) { ::a:: assert { c: x } ::b:: assert { c: b } } " ++
  "sequence s { m(t) ::t:: } empty { c: 7 } entrypoints { fetch: s }"

/-- The image of the text: a jump to the end of the sequence and one to its second word. -/
theorem compile_sampleText :
    (compile (.ok sampleText) false).result.toOption.map Image.microprogram =
      some "0100\n0010\n1110\n1110\n" := by
  decide +kernel

/-- The stages of the text. -/
theorem exists_image_sampleText :
    ∃ image, (compile (.ok sampleText) false).result = .ok image ∧
      image.microprogram = "0100\n0010\n1110\n1110\n" := by
  have h := compile_sampleText
  cases hresult : (compile (.ok sampleText) false).result with
  | error e => rw [hresult] at h; cases h
  | ok image =>
    rw [hresult] at h
    exact ⟨image, rfl, Option.some.inj h⟩

end ControlStore
