import ControlStore.Expansion
import ControlStore.Failure
import ControlStore.Image
import ControlStore.Layout.Resolution
import ControlStore.Source.Reader

/-!
# Compilation

A program is read, its macros are expanded, its sequences placed and its symbols resolved, and the
image is generated. Each stage works on what the one before it left.
-/

namespace ControlStore

/-- Runs a stage in a state, and reports its answer together with the state it left. -/
def Stage.report {ε ε' σ α : Type} (stage : Stage ε σ α) (restate : ε → ε') (state : σ) :
    Report ε' (α × σ) :=
  let outcome := stage.run state
  { log := outcome.log
    result := (outcome.result.map (·, outcome.state)).mapError restate }

/-- The image of the program with the given text. -/
def compile (input : Except ReadFailure String) (debug : Bool) : Report Failure Image := do
  let ((), reader) ← (Reader.read input).report .parse {}
  let (expansions, expanded) ← Program.expand.report .expansion reader.program
  Report.note (.expansionDone expansions)
  let (layout, linked) ← Program.link.report .link expanded
  Report.note (.linkingDone layout.length)
  (linked.image layout debug).mapError .write

end ControlStore
