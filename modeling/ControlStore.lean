import ControlStore.Command.Workspace
import ControlStore.Main
import ControlStore.Proofs.Stage
import ControlStore.Proofs.Program
import ControlStore.Proofs.Symbol.Built
import ControlStore.Proofs.Symbol.Growth
import ControlStore.Proofs.Symbol.Path
import ControlStore.Proofs.Source.Spelling
import ControlStore.Proofs.Source.Range
import ControlStore.Proofs.Source.WellFormed
import ControlStore.Proofs.Expansion.Inlining
import ControlStore.Proofs.Expansion.Run
import ControlStore.Proofs.Expansion.Simulation
import ControlStore.Proofs.Expansion.Blocks
import ControlStore.Proofs.Layout.Placement
import ControlStore.Proofs.Layout.Resolution
import ControlStore.Proofs.Layout.Link
import ControlStore.Proofs.Compilation
import ControlStore.Proofs.Expansion.Meaning
import ControlStore.Proofs.Image.Table
import ControlStore.Proofs.Image.Store
import ControlStore.Proofs.Image.Target
import ControlStore.Proofs.Expansion.Termination
import ControlStore.Proofs.Expansion.CallGraph
import ControlStore.Proofs.Bits.Word
import ControlStore.Proofs.Source.Controls
import ControlStore.Proofs.Image.Encoding
import ControlStore.Proofs.Layout.Progress
import ControlStore.Proofs.Image.Safety
import ControlStore.Proofs.Source.Bindings
import ControlStore.Proofs.Text.Numeral
import ControlStore.Proofs.Image.Entries
import ControlStore.Proofs.Image.EntryWidth
import ControlStore.Proofs.Expansion.Names
import ControlStore.Proofs.Expansion.Capture
import ControlStore.Proofs.Image.Asserted
import ControlStore.Proofs.Source.Naming
import ControlStore.Proofs.Source.Proper
import ControlStore.Proofs.Image.Remarks
import ControlStore.Proofs.Symbol.Equality
import ControlStore.Proofs.Symbol.Within
import ControlStore.Proofs.Symbol.Update
import ControlStore.Proofs.Symbol.Indexed
import ControlStore.Proofs.Expansion.Refusal
import ControlStore.Proofs.Expansion.Padding
import ControlStore.Proofs.Layout.Padding
import ControlStore.Proofs.Image.Padding
import ControlStore.Proofs.Image.Arrangement
import ControlStore.Proofs.Source.Comments
import ControlStore.Proofs.Source.Joined
import ControlStore.Proofs.Source.Grammar
import ControlStore.Proofs.Source.Run
import ControlStore.Proofs.Layout.Success
import ControlStore.Proofs.Layout.Stopped
import ControlStore.Proofs.Expansion.Instances
import ControlStore.Proofs.Source.Acceptance
import ControlStore.Proofs.Source.Increment
import ControlStore.Proofs.Image.SignalOrder
import ControlStore.Proofs.Symbol.Writes
import ControlStore.Proofs.Layout.Relinking
import ControlStore.Proofs.Symbol.Qualified
import ControlStore.Proofs.Expansion.Catalogue
import ControlStore.Proofs.Bits.Range
import ControlStore.Proofs.Text.Decimal
import ControlStore.Proofs.Text.Split
import ControlStore.Proofs.Source.Selector
import ControlStore.Proofs.Overflow
import ControlStore.Proofs.Source.Reached
import ControlStore.Proofs.Source.Rendering
import ControlStore.Proofs.Source.Sized
