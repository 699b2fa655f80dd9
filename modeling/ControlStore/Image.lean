import ControlStore.Image.Table

/-!
# The image of a program

The image is the text of the two tables, either plain or with remarks for debugging.
-/

namespace ControlStore

/-- The two files of a compiled program. -/
structure Image where
  /-- One control word a line, the most significant bit first. -/
  microprogram : String
  /-- One address a line, for each opcode in order. -/
  entrypoints : String
  deriving DecidableEq, Repr, Inhabited

/-- The text of the word table. -/
def renderWords (debug : Bool) (lines : List WordLine) : String :=
  String.join (lines.map (if debug then WordLine.debugText else WordLine.plainText))

/-- The text of the opcode table, with addresses of the given width. -/
def renderEntries (debug : Bool) (width : Nat) (lines : List EntryLine) : String :=
  String.join (lines.map (if debug then EntryLine.debugText width else EntryLine.plainText width))

/-- The image of a linked program. -/
def Program.image (program : Program) (layout : List String) (debug : Bool) :
    Report WriteError Image := do
  let words ← program.wordTable layout
  let entries ← program.entryTable
  return {
    microprogram := renderWords debug words
    entrypoints := renderEntries debug program.addressWidth entries }

end ControlStore
