import ControlStore.Bits.Mask
import ControlStore.Text.Terminal

/-!
# Notices

While a program is compiled, notices are given: of settings and definitions that were read, of
doubtful ones, of expansions and of placements. A `Notice` is the event itself. Its level decides
whether it is shown, its origin and wording how. In the log a notice is a `record` of plain text:
names that the user chose cannot control the terminal on which the log is read.
-/

namespace ControlStore

/-- How important a notice is, the most important first. -/
inductive Level where
  | warning
  | info
  | debug
  deriving DecidableEq, Repr, Inhabited

namespace Level

/-- The position in the order of importance, 0 being the most important. -/
def rank : Level → Nat
  | .warning => 0
  | .info => 1
  | .debug => 2

def text : Level → String
  | .warning => "WARN"
  | .info => "INFO"
  | .debug => "DEBUG"

end Level

/-- The part of the compiler that gives a notice. -/
inductive Origin where
  | source
  | assertion
  | expansion
  | layout
  | image
  | compilation
  | program
  deriving DecidableEq, Repr

/-- The name under which a part of the compiler appears in the log. -/
def Origin.text : Origin → String
  | .source => "microcode::parser"
  | .assertion => "microcode::ds"
  | .expansion => "microcode::expander"
  | .layout => "microcode::linker"
  | .image => "microcode::codegen"
  | .compilation => "microcode::compiler"
  | .program => "microcode"

/-- An event worth telling the user about. -/
inductive Notice where
  | wordWidthSet (width : Nat)
  | lengthSet (length : Nat)
  | opcodeWidthSet (width : Nat)
  | bankMaskSet (mask : Mask)
  | controlAdded (name : String) (bank : Nat) (mask : Mask)
  | sequenceRead (name : String)
  | macroRead (name : String)
  | symbolOverridden (name : String) (line : Nat)
  | emptyOverridden (line : Nat)
  | entrypointOverridden (line : Nat)
  | signalsOverlap (line : Nat) (name : String) (mask : Mask) (other : String) (otherMask : Mask)
  | macroExpanded (name : String) (line : Nat) (host scope : String) (steps : Nat)
  | macrosExpanded (count : Nat)
  | sequencePlaced (name : String) (address words : Nat)
  | valueTruncated (name : String) (line maximum : Nat) (value : Int)
  | expansionDone (count : Nat)
  | linkingDone (count : Nat)
  | imageWritten (directory : String)
  deriving DecidableEq, Repr

namespace Notice

def level : Notice → Level
  | wordWidthSet .. | lengthSet .. | opcodeWidthSet .. | bankMaskSet .. | controlAdded ..
  | sequenceRead .. | macroRead .. | expansionDone .. | linkingDone .. | imageWritten .. => .info
  | symbolOverridden .. | emptyOverridden .. | entrypointOverridden .. | signalsOverlap ..
  | valueTruncated .. => .warning
  | macroExpanded .. | macrosExpanded .. | sequencePlaced .. => .debug

def origin : Notice → Origin
  | wordWidthSet .. | lengthSet .. | opcodeWidthSet .. | bankMaskSet .. | controlAdded ..
  | sequenceRead .. | macroRead .. | symbolOverridden .. | emptyOverridden ..
  | entrypointOverridden .. => .source
  | signalsOverlap .. => .assertion
  | macroExpanded .. | macrosExpanded .. => .expansion
  | sequencePlaced .. => .layout
  | valueTruncated .. => .image
  | expansionDone .. | linkingDone .. => .compilation
  | imageWritten .. => .program

def message : Notice → String
  | wordWidthSet width => s!"Set control word width to {width}"
  | lengthSet length => s!"Set microprogram length to {length}"
  | opcodeWidthSet width => s!"Set opcode width to {width}"
  | bankMaskSet mask => s!"Set control word bank select mask to {mask.text}"
  | controlAdded name bank mask =>
    s!"Added new control word label '{name}' on bank {bank} at {mask.text}"
  | sequenceRead name => s!"Processed sequence '{name}'"
  | macroRead name => s!"Processed macro '{name}'"
  | symbolOverridden name line =>
    s!"Duplicate symbol '{name}' defined on line {line}, previous definition will be overridden"
  | emptyOverridden line =>
    s!"Duplicate empty assertion on line {line}, previous definition will be overridden"
  | entrypointOverridden line =>
    s!"Duplicate entrypoint definition on line {line}, previous value overridden"
  | signalsOverlap line name mask other otherMask =>
    s!"Assertion on line {line} contains overlapping signals: {name} ({mask.text}), " ++
      s!"{other} ({otherMask.text})"
  | macroExpanded name line host scope steps =>
    s!"Expanded macro '{name}' on line {line} into '{host}' as '{scope}' ({steps} steps)"
  | macrosExpanded count | expansionDone count => s!"Expanded {count} macro references"
  | sequencePlaced name address words =>
    s!"Placed sequence '{name}' at address {address} ({words} words)"
  | valueTruncated name line maximum value =>
    s!"Asserted signal {name} on line {line} has a maximum value of {maximum} " ++
      s!"(actual assertion of {value} will be truncated)"
  | linkingDone count => s!"Linked {count} sequences"
  | imageWritten directory => s!"Wrote Microprogram and Entrypoints to {directory}"

/-- Is the notice at least as important as the threshold? -/
def isShown (threshold : Level) (notice : Notice) : Bool :=
  notice.level.rank ≤ threshold.rank

/-- A text with every line but the first indented. -/
def indented (text : String) : String :=
  String.ofList (text.toList.flatMap fun c => if c = '\n' then "\n    ".toList else [c])

/-- The record of a notice in the log, in plain text: the level, filled up to five characters, the
origin and the message. -/
def record (notice : Notice) : String :=
  Terminal.plainText ("[" ++ String.ofList (notice.level.text.toList.rightpad 5 ' ') ++
    s!" {notice.origin.text}] {indented notice.message}\n")

end Notice

end ControlStore
