import ControlStore.Image.Encoding
import ControlStore.Text.Numeral

/-!
# Lines of the image

An image has two tables: the words of the store, and the addresses of the opcodes' sequences.
A table is built as a list of lines with all that can be said about them. Whether the remarks
are written is decided when the lines are turned into text: plain text has one line for a word or
an opcode and nothing else.
-/

namespace ControlStore

/-- A line of the word table. -/
inductive WordLine where
  /-- The start of a sequence. -/
  | heading (name : String) (address : Nat)
  /-- A word, with the labels that mark its place. -/
  | word (word : Word) (labels : List String) (address : Nat)
  /-- The end of a sequence. -/
  | gap
  /-- The start of the unused part of the store. -/
  | unused (count : Nat)
  deriving DecidableEq, Repr

namespace WordLine

/-- The remark behind a word that labels mark. -/
def remark (labels : List String) (address : Nat) : String :=
  if labels.isEmpty then ""
  else
    "   //" ++ String.join (labels.map fun label => s!" ::{label}:: |") ++ s!" (address {address})"

/-- A line with its remarks. -/
def debugText : WordLine → String
  | heading name address => s!"//Sequence '{name}' at address {address}\n"
  | word w labels address => w.text ++ remark labels address ++ "\n"
  | gap => "\n"
  | unused count => s!"//Empty space ({count} unused addresses)\n"

/-- A line without remarks, which is empty unless it holds a word. -/
def plainText : WordLine → String
  | word w _ _ => w.text ++ "\n"
  | heading .. | gap | unused .. => ""

def isWord : WordLine → Bool
  | word .. => true
  | heading .. | gap | unused .. => false

end WordLine

/-- A line of the opcode table: the sequence of an opcode and its address, if it has one. -/
structure EntryLine where
  opcode : Nat
  target : Option (String × Nat)
  deriving DecidableEq, Repr

namespace EntryLine

/-- The address in binary digits, zero for an opcode without a sequence. -/
def digits (width : Nat) (line : EntryLine) : String :=
  match line.target with
  | some (_, address) => binary width address
  | none => String.ofList (List.replicate width '0')

def remark (line : EntryLine) : String :=
  match line.target with
  | some (symbol, address) =>
    s!" //Instruction entrypoint {line.opcode} at sequence {symbol} (address {address})"
  | none => s!" //Instruction entrypoint {line.opcode} is unused"

def debugText (width : Nat) (line : EntryLine) : String :=
  line.digits width ++ line.remark ++ "\n"

def plainText (width : Nat) (line : EntryLine) : String := line.digits width ++ "\n"

end EntryLine

namespace Program

/-- The placed sequence with the given name. -/
def placedSequence (program : Program) (name : String) : Except WriteError (Code × SymbolTree) :=
  match program.symbols.find? name with
  | some (.sequence code locals) =>
    if code.isMacro then .error (.unplaced name) else .ok (code, locals)
  | _ => .error (.unplaced name)

/-- The names of the labels in front of the step with the given index. -/
def labelsAt (locals : SymbolTree) (index : Nat) : List String :=
  (locals.labels.filter fun (_, label) => label.offset = index).map Prod.fst

/-- The line of a step of a sequence. -/
def stepLine (program : Program) (code : Code) (locals : SymbolTree) (step : Step) (index : Nat) :
    Report WriteError WordLine := do
  let word ← program.encodeStep step
  return .word word (labelsAt locals index) (code.address + index)

/-- The lines of a sequence. -/
def sequenceLines (program : Program) (name : String) : Report WriteError (List WordLine) := do
  let (code, locals) ← program.placedSequence name
  let words ← code.steps.zipIdx.mapM fun (step, index) => program.stepLine code locals step index
  return .heading locals.name code.address :: words ++ [.gap]

/-- The word for unused addresses. -/
def fillerWord (program : Program) : Report WriteError Word :=
  match program.emptyAssertion with
  | some assertion => program.encode assertion
  | none => pure (.zero program.wordWidth)

/-- The lines for the addresses behind the last sequence. -/
def unusedLines (program : Program) (filled : Nat) : Report WriteError (List WordLine) := do
  let count := program.length - filled
  -- in a full store the assertion for unused addresses is not looked at
  if count = 0 then return [.unused 0]
  let word ← program.fillerWord
  return .unused count :: (List.range count).map fun i => .word word [] (filled + i)

/-- The table of words: the sequences in the order of the layout, then the unused addresses. -/
def wordTable (program : Program) (layout : List String) : Report WriteError (List WordLine) := do
  let used := (← layout.mapM program.sequenceLines).flatten
  let unused ← program.unusedLines (used.countP WordLine.isWord)
  return used ++ unused

/-- The sequence and the address bound to an opcode. -/
def entryTarget (program : Program) (opcode : Nat) (symbol : String) :
    Except WriteError (Nat × String × Nat) :=
  match program.symbols.find? symbol with
  | some (.sequence code _) =>
    if code.isMacro then .error (.macroEntrypoint symbol opcode)
    else .ok (opcode, symbol, code.address)
  | _ => .error (.undefinedEntrypoint symbol opcode)

/-- The table of opcodes. Bindings beyond the last opcode are left out. -/
def entryTable (program : Program) : Except WriteError (List EntryLine) := do
  let bound := program.entrypoints.toList.filter fun (opcode, _) => opcode < program.opcodeCount
  let targets ← bound.mapM fun (opcode, symbol) => program.entryTarget opcode symbol
  return (List.range program.opcodeCount).map fun opcode => ⟨opcode, targets.lookup opcode⟩

end Program

end ControlStore
