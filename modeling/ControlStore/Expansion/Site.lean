import ControlStore.Expansion.Instance
import ControlStore.Program

/-!
# One expansion

Expansion takes the first macro reference of the first sequence that has one. The reference is
replaced by the steps of the macro's instance. Labels of the host behind the reference move with
the steps they mark, and the instance's scope is stored in the host.
-/

namespace ControlStore

/-- Cuts a list at the first element for which there is an answer. -/
def cutAtFirst? {α β : Type} (f : α → Option β) : List α → Option (List α × β × List α)
  | [] => none
  | a :: as =>
    match f a with
    | some b => some ([], b, as)
    | none => (cutAtFirst? f as).map fun (before, b, after) => (a :: before, b, after)

/-- A sequence with a macro reference, cut at the first one. -/
structure Host where
  name : String
  code : Code
  locals : SymbolTree
  before : List Step
  reference : Reference
  after : List Step

/-- The first macro reference in an entry, if the entry is a sequence. Macros are not expanded
themselves. -/
def Host.ofEntry? : String × Symbol → Option Host
  | (name, .sequence code locals) =>
    if code.isMacro then none
    else (cutAtFirst? Step.reference? code.steps).map fun (before, reference, after) =>
      { name, code, locals, before, reference, after }
  | _ => none

/-- The host with other steps and names, as an entry. -/
def Host.toEntry (host : Host) (steps : List Step) (locals : SymbolTree) : String × Symbol :=
  (host.name, .sequence { host.code with steps } locals)

/-- The place of the next expansion: a host among the global symbols. -/
structure Site where
  earlier : List (String × Symbol)
  host : Host
  later : List (String × Symbol)

/-- The place of the next expansion, if anything is left to expand. -/
def SymbolTree.nextSite? (symbols : SymbolTree) : Option Site :=
  (cutAtFirst? Host.ofEntry? symbols.entries).map fun (earlier, host, later) =>
    { earlier, host, later }

/-- A label of a host with `count` steps, after the step at `position` has been replaced by `size`
steps. A label that marks no place among the steps stays within 64 bits. -/
def Label.makeRoom (position count size : Nat) (label : Label) : Label :=
  if position < label.offset then
    let offset := label.offset + size - 1
    { label with offset := if label.offset ≤ count then offset else min offset maxPattern }
  else label

/-- A label of a macro with `count` steps, which start at `position` of the host. A label that marks
no place among the steps starts again at zero where it would leave 64 bits. -/
def Label.moveTo (position count : Nat) (label : Label) : Label :=
  let offset := label.offset + position
  { label with offset := if label.offset ≤ count then offset else wrap offset }

/-- A label on a place among the macro's steps moves by the position. -/
theorem Label.moveTo_of_le {position count : Nat} {label : Label} (h : label.offset ≤ count) :
    label.moveTo position count = { label with offset := label.offset + position } := by
  simp only [moveTo, if_pos h]

namespace Site

/-- The symbols with the host's steps and names replaced. -/
def rebuild (site : Site) (symbols : SymbolTree) (steps : List Step) (locals : SymbolTree) :
    SymbolTree :=
  { symbols with entries := site.earlier ++ site.host.toEntry steps locals :: site.later }

/-- The macro at the site, and the copy of its steps. -/
def instantiate (site : Site) (symbols : SymbolTree) :
    Except ExpansionError (MacroInstance × List Step) := do
  let reference := site.host.reference
  let (code, locals) ← symbols.macroOf reference
  let inst : MacroInstance :=
    { scope := reference.scopePath site.host.locals
      reference
      parameters := code.parameters
      locals }
  return (inst, ← code.steps.mapM inst.copyStep)

/-- The notice of an expansion into the given number of steps. -/
def notice (site : Site) (scope : String) (steps : Nat) : Notice :=
  .macroExpanded site.host.reference.symbol site.host.reference.line site.host.name scope steps

/-- Expands the reference at a site. If the scope cannot be stored, the labels of the host have
been moved already. -/
def expand (site : Site) (symbols : SymbolTree) : Outcome ExpansionError SymbolTree Unit :=
  match site.instantiate symbols with
  | .error error => { log := [], result := .error error, state := symbols }
  | .ok (inst, steps) =>
    let position := site.host.before.length
    let moved := site.host.locals.mapLabels
      (Label.makeRoom position site.host.code.steps.length steps.length)
    let scope := inst.locals.mapLabels (Label.moveTo position steps.length)
    match moved.insert? (.ofName inst.scope) (.scope scope) with
    | none =>
      { log := []
        result := .error (.scope inst.scope inst.reference.line)
        state := site.rebuild symbols site.host.code.steps moved }
    | some locals =>
      { log := [site.notice inst.scope steps.length]
        result := .ok ()
        state := site.rebuild symbols (site.host.before ++ steps ++ site.host.after) locals }

end Site

end ControlStore
