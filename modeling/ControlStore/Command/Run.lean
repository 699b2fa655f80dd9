import ControlStore.Command.Arguments
import ControlStore.Command.Files
import ControlStore.Compile
import ControlStore.Diagnostic
import ControlStore.Text.Character

/-!
# Runs of the program

A run reads a program from a file or from standard input, compiles it, and writes the image to
standard output or into a directory. The log and the reason for a failure go to the error stream.
-/

namespace ControlStore

/-- How a run ended: its exit code, what it wrote, and the notices it gave. -/
structure Ending where
  exitCode : Nat
  output : String := ""
  errors : List String := []
  log : List Notice := []
  deriving DecidableEq, Repr

namespace Ending

/-- The end of a run that failed for a reason it can name. -/
def failed (detail : Detail) (log : List Notice) : Ending :=
  { exitCode := 1, errors := ["Error: " ++ detail.render], log }

/-- The text for `--help`. -/
def helpText : String :=
  "Compiles microprogram descriptions into control-store ROM images\n\n" ++
  "Usage: microcode [OPTIONS]\n\n" ++
  "Options:\n" ++
  "  -i, --input <INPUT>    Input file (defaults to stdin)\n" ++
  "  -o, --output <OUTPUT>  Output directory for the Microprogram and Entrypoints files " ++
  "(defaults to stdout)\n" ++
  "  -d, --debug            Annotate the output with sequence, label and entrypoint comments\n" ++
  "  -h, --help             Print help\n" ++
  "  -V, --version          Print version\n"

/-- The end of a run whose arguments lead to no compilation. -/
def usage : UsageError → Ending
  | .helpRequested => { exitCode := 0, output := helpText }
  | .versionRequested => { exitCode := 0, output := "Microcode Compiler 0.1.0\n" }
  | .unknownArgument => { exitCode := 2, errors := ["error: unexpected argument found"] }
  | .missingValue =>
    { exitCode := 2, errors := ["error: a value is required but none was supplied"] }
  | .repeated => { exitCode := 2, errors := ["error: an argument cannot be used multiple times"] }
  | .unexpectedValue => { exitCode := 2, errors := ["error: unexpected value found"] }

end Ending

section

variable {m : Type → Type} [Monad m]

/-- Writes the two files of an image into a directory. -/
def Files.writeImage (files : Files m) (directory : String) (image : Image) :
    ExceptT FileError m Unit := do
  ExceptT.mk (files.makeDirectories directory)
  ExceptT.mk (files.writeFile (joinPath directory "Microprogram") image.microprogram)
  ExceptT.mk (files.writeFile (joinPath directory "Entrypoints") image.entrypoints)

/-- Puts an image where the user wants it: into a directory, or on standard output with an empty
line between its two parts. -/
def Files.deliver (files : Files m) (options : Options) (image : Image) (log : List Notice) :
    m Ending := do
  match options.output with
  | none =>
    return { exitCode := 0, output := image.microprogram ++ "\n" ++ image.entrypoints, log }
  | some directory =>
    match ← (files.writeImage directory image).run with
    | .ok () => return { exitCode := 0, log := log ++ [.imageWritten directory] }
    | .error error => return .failed (Failure.file error).detail log

/-- Compiles a text and delivers the image. -/
def Files.build (files : Files m) (options : Options) (input : Except ReadFailure String) :
    m Ending := do
  let report := compile input options.debug
  match report.result with
  | .ok image => files.deliver options image report.log
  | .error failure => return .failed failure.detail report.log

/-- A run with the given arguments. -/
def Files.run (files : Files m) (arguments : List String) : m Ending := do
  match Options.ofArguments arguments with
  | .error error => return .usage error
  | .ok options =>
    match options.input with
    | none => files.build options (← files.standardInput)
    | some path =>
      match ← files.readFile path with
      | .ok input => files.build options input
      | .error error => return .failed error.detail []

end

/-- The least important level that is shown, given the user's wish in any case of letters. Without
a wish, warnings are shown. -/
def Level.ofWish (wish : Option String) : Option Level :=
  match wish.map fun name => String.ofList (name.toList.map lowerAscii) with
  | none => some .warning
  | some "warn" => some .warning
  | some "info" => some .info
  | some "debug" => some .debug
  | some "trace" => some .debug
  | some _ => none

namespace Ending

/-- The notices that are shown. -/
def shown (ending : Ending) : Option Level → List Notice
  | none => []
  | some threshold => ending.log.filter (·.isShown threshold)

/-- All that a run puts on the error stream: the records of the notices that are shown, and the
lines about its failure. -/
def errorText (ending : Ending) (level : Option Level) : String :=
  String.join ((ending.shown level).map Notice.record ++ ending.errors.map (· ++ "\n"))

/-- The lines of the error stream that begin with a record, without its bracket. -/
def recordLines (ending : Ending) (level : Option Level) : List String :=
  (splitLines (ending.errorText level).toList).filterMap fun
    | '[' :: line => some (String.ofList line)
    | _ => none

/-- The lines of the error stream that begin with no record: those about a failure, and the further
lines of a record. -/
def otherLines (ending : Ending) (level : Option Level) : List String :=
  ((splitLines (ending.errorText level).toList).filter (·.head? ≠ some '[')).map String.ofList

end Ending

end ControlStore
