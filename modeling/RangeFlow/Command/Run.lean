import RangeFlow.Checker
import RangeFlow.Command.Folder
import RangeFlow.Command.Options
import RangeFlow.Diagnose
import RangeFlow.Source.Build
import RangeFlow.Sweep.Run
import RangeFlow.Table.Binary
import RangeFlow.Table.Text

/-! # Running a command line

A command reads one program, propagates ranges through it and reports what it found. All is
computed from what the command can see; nothing is printed or written before the analysis has
succeeded. -/

namespace RangeFlow.Command

def version : String := "0.1.0"

def help : String :=
  "\n".intercalate
    ["Whole-program integer range analysis",
      "",
      "usage: rangeflow [options] [input_file]",
      "",
      "  -h, --help             show this text",
      "  --version              show the version",
      "  --stdin                read the program from standard input",
      "  -f FORMAT              what to report, separated by commas:",
      "                           ranges (default), json, diagnostics",
      "  -o PATH                write the report to a file",
      "  --cbor                 write the ranges to the file as CBOR",
      "  --max-iterations N     rounds after which changing ids are widened",
      "  --watch ID             trace the updates of an id",
      "  --taint ID             treat an id as unknown (may be repeated)",
      "  -W error|none          fail on warnings, or drop them"]

/-- What a command can see. -/
structure World where
  /-- The text of standard input, unless that is a terminal. -/
  stdin : Option String
  /-- The text of the file at a path. -/
  read : String → Except PathError String
  /-- The name of the file that can be written at a path. -/
  target : String → Except PathError String
  environment : Environment

/-- Why a command fails. -/
inductive Failure
  | settings (error : SettingsError)
  /-- An option needs a value and has none. -/
  | noValue (key : Key)
  | path (name : String) (error : PathError)
  | source (error : Source.SourceError)
  | defects (defects : List Defect)
  | analysis (fault : Fault)
deriving DecidableEq, Repr

inductive Ending
  | exit (code : Nat)
  | failure (failure : Failure)
deriving DecidableEq, Repr

/-- What a command leaves behind. -/
structure Outcome where
  ending : Ending
  stdout : String
  log : Log
  /-- The file it writes. -/
  written : Option (String × List UInt8)
deriving DecidableEq, Repr

namespace Outcome

/-- An outcome before any analysis. -/
def exit (code : Nat) (stdout : String) : Outcome := ⟨.exit code, stdout, .empty .once, none⟩

def failure (log : Log) (f : Failure) : Outcome := ⟨.failure f, "", log, none⟩

end Outcome

/-- The characters of a text file; a line may end with a line feed, a carriage return, or both. -/
def unifyLineEnds : List Char → List Char
  | [] => []
  | '\r' :: '\n' :: cs => '\n' :: unifyLineEnds cs
  | '\r' :: cs => '\n' :: unifyLineEnds cs
  | c :: cs => c :: unifyLineEnds cs

/-- The program text of a command, or the outcome of a command without one. -/
def sourceText (w : World) (o : Options) : Except Outcome String :=
  if o.stdin then
    match w.stdin with
    | some text => .ok text
    | none => .error (.exit 1 "Error: --stdin flag used but no input provided\n")
  else match o.input with
    | none =>
      .error (.exit 1 "Error: No input file provided, either use --stdin or provide a path\n")
    | some path =>
      match w.read path with
      | .ok text => .ok (String.ofList (unifyLineEnds text.toList))
      | .error e => .error (.failure (.empty .once) (.path path e))

/-- What the analyses find in a program. -/
structure Findings where
  table : RangeTable String
  diagnostics : List Diagnostic
  log : Log
deriving DecidableEq, Repr

def settings (d : Defaults) (o : Options) : Except Failure Settings :=
  let taint := o.taint.filterMap id
  let d := if o.watch = .bare then { d with watch := none } else d
  if o.maxIterations = .bare then .error (.noValue .maxIterations)
  else (Settings.ofOverrides d ⟨o.maxIterations.value?, o.watch.value?, some taint⟩).mapError
    .settings

def warningMode (o : Options) : Except Failure WarningMode :=
  match o.warnings with
  | .absent => .ok .once
  | .bare => .error (.noValue .warnings)
  | .value mode => .ok mode

/-- The program of a text, if it is sound. -/
def readProgram (text : String) : Except Failure Program := do
  let p ← (Program.parse text).mapError .source
  match p.accept with
  | .ok () => return p
  | .error (.defects ds) => throw (.defects ds)
  | .error (.fault e) => throw (.analysis e)

/-- Analyses a program; diagnostics are looked for only if they are asked for. -/
def analyze (s : Settings) (mode : WarningMode) (withDiagnostics : Bool) (p : Program) :
    Except Outcome Findings :=
  match (Sweep.run (.ofProgram p s)).run (.start s mode) with
  | .error e state => .error (.failure state.log (.analysis e))
  | .ok _ state => do
    let diagnostics ←
      if withDiagnostics then p.diagnose.mapError fun e => .failure state.log (.analysis e)
      else pure []
    return ⟨state.table, diagnostics, state.log⟩

def report (formats : List Format) (found : Findings) : String :=
  "\n".intercalate (formats.flatMap fun
    | .ranges => [found.table.text]
    | .json => [found.table.json]
    | .diagnostics => found.diagnostics.map Diagnostic.text)

def isWritable (formats : List Format) (found : Findings) : Bool :=
  formats.all fun
    | .ranges => found.table.isWritable
    | .json => found.table.hasWritableBounds
    | .diagnostics => found.diagnostics.all Diagnostic.isWritable

def writeFile (w : World) (log : Log) (path : String) (bytes : List UInt8) : Outcome :=
  match w.target path with
  | .ok name => ⟨.exit 0, "", log, some (name, bytes)⟩
  | .error e => .failure log (.path path e)

/-- Hands out what was found, to a file if one is given. -/
def deliver (w : World) (o : Options) (formats : List Format) (found : Findings) : Outcome :=
  let text := report formats found ++ "\n"
  if !o.cbor && !isWritable formats found then .failure found.log (.analysis .unwritable)
  else match o.output, o.cbor with
    | .value path, true => writeFile w found.log path found.table.encode
    | .value path, false => writeFile w found.log path text.toUTF8.toList
    | .bare, _ => .failure found.log (.noValue .output)
    | .absent, _ => ⟨.exit 0, text, found.log, none⟩

def findings (w : World) (d : Defaults) (o : Options) (formats : List Format) :
    Except Outcome Findings := do
  let failed (f : Failure) : Outcome := .failure (.empty .once) f
  let text ← sourceText w o
  let s ← (settings d o).mapError failed
  let mode ← (warningMode o).mapError failed
  let p ← (readProgram text).mapError failed
  if o.taint.contains none then throw (failed (.noValue .taint))
  analyze s mode (formats.contains .diagnostics) p

def execute (w : World) (d : Defaults) (o : Options) : Outcome :=
  if o.format = .bare then .failure (.empty .once) (.noValue .format)
  else match o.formats? with
    | none => .exit 2 ""
    | some formats =>
      if o.cbor && o.output = .absent then
        .exit 1 "Error: --cbor needs an output path, use -o\n"
      else match findings w d o formats with
        | .ok found => deliver w o formats found
        | .error outcome => outcome

def run (w : World) (argv : List String) : Outcome :=
  match w.environment.defaults with
  | .error e => .failure (.empty .once) (.settings e)
  | .ok d =>
    match invocation argv with
    | .refused => .exit 2 ""
    | .showVersion => .exit 0 (version ++ "\n")
    | .showHelp => .exit 0 (help ++ "\n")
    | .run o => execute w d o

/-- The file a command line wants to read. -/
def inputPath? (argv : List String) : Option String :=
  match invocation argv with
  | .run o => if o.stdin then none else o.input
  | _ => none

def Failure.message : Failure → String
  | .settings e => e.message
  | .noValue _ => "an option needs a value"
  | .path name e => name ++ ": " ++ e.message
  | .source (.unexpected pos) => s!"syntax error at line {pos.line}, column {pos.column}"
  | .source e => e.message?.getD "a number that is out of bounds"
  | .defects ds => "\n".intercalate ("IR semantic errors" :: ds.map Defect.message)
  | .analysis (.notice n) => n.text
  | .analysis _ => "the program cannot be analysed"

end RangeFlow.Command
