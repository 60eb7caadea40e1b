import RangeFlow.Log
import RangeFlow.Text.Integer

/-! # Options of the command line

Options and the input path may stand in any order. A long option may be shortened as long as it
stays the only one that starts so, and takes its value after an equals sign or as the next
argument. A short option may have its value attached. After `--` no argument is an option; where
`--` is attached to an option, the option is given without a value. -/

namespace RangeFlow.Command

inductive Key
  | help | version | stdin | format | output | cbor | maxIterations | watch | taint | warnings
deriving DecidableEq, Repr

namespace Key

def names : List (String × Key) :=
  [("-h", .help), ("--help", .help), ("--version", .version), ("--stdin", .stdin), ("-f", .format),
    ("-o", .output), ("--cbor", .cbor), ("--max-iterations", .maxIterations), ("--watch", .watch),
    ("--taint", .taint), ("-W", .warnings)]

def ofName? (name : String) : Option Key := (names.find? fun e => e.1 == name).map Prod.snd

def completions (start : String) : List Key :=
  (names.filter fun e => e.1.startsWith start).map Prod.snd

def takesValue : Key → Bool
  | .help | .version | .stdin | .cbor => false
  | .format | .output | .maxIterations | .watch | .taint | .warnings => true

end Key

/-- An argument by its form. -/
inductive Word
  | plain (text : String)
  /-- The mark after which no argument is an option. -/
  | divider
  | option (key : Key) (value : Option String)
  /-- A short option with more characters after it. -/
  | cluster (key : Key) (tail : String)
  /-- What looks like an option and is none. -/
  | unknown
deriving DecidableEq, Repr

/-- Whether the characters after a minus sign make it a negative number: digits, or a point with
digits after it and perhaps before it. A final line end is passed over. -/
def isNumeral (cs : List Char) : Bool :=
  let cs := if cs.getLast? = some '\n' then cs.dropLast else cs
  let isDigit (c : Char) := (Text.digit? c).isSome
  match cs.dropWhile isDigit with
  | [] => !cs.isEmpty
  | '.' :: rest => !rest.isEmpty && rest.all isDigit
  | _ => false

/-- The part of an argument before its first equals sign, and the part after it if there is one. -/
def splitValue (cs : List Char) : String × Option String :=
  let name := cs.takeWhile fun c => c != '='
  (String.ofList name,
    match cs.dropWhile fun c => c != '=' with
    | [] => none
    | _ :: value => some (String.ofList value))

/-- The form of an argument that starts with a minus sign and names no option. -/
def classifyOther (text : String) (rest : List Char) : Word :=
  if isNumeral rest || text.contains ' ' then .plain text else .unknown

/-- The form of an argument, or nothing if it is short for several options. -/
def classify (text : String) : Option Word :=
  match text.toList, Key.ofName? text with
  | _, some key => some (.option key none)
  | '-' :: c :: cs, none =>
    match splitValue ('-' :: c :: cs) with
    | (name, value) =>
      match value, Key.ofName? name with
      | some v, some key => some (if c = '-' then .option key v else .cluster key v)
      | _, _ =>
        if c = '-' then
          match Key.completions name with
          | [] => some (classifyOther text (c :: cs))
          | [key] => some (.option key value)
          | _ => none
        else match Key.ofName? (String.ofList ['-', c]) with
          | some key => some (.cluster key (String.ofList cs))
          | none => some (classifyOther text (c :: cs))
  | _, none => some (.plain text)

def words : List String → Option (List Word)
  | [] => some []
  | "--" :: rest => some (.divider :: rest.map .plain)
  | text :: rest => do return (← classify text) :: (← words rest)

/-- What is known of the value of an option. -/
inductive Given (α : Type)
  | absent
  /-- The option is given, but without a value. -/
  | bare
  | value (value : α)
deriving DecidableEq, Repr

def Given.value? {α : Type} : Given α → Option α
  | .value a => some a
  | .absent | .bare => none

structure Options where
  input : Option String
  stdin : Bool
  format : Given String
  output : Given String
  cbor : Bool
  maxIterations : Given Int
  watch : Given String
  taint : List (Option String)
  warnings : Given WarningMode
deriving DecidableEq, Repr

namespace Options

def standard : Options := ⟨none, false, .absent, .absent, false, .absent, .absent, [], .absent⟩

/-- Gives an option without a value, unless it takes none. -/
def setBare? (o : Options) (key : Key) : Option Options :=
  match key with
  | .format => some { o with format := .bare }
  | .output => some { o with output := .bare }
  | .maxIterations => some { o with maxIterations := .bare }
  | .watch => some { o with watch := .bare }
  | .taint => some { o with taint := o.taint ++ [none] }
  | .warnings => some { o with warnings := .bare }
  | .help | .version | .stdin | .cbor => none

/-- Sets the value of an option, unless the value is not one that it takes. -/
def set? (o : Options) (key : Key) (value : String) : Option Options :=
  if value = "--" then o.setBare? key
  else match key with
    | .format => some { o with format := .value value }
    | .output => some { o with output := .value value }
    | .maxIterations => (Text.integer? value).map fun v => { o with maxIterations := .value v }
    | .watch => some { o with watch := .value value }
    | .taint => some { o with taint := o.taint ++ [some value] }
    | .warnings =>
      match value with
      | "error" => some { o with warnings := .value .strict }
      | "none" => some { o with warnings := .value .silent }
      | _ => none
    | .help | .version | .stdin | .cbor => none

end Options

/-- Whether a short option without a value can be followed by these characters in one argument:
further short options without a value, and at the end perhaps one with its value. `hasNext` tells
that the next argument can be a value. -/
def isCluster (hasNext : Bool) : List Char → Bool
  | [] => true
  | c :: cs =>
    match Key.ofName? (String.ofList ['-', c]) with
    | some key => if key.takesValue then !cs.isEmpty || hasNext else isCluster hasNext cs
    | none => false

/-- What a command line asks for. -/
inductive Invocation
  | run (options : Options)
  | showVersion
  | showHelp
  | refused
deriving DecidableEq, Repr

/-- Goes through the arguments. `isOpen` tells that the input path is still to come, and
`isExcess` that an argument was left over; this is held against the command line only at its end.
-/
def scan (o : Options) (isOpen isExcess : Bool) : List Word → Invocation
  | [] => if isExcess then .refused else .run o
  | .plain path :: .divider :: rest =>
    if isOpen then scan { o with input := some path } false isExcess rest else .refused
  | .plain path :: rest =>
    if isOpen then scan { o with input := some path } false isExcess rest
    else scan o false true rest
  | .divider :: .plain path :: rest =>
    if isOpen then scan { o with input := some path } false isExcess rest else .refused
  | .divider :: rest => if isOpen then scan o false isExcess rest else .refused
  | .unknown :: rest => scan o isOpen true rest
  | .option key (some value) :: rest =>
    match o.set? key value with
    | some o => scan o isOpen isExcess rest
    | none => .refused
  | .option key none :: rest =>
    match key with
    | .help => .showHelp
    | .version => .showVersion
    | .stdin => scan { o with stdin := true } isOpen isExcess rest
    | .cbor => scan { o with cbor := true } isOpen isExcess rest
    | key =>
      match rest with
      | .plain value :: rest =>
        match o.set? key value with
        | some o => scan o isOpen isExcess rest
        | none => .refused
      | _ => .refused
  | .cluster key tail :: rest =>
    if key = .help then
      let hasNext := match rest with
        | .plain _ :: _ => true
        | _ => false
      if !tail.isEmpty && isCluster hasNext tail.toList then .showHelp else .refused
    else match o.set? key tail with
      | some o => scan o isOpen isExcess rest
      | none => .refused

/-- The parts of a report. -/
inductive Format
  | ranges
  | json
  | diagnostics
deriving DecidableEq, Repr

def Format.ofName? : String → Option Format
  | "ranges" => some .ranges
  | "json" => some .json
  | "diagnostics" => some .diagnostics
  | _ => none

/-- The parts of the report that are asked for, each once. -/
def Options.formats? (o : Options) : Option (List Format) :=
  match o.format.value? with
  | some names => (names.splitOn ",").eraseDups.mapM Format.ofName?
  | none => some [.ranges]

def invocation (argv : List String) : Invocation :=
  match words argv with
  | some ws => scan .standard true false ws
  | none => .refused

end RangeFlow.Command
