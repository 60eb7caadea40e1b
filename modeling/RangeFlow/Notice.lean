/-! # Notices

A notice is an error or a warning of the library's own, with the text that a user reads. -/

namespace RangeFlow

/-- The kinds of notices, from the most general one to the particular ones. -/
inductive NoticeKind
  | notice
  | failure
  | malformedProgram
  | unknownSymbol
  | internal
  | unexpected
  | unmodeledInstruction
  | warning
  | widthMismatch
deriving DecidableEq, Repr

namespace NoticeKind

/-- The kind and those of which it is a special case, nearest first. -/
def lineage : NoticeKind → List NoticeKind
  | .notice => [.notice]
  | .failure => [.failure, .notice]
  | .malformedProgram => [.malformedProgram, .failure, .notice]
  | .unknownSymbol => [.unknownSymbol, .malformedProgram, .failure, .notice]
  | .internal => [.internal, .notice]
  | .unexpected => [.unexpected, .internal, .notice]
  | .unmodeledInstruction => [.unmodeledInstruction, .unexpected, .internal, .notice]
  | .warning => [.warning, .notice]
  | .widthMismatch => [.widthMismatch, .warning, .notice]

/-- Whether a notice of this kind reports a fault of the analysis and not of its input. -/
def isInternal (k : NoticeKind) : Bool := decide (.internal ∈ k.lineage)

end NoticeKind

/-- A line or a column, as it was given. -/
inductive Mark
  | number (value : Int)
  | truth (value : Bool)
  | text (value : String)
deriving DecidableEq, Repr

namespace Mark

def isNumber : Mark → Bool
  | .number _ | .truth _ => true
  | .text _ => false

def written : Mark → String
  | .number v => toString v
  | .truth b => if b then "True" else "False"
  | .text s => s

end Mark

/-- Why a list gives no place. -/
inductive PlaceError
  | empty
  | noColumn
deriving DecidableEq, Repr

/-- A notice with the place in the source it is about, and advice. -/
structure Notice where
  kind : NoticeKind
  message : String
  line : Option Mark
  column : Option Mark
  hint : Option String
deriving DecidableEq, Repr

namespace Notice

def defaultMessage : String := "Error Message not found."

/-- A notice about no particular place. -/
def plain (kind : NoticeKind) (message : String) : Notice := ⟨kind, message, none, none, none⟩

/-- The line and the column that a notice is about. They come from what is given with it: one list
alone that starts with a number, which is the line, and goes on with the column. -/
def place : List (Option (List (Option Mark))) → Except PlaceError (Option Mark × Option Mark)
  | [some []] => .error .empty
  | [some (some line :: rest)] =>
    match line.isNumber, rest with
    | true, column :: _ => .ok (some line, column)
    | true, [] => .error .noColumn
    | false, _ => .ok (none, none)
  | _ => .ok (none, none)

/-- The message followed by the hint, unless that is empty. -/
def body (n : Notice) : String :=
  match n.hint with
  | none | some "" => n.message
  | some hint => s!"{n.message}\n\n  (hint: {hint})"

/-- The text shown to the user: an internal fault asks for a report, and any other notice starts
with its place if line and column are known. -/
def text (n : Notice) : String :=
  if n.kind.isInternal then
    n.body ++ "\n\nThis is an unhandled internal analysis error. " ++
      "Please create an issue on Github to notify the developers!\n"
  else match n.line, n.column with
    | some line, some column => s!"line {line.written}:{column.written} {n.body}"
    | _, _ => n.body

end Notice

end RangeFlow
