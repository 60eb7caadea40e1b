import RangeFlow.Source.Token

/-! # Reading a text token by token

A reader stands at a token and knows where it starts. Each step forward names the tokens that can
come next, and fails at the place where none of them stands. -/

namespace RangeFlow.Source

/-- A place in the text; lines and columns are counted from one, and only a line feed ends a line.
-/
structure Position where
  line : Nat
  column : Nat
deriving DecidableEq, Repr

namespace Position

def start : Position := ⟨1, 1⟩

def after (p : Position) (c : Char) : Position :=
  if c = '\n' then ⟨p.line + 1, 1⟩ else ⟨p.line, p.column + 1⟩

end Position

/-- The characters that are left, and the place of the first of them. -/
structure Cursor where
  rest : List Char
  pos : Position
deriving DecidableEq, Repr

namespace Cursor

def drop (c : Cursor) (n : Nat) : Cursor :=
  ⟨c.rest.drop n, (c.rest.take n).foldl Position.after c.pos⟩

end Cursor

def isBlank (c : Char) : Bool :=
  c == ' ' || c == '\t' || c == '\n' || c == '\r' || c == '\x0c'

/-- Goes to the first character that is neither blank nor part of a comment; a comment goes from a
semicolon to the end of its line. -/
def skipBlanks (inComment : Bool) : List Char → Position → Cursor
  | [], p => ⟨[], p⟩
  | c :: cs, p =>
    if inComment then skipBlanks (c != '\n') cs (p.after c)
    else if isBlank c then skipBlanks false cs (p.after c)
    else if c = ';' then skipBlanks true cs (p.after c)
    else ⟨c :: cs, p⟩

/-- The token the reader stands at, the place where it starts, and what follows it. The end of the
text counts as placed at the last token. -/
structure Reader where
  token : Token
  pos : Position
  next : Cursor
deriving DecidableEq, Repr

/-- Reads one of the expected tokens; `last` is the place of the token before it. -/
def readToken (e : Expect) (c : Cursor) (last : Position) : Except Position Reader :=
  let c := skipBlanks false c.rest c.pos
  match c.rest with
  | [] => .ok ⟨.stop, last, c⟩
  | _ :: _ =>
    match scan e c.rest with
    | some (t, n) => .ok ⟨t, c.pos, c.drop n⟩
    | none => .error c.pos

/-- A computation that moves a reader forward, or fails at a place. -/
abbrev Reading := StateT Reader (Except Position)

namespace Reading

def token : Reading Token := return (← get).token

/-- Refuses the token the reader stands at. -/
def refuse {α : Type} : Reading α := do throw (← get).pos

/-- Goes to the next token, one of those expected. -/
def advance (e : Expect) : Reading Unit := do
  let r ← get
  set (← liftM (readToken e r.next r.pos))

/-- Whether the reader stands at a mark. -/
def isAt (m : String) : Reading Bool := return (← token) == .mark m

def pass (m : String) (e : Expect) : Reading Unit := do
  if ← isAt m then advance e else refuse

def globalName (e : Expect) : Reading String := do
  match ← token with
  | .global name => advance e; return name
  | _ => refuse

def constValue (e : Expect) : Reading Numeral := do
  match ← token with
  | .const v => advance e; return v
  | _ => refuse

end Reading

end RangeFlow.Source
