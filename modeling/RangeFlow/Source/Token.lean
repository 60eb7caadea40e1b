import RangeFlow.Text.Integer

/-! # Tokens of the program text

Which tokens are looked for depends on the place in the program: an `Expect` lists them. Keywords
need no blank after them, except where an identifier may stand too: there a whole identifier is
read first, and it is a keyword only if it is spelled exactly like one. -/

namespace RangeFlow.Source

structure Numeral where
  value : Int
  /-- The number of decimal digits, zero for a hexadecimal number. -/
  digits : Nat
deriving DecidableEq, Repr

/-- The value, unless it is written with too many digits. -/
def Numeral.value? (n : Numeral) : Option Int :=
  if n.digits ≤ Text.digitLimit then some n.value else none

inductive Token
  /-- A keyword or a punctuation mark. -/
  | mark (text : String)
  | intType (bits : Numeral)
  | structName (name : String)
  | var (name : String)
  | global (name : String)
  | ident (name : String)
  | const (value : Numeral)
  /-- The end of the text. -/
  | stop
deriving DecidableEq, Repr

/-- The tokens that can stand at a place. -/
structure Expect where
  marks : List String := []
  words : List String := []
  intType : Bool := false
  structName : Bool := false
  var : Bool := false
  global : Bool := false
  ident : Bool := false
  const : Bool := false
deriving DecidableEq, Repr

namespace Expect

def or (e f : Expect) : Expect :=
  { marks := e.marks ++ f.marks
    words := e.words ++ f.words
    intType := e.intType || f.intType
    structName := e.structName || f.structName
    var := e.var || f.var
    global := e.global || f.global
    ident := e.ident || f.ident
    const := e.const || f.const }

def orMarks (e : Expect) (marks : List String) : Expect := { e with marks := e.marks ++ marks }

end Expect

def isNameStart (c : Char) : Bool := c.isAlpha || c == '_'

def isNameChar (c : Char) : Bool := c.isAlphanum || c == '_' || c == '.' || c == '$'

def isVarChar (c : Char) : Bool := isNameChar c || c == ':'

def isHexDigit (c : Char) : Bool :=
  c.isDigit || ('a' ≤ c && c ≤ 'f') || ('A' ≤ c && c ≤ 'F')

def digitValue (c : Char) : Nat :=
  if c.isDigit then c.toNat - '0'.toNat
  else if 'a' ≤ c then c.toNat - 'a'.toNat + 10
  else c.toNat - 'A'.toNat + 10

/-- The number written by digits of a base, the most significant one first. -/
def numeral (base : Nat) (digits : List Char) : Nat :=
  digits.foldl (fun n c => n * base + digitValue c) 0

/-- A token and the number of characters it takes up. -/
abbrev Scan := Option (Token × Nat)

def scanIntType : List Char → Scan
  | 'i' :: cs =>
    match cs.takeWhile Char.isDigit with
    | [] => none
    | digits => some (.intType ⟨numeral 10 digits, digits.length⟩, digits.length + 1)
  | _ => none

def scanStructName : List Char → Scan
  | '%' :: c :: cs =>
    if isNameStart c then
      let name := c :: cs.takeWhile isNameChar
      some (.structName (String.ofList name), name.length + 1)
    else none
  | _ => none

def scanVar : List Char → Scan
  | '%' :: cs =>
    match cs.takeWhile isVarChar with
    | [] => none
    | name => some (.var (String.ofList name), name.length + 1)
  | _ => none

def scanGlobal : List Char → Scan
  | '@' :: cs =>
    match cs.takeWhile isNameChar with
    | [] => none
    | name => some (.global (String.ofList name), name.length + 1)
  | _ => none

/-- The digits of a number without its sign: hexadecimal after `0x`, if any follow, else decimal. -/
def scanDigits (cs : List Char) : Option (Numeral × Nat) :=
  let decimal :=
    match cs.takeWhile Char.isDigit with
    | [] => none
    | digits => some (⟨numeral 10 digits, digits.length⟩, digits.length)
  match cs with
  | '0' :: 'x' :: rest =>
    match rest.takeWhile isHexDigit with
    | [] => decimal
    | digits => some (⟨numeral 16 digits, 0⟩, digits.length + 2)
  | _ => decimal

def scanConst : List Char → Scan
  | '-' :: cs => (scanDigits cs).map fun (v, n) => (.const ⟨-v.value, v.digits⟩, n + 1)
  | cs => (scanDigits cs).map fun (v, n) => (.const v, n)

/-- The first of some texts that the characters begin with. -/
def scanMark (marks : List String) (cs : List Char) : Scan :=
  (marks.find? fun m => m.toList.isPrefixOf cs).map fun m => (.mark m, m.length)

/-- A whole identifier, which is a keyword if it is listed as one. -/
def scanIdent (words : List String) : List Char → Scan
  | c :: cs =>
    if isNameStart c then
      let name := c :: cs.takeWhile isNameChar
      let text := String.ofList name
      some (if text ∈ words then .mark text else .ident text, name.length)
    else none
  | [] => none

def scanWord (e : Expect) (cs : List Char) : Scan :=
  if e.ident then scanIdent e.words cs else scanMark e.words cs

/-- The token that the characters begin with, of those that can stand here. -/
def scan (e : Expect) (cs : List Char) : Scan :=
  (if e.intType then scanIntType cs else none)
    <|> (if e.structName then scanStructName cs else none)
    <|> (if e.var then scanVar cs else none)
    <|> (if e.global then scanGlobal cs else none)
    <|> (if e.const then scanConst cs else none)
    <|> scanWord e cs
    <|> scanMark e.marks cs

end RangeFlow.Source
