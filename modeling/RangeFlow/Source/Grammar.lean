import RangeFlow.Source.Reader
import RangeFlow.Source.Tree

/-! # The grammar of programs

Every rule says, for each token it passes, which tokens can follow. After the last token of a
type, an operand, a label or a constant these are the tokens that can follow such a phrase
anywhere in a program.

The rules that recurse take a bound on the depth of their calls. A text of `n` characters has at
most `n` tokens, and of two nested calls at least one passes a token, so twice the length of the
text is enough. -/

namespace RangeFlow.Source

open Reading

namespace Expect

def items : Expect := { words := ["function", "declare", "struct", "global"] }

def body : Expect :=
  { marks := ["\x7d"]
    words := ["store", "call", "jmp", "jnz", "switch", "ret", "unreachable"]
    var := true
    ident := true }

def types : Expect :=
  { marks := ["\x7b", "["], words := ["ptr"], intType := true, structName := true }

def typesOrVoid : Expect := types.or { words := ["void"] }

def operands : Expect := { var := true, global := true, const := true }

def constants : Expect :=
  { marks := ["\x7b", "["], words := ["zeroinitializer"], global := true, const := true }

def values : Expect :=
  { words := CastOp.all.map CastOp.name ++ BinaryOp.all.map BinaryOp.name ++
      Comparison.all.map Comparison.name ++
      ["select", "phi", "load", "alloca", "field", "elem", "call"] }

def globals : Expect := { global := true }

def consts : Expect := { const := true }

def callees : Expect := { global := true, var := true }

def ofMarks (ms : List String) : Expect := { marks := ms }

/-- What can follow a type. -/
def afterType : Expect :=
  (body.or items).or { marks := [")", ",", "=", "]", "\x7b"], global := true, const := true }

def afterOperand : Expect := body.or { marks := [")", ","], words := ["to"] }

def afterLabel : Expect := body.orMarks [","]

def afterConstant : Expect := items.orMarks [",", "]", "\x7d"]

end Expect

mutual

def typeTree : Nat → Reading TypeTree
  | 0 => refuse
  | n + 1 => do
    match ← token with
    | .intType bits => advance .afterType; return .int bits
    | .mark "ptr" => advance .afterType; return .ptr
    | .structName name => advance .afterType; return .named name
    | .mark "\x7b" =>
      advance (Expect.types.orMarks ["\x7d"])
      let fields ← typeList n
      pass "\x7d" .afterType
      return .literal fields
    | .mark "[" =>
      advance .consts
      let count ← constValue { words := ["x"] }
      pass "x" .types
      let element ← typeTree n
      pass "]" .afterType
      return .array count element
    | _ => refuse

/-- The types before a closing brace, separated by commas; there may be none. -/
def typeList : Nat → Reading (List TypeTree)
  | 0 => refuse
  | n + 1 => do
    if ← isAt "\x7d" then return []
    let first ← typeTree n
    return first :: (← moreTypes n)

def moreTypes : Nat → Reading (List TypeTree)
  | 0 => refuse
  | n + 1 => do
    if ← isAt "," then
      advance .types
      let t ← typeTree n
      return t :: (← moreTypes n)
    else return []

end

mutual

def constant : Nat → Reading ConstantTree
  | 0 => refuse
  | n + 1 => do
    match ← token with
    | .const v => advance .afterConstant; return .int v
    | .global name => advance .afterConstant; return .symbol name
    | .mark "zeroinitializer" => advance .afterConstant; return .zero
    | .mark "\x7b" =>
      advance (Expect.constants.orMarks ["\x7d"])
      let elements ← constantList "\x7d" n
      pass "\x7d" .afterConstant
      return .struct elements
    | .mark "[" =>
      advance (Expect.constants.orMarks ["]"])
      let elements ← constantList "]" n
      pass "]" .afterConstant
      return .array elements
    | _ => refuse

/-- The constants before a closing mark, separated by commas; there may be none. -/
def constantList (close : String) : Nat → Reading (List ConstantTree)
  | 0 => refuse
  | n + 1 => do
    if ← isAt close then return []
    let first ← constant n
    return first :: (← moreConstants n)

def moreConstants : Nat → Reading (List ConstantTree)
  | 0 => refuse
  | n + 1 => do
    if ← isAt "," then
      advance .constants
      let c ← constant n
      return c :: (← moreConstants n)
    else return []

end

def atom : Reading Atom := do
  match ← token with
  | .var name => advance .afterOperand; return .var name
  | .const v => advance .afterOperand; return .const v
  | .global name => advance .afterOperand; return .symbol name
  | _ => refuse

def commaAtom : Reading Atom := do pass "," .operands; atom

def labelRef : Reading String := globalName .afterLabel

def commaLabel : Reading String := do pass "," .globals; labelRef

def phiEntry : Reading (String × Atom) := do
  let label ← labelRef
  return (label, ← commaAtom)

def morePhiEntries : Nat → Reading (List (String × Atom))
  | 0 => refuse
  | n + 1 => do
    if ← isAt "," then
      advance .globals
      let entry ← phiEntry
      return entry :: (← morePhiEntries n)
    else return []

def switchCase : Reading (Numeral × String) := do
  let v ← constValue (.ofMarks [","])
  return (v, ← commaLabel)

def switchCases : Nat → Reading (List (Numeral × String))
  | 0 => refuse
  | n + 1 => do
    if ← isAt "," then
      advance .consts
      let c ← switchCase
      return c :: (← switchCases n)
    else return []

def callArg (n : Nat) : Reading (TypeTree × Atom) := do
  let t ← typeTree n
  return (t, ← atom)

def moreCallArgs : Nat → Reading (List (TypeTree × Atom))
  | 0 => refuse
  | n + 1 => do
    if ← isAt "," then
      advance .types
      let arg ← callArg n
      return arg :: (← moreCallArgs n)
    else return []

/-- The arguments before a closing parenthesis; there may be none. -/
def callArgs (n : Nat) : Reading (List (TypeTree × Atom)) := do
  if ← isAt ")" then return []
  let first ← callArg n
  return first :: (← moreCallArgs n)

def callee : Reading Callee := do
  match ← token with
  | .global name => advance (.ofMarks ["("]); return .direct name
  | .var name => advance (.ofMarks ["("]); return .indirect name
  | _ => refuse

/-- A type, or nothing for `void`, which is followed by its own tokens. -/
def typeOrVoid (n : Nat) (afterVoid : Expect) : Reading (Option TypeTree) := do
  if ← isAt "void" then
    advance afterVoid
    return none
  else return some (← typeTree n)

/-- The rest of a call after its keyword. -/
def callTree (n : Nat) : Reading CallTree := do
  advance .typesOrVoid
  let returns ← typeOrVoid n .callees
  let callee ← callee
  pass "(" (Expect.types.orMarks [")"])
  let args ← callArgs n
  pass ")" .body
  return ⟨returns, callee, args⟩

def binaryTree (n : Nat) (op : BinaryOp) : Reading ValueTree := do
  advance .types
  let t ← typeTree n
  let a ← atom
  return .binary op t a (← commaAtom)

def compareTree (n : Nat) (op : Comparison) : Reading ValueTree := do
  advance .types
  let t ← typeTree n
  let a ← atom
  return .compare op t a (← commaAtom)

def castTree (n : Nat) (op : CastOp) : Reading ValueTree := do
  advance .types
  let s ← typeTree n
  let a ← atom
  pass "to" .types
  return .cast op s a (← typeTree n)

/-- A value whose keyword is neither an operator, a comparison nor a cast. -/
def otherValue (n : Nat) (word : String) : Reading ValueTree := do
  match word with
  | "select" =>
    advance .types
    let t ← typeTree n
    let c ← atom
    let a ← commaAtom
    return .select t c a (← commaAtom)
  | "phi" =>
    advance .types
    let t ← typeTree n
    let first ← phiEntry
    return .phi t (first :: (← morePhiEntries n))
  | "load" =>
    advance .types
    let t ← typeTree n
    return .load t (← atom)
  | "alloca" =>
    advance .types
    return .alloca (← typeTree n)
  | "field" =>
    advance .types
    let t ← typeTree n
    let p ← commaAtom
    pass "," .consts
    return .field t p (← constValue .body)
  | "elem" =>
    advance .types
    let t ← typeTree n
    let p ← commaAtom
    pass "," .types
    let it ← typeTree n
    return .elem t p it (← atom)
  | "call" => return .call (← callTree n)
  | _ => refuse

def valueTree (n : Nat) : Reading ValueTree := do
  match ← token with
  | .mark word =>
    match BinaryOp.ofName? word, Comparison.ofName? word, CastOp.ofName? word with
    | some op, _, _ => binaryTree n op
    | none, some op, _ => compareTree n op
    | none, none, some op => castTree n op
    | none, none, none => otherValue n word
  | _ => refuse

def keywordStatement (n : Nat) (word : String) : Reading StatementTree := do
  match word with
  | "store" =>
    advance .types
    let t ← typeTree n
    let v ← atom
    return .store t v (← commaAtom)
  | "call" => return .call (← callTree n)
  | "jmp" =>
    advance .globals
    return .jmp (← labelRef)
  | "jnz" =>
    advance .operands
    let c ← atom
    let l ← commaLabel
    return .jnz c l (← commaLabel)
  | "switch" =>
    advance .types
    let t ← typeTree n
    let c ← atom
    let l ← commaLabel
    return .switch t c l (← switchCases n)
  | "ret" =>
    advance .typesOrVoid
    match ← typeOrVoid n .body with
    | none => return .retVoid
    | some t => return .ret t (← atom)
  | "unreachable" => advance .body; return .unreachable
  | _ => refuse

def statement (n : Nat) : Reading StatementTree := do
  match ← token with
  | .var x =>
    advance (.ofMarks ["="])
    pass "=" .values
    return .assign x (← valueTree n)
  | .mark word => keywordStatement n word
  | _ => refuse

def bodyItem (n : Nat) : Reading BodyItem := do
  match ← token with
  | .ident name =>
    advance (.ofMarks [":"])
    pass ":" .body
    return .label name
  | _ =>
    let line := (← get).pos.line
    return .statement line (← statement n)

def bodyItems : Nat → Reading (List BodyItem)
  | 0 => refuse
  | n + 1 => do
    if ← isAt "\x7d" then return []
    let item ← bodyItem n
    return item :: (← bodyItems n)

def param (n : Nat) : Reading ParamTree := do
  if ← isAt "..." then
    advance (.ofMarks [")", ","])
    return .ellipsis
  else
    let t ← typeTree n
    match ← token with
    | .var name =>
      advance (.ofMarks [")", ","])
      return .param t (some name)
    | _ => return .param t none

def moreParams : Nat → Reading (List ParamTree)
  | 0 => refuse
  | n + 1 => do
    if ← isAt "," then
      advance (Expect.types.orMarks ["..."])
      let p ← param n
      return p :: (← moreParams n)
    else return []

def paramList (n : Nat) : Reading (List ParamTree) := do
  if ← isAt ")" then return []
  let first ← param n
  return first :: (← moreParams n)

/-- The type after an arrow; without an arrow nothing is returned. -/
def returnType (n : Nat) : Reading (Option TypeTree) := do
  if ← isAt "->" then
    advance .typesOrVoid
    typeOrVoid n (Expect.items.orMarks ["\x7b"])
  else return none

/-- The head of a function after its keyword; `afterParams` can follow the closing parenthesis. -/
def headTree (n : Nat) (afterParams : Expect) : Reading HeadTree := do
  let name ← globalName (.ofMarks ["("])
  pass "(" (Expect.types.orMarks [")", "..."])
  let params ← paramList n
  pass ")" (afterParams.orMarks ["->"])
  let returns ← returnType n
  return ⟨name, params, returns⟩

def structItem (n : Nat) : Reading Item := do
  advance { structName := true }
  match ← token with
  | .structName name =>
    advance (.ofMarks ["="])
    pass "=" (.ofMarks ["\x7b"])
    pass "\x7b" (Expect.types.orMarks ["\x7d"])
    let fields ← typeList n
    pass "\x7d" .items
    return .struct name fields
  | _ => refuse

def globalItem (n : Nat) : Reading Item := do
  advance .globals
  let name ← globalName (.ofMarks [":"])
  pass ":" .types
  let t ← typeTree n
  if ← isAt "=" then
    advance .constants
    return .global name t (some (← constant n))
  else return .global name t none

def declareItem (n : Nat) : Reading Item := do
  advance { words := ["function"] }
  pass "function" .globals
  return .declare (← headTree n .items)

def functionItem (n : Nat) : Reading Item := do
  advance .globals
  let head ← headTree n (.ofMarks ["\x7b"])
  pass "\x7b" .body
  let body ← bodyItems n
  pass "\x7d" .items
  return .function head body

def item (n : Nat) : Reading Item := do
  match ← token with
  | .mark "struct" => structItem n
  | .mark "global" => globalItem n
  | .mark "declare" => declareItem n
  | .mark "function" => functionItem n
  | _ => refuse

def programItems : Nat → Reading (List Item)
  | 0 => refuse
  | n + 1 => do
    if (← token) == .stop then return []
    let i ← item n
    return i :: (← programItems n)

/-- The items of a program text, or the place where it stops being one. -/
def parseItems (text : String) : Except Position (List Item) := do
  let cs := text.toList
  let r ← readToken .items ⟨cs, .start⟩ .start
  let (items, _) ← (programItems (2 * cs.length + 2)).run r
  return items

end RangeFlow.Source
