import RangeFlow.Ordered.Map
import RangeFlow.Program.Text
import RangeFlow.Range.Checked
import RangeFlow.Source.Grammar

/-! # From trees to a program

The trees are walked in the order of the text, inner parts first: types are resolved, operands get
their types, and struct names are collected in the order in which they are met. Only then are
globals and functions put together, so that a fault of the first kind is reported before any of
the second. -/

namespace RangeFlow.Source

/-- Why a text is not a program. -/
inductive SourceError
  /-- No program goes on like this at the given place. -/
  | unexpected (pos : Position)
  /-- An integer type of a width that no word has, or that the words of a literal cannot have. -/
  | badWidth (error : RangeError)
  /-- A number with too many decimal digits is read, or has to be written in a message. -/
  | tooManyDigits
  | duplicateStruct (name : String)
  | literalAs (value : Int) (ty : Ty)
  | fieldOf (ty : Ty)
  | noValue (result : String)
  | duplicateGlobal (name : String)
  | duplicateFunction (name : String)
  | misplacedEllipsis
  | duplicateLabel (label function : String)
  | unlabelled (function : String)
deriving DecidableEq, Repr

/-- The words for a fault that is not one of grammar or of numbers. -/
def SourceError.message? : SourceError → Option String
  | .unexpected _ | .badWidth _ | .tooManyDigits => none
  | .duplicateStruct name => some s!"duplicate struct type %{name}"
  | .literalAs v t => some s!"integer literal {v} used as a value of type {t.text}"
  | .fieldOf t => some ("`field` expects a struct type, got " ++ t.text)
  | .noValue x => some ("`call` does not produce a value for %" ++ x)
  | .duplicateGlobal name => some s!"duplicate global @{name}"
  | .duplicateFunction name => some s!"duplicate function @{name}"
  | .misplacedEllipsis => some "`...` must be the last parameter"
  | .duplicateLabel label f => some s!"duplicate label {label} in @{f}"
  | .unlabelled f => some s!"instruction found before any label declaration in @{f}"

/-- The struct types met so far, with their fields once they are defined. -/
abbrev Structs := OrderedMap String (Option (List Ty))

abbrev Build := StateT Structs (Except SourceError)

/-- Makes a struct name known. -/
def meetStruct (name : String) : Build Unit :=
  modify fun s => if s.contains name then s else s.insert name none

def readNumeral (n : Numeral) : Build Int :=
  match n.value? with
  | some v => return v
  | none => throw .tooManyDigits

mutual

def buildType : TypeTree → Build Ty
  | .int bits => do
    match Width.ofInt? (← readNumeral bits) with
    | some w => return .int w
    | none => throw (.badWidth .invalid)
  | .ptr => return .ptr
  | .named name => do meetStruct name; return .named name
  | .literal fields => return .literal (← buildTypes fields)
  | .array count element => do
    let count ← readNumeral count
    return .array count (← buildType element)

def buildTypes : List TypeTree → Build (List Ty)
  | [] => return []
  | t :: ts => do
    let t ← buildType t
    return t :: (← buildTypes ts)

end

def buildReturns : Option TypeTree → Build Ty
  | none => return .void
  | some t => buildType t

mutual

def buildConstant : ConstantTree → Build Constant
  | .int v => return .int (← readNumeral v)
  | .symbol name => return .symbol name
  | .zero => return .zero
  | .struct elements => return .struct (← buildConstants elements)
  | .array elements => return .array (← buildConstants elements)

def buildConstants : List ConstantTree → Build (List Constant)
  | [] => return []
  | c :: cs => do
    let c ← buildConstant c
    return c :: (← buildConstants cs)

end

def readAtoms (atoms : List Atom) : Build Unit :=
  atoms.forM fun
    | .const n => do let _ ← readNumeral n
    | .var _ | .symbol _ => return

/-- A number at a type, reduced to its width. -/
def literalAt (t : Ty) (v : Int) : Except SourceError (Nat × Width) :=
  match t with
  | .int w => (w.counted.mapError .badWidth).map fun w => (w.wrap v, w)
  | t => .error (if Text.isWritable v && t.isWritable then .literalAs v t else .tooManyDigits)

/-- An operand at a type; a symbol is an address whatever the type. -/
def operandAt (t : Ty) : Atom → Except SourceError Operand
  | .var name => .ok (.var name t)
  | .symbol name => .ok (.symbol name)
  | .const n => (literalAt t n.value).map fun (v, w) => .literal v w

def buildArg (arg : TypeTree × Atom) : Build (Ty × Atom) := do
  let t ← buildType arg.1
  readAtoms [arg.2]
  return (t, arg.2)

def buildCall (c : CallTree) : Build Call := do
  let returns ← buildReturns c.returns
  let args ← c.args.mapM buildArg
  return ⟨returns, c.callee, ← liftM (args.mapM fun (t, a) => operandAt t a)⟩

def buildValue : ValueTree → Build Value
  | .binary op t a b => do
    let t ← buildType t
    readAtoms [a, b]
    let a ← liftM (operandAt t a)
    return .binary op t a (← liftM (operandAt t b))
  | .compare op t a b => do
    let t ← buildType t
    readAtoms [a, b]
    let a ← liftM (operandAt t a)
    return .compare op t a (← liftM (operandAt t b))
  | .cast op s a t => do
    let s ← buildType s
    readAtoms [a]
    let t ← buildType t
    return .cast op s (← liftM (operandAt s a)) t
  | .select t c a b => do
    let t ← buildType t
    readAtoms [c, a, b]
    let c ← liftM (operandAt .i1 c)
    let a ← liftM (operandAt t a)
    return .select t c a (← liftM (operandAt t b))
  | .phi t entries => do
    let t ← buildType t
    readAtoms (entries.map Prod.snd)
    let entries ← liftM (entries.mapM fun (l, a) => (operandAt t a).map (PhiEntry.mk l))
    return .phi t entries
  | .load t p => do
    let t ← buildType t
    readAtoms [p]
    return .load t (← liftM (operandAt .ptr p))
  | .alloca t => return .alloca (← buildType t)
  | .field t p i => do
    let t ← buildType t
    readAtoms [p]
    let i ← readNumeral i
    if t.isStruct then return .field t (← liftM (operandAt .ptr p)) i
    else throw (if t.isWritable then .fieldOf t else .tooManyDigits)
  | .elem t p it i => do
    let t ← buildType t
    readAtoms [p]
    let it ← buildType it
    readAtoms [i]
    let p ← liftM (operandAt .ptr p)
    return .elem t p (← liftM (operandAt it i))
  | .call c => return .call (← buildCall c)

def buildCase (t : Ty) (v : Int) (label : String) : Except SourceError SwitchCase :=
  (literalAt t v).map fun (v, _) => ⟨v, label⟩

def buildStatement : StatementTree → Build Action
  | .assign x v => do
    let v ← buildValue v
    if v.ty = .void then throw (.noValue x) else return .assign x v
  | .store t v p => do
    let t ← buildType t
    readAtoms [v, p]
    let v ← liftM (operandAt t v)
    return .store t v (← liftM (operandAt .ptr p))
  | .call c => return .call (← buildCall c)
  | .jmp l => return .finish (.jmp l)
  | .jnz c l r => do
    readAtoms [c]
    return .finish (.jnz (← liftM (operandAt .i1 c)) l r)
  | .switch t c l cases => do
    let t ← buildType t
    readAtoms [c]
    let values ← cases.mapM fun k => readNumeral k.1
    let c ← liftM (operandAt t c)
    let cases ← liftM ((values.zip (cases.map Prod.snd)).mapM fun (v, label) => buildCase t v label)
    return .finish (.switch t c l cases)
  | .ret t v => do
    let t ← buildType t
    readAtoms [v]
    return .finish (.ret t (← liftM (operandAt t v)))
  | .retVoid => return .finish .retVoid
  | .unreachable => return .finish .unreachable

/-- A label or an instruction of a body. -/
inductive BodyPart
  | label (name : String)
  | instr (instr : Instr)
deriving DecidableEq, Repr

def buildBodyItem : BodyItem → Build BodyPart
  | .label name => return .label name
  | .statement line s => return .instr ⟨← buildStatement s, line⟩

/-- A parameter with its type resolved, or the mark for further arguments. -/
inductive ParamPart
  | param (ty : Ty) (name : Option String)
  | ellipsis
deriving DecidableEq, Repr

def buildParam : ParamTree → Build ParamPart
  | .param t name => return .param (← buildType t) name
  | .ellipsis => return .ellipsis

/-- A function whose parts are resolved but not yet put together. -/
structure FunctionParts where
  name : String
  params : List ParamPart
  returns : Ty
  body : List BodyPart
deriving DecidableEq, Repr

def buildFunction (h : HeadTree) (body : List BodyItem) : Build FunctionParts := do
  let params ← h.params.mapM buildParam
  let returns ← buildReturns h.returns
  let body ← body.mapM buildBodyItem
  return ⟨h.name, params, returns, body⟩

inductive Part
  | struct
  | global (global : Global)
  | function (parts : FunctionParts)
deriving DecidableEq, Repr

def buildItem : Item → Build Part
  | .struct name fields => do
    let fields ← buildTypes fields
    match (← get).get? name with
    | some (some _) => throw (.duplicateStruct name)
    | _ =>
      modify fun s => s.insert name (some fields)
      return .struct
  | .global name t init => do
    let t ← buildType t
    return .global ⟨name, t, ← init.mapM buildConstant⟩
  | .declare h => return .function (← buildFunction h [])
  | .function h body => return .function (← buildFunction h body)

/-- The globals, whose names have to differ. -/
def collectGlobals (seen : List Global) : List Part → Except SourceError (List Global)
  | [] => .ok seen
  | .global g :: parts =>
    if seen.any fun h => h.name == g.name then .error (.duplicateGlobal g.name)
    else collectGlobals (seen ++ [g]) parts
  | _ :: parts => collectGlobals seen parts

/-- The parameters from position `i` on, and whether more arguments may follow. A parameter
without a name is called by its position. -/
def collectParams (i : Nat) : List ParamPart → Except SourceError (List Param × Bool)
  | [] => .ok ([], false)
  | [.ellipsis] => .ok ([], true)
  | .ellipsis :: _ :: _ => .error .misplacedEllipsis
  | .param t name :: parts =>
    (collectParams (i + 1) parts).map fun (params, vararg) =>
      (⟨name.getD (toString i), t⟩ :: params, vararg)

/-- The blocks of a body: each label opens a block of the instructions up to the next one. -/
def collectBlocks (function : String) (done : List Block) :
    List BodyPart → Except SourceError (List Block)
  | [] => .ok done
  | .label name :: parts =>
    if done.any fun b => b.label == name then .error (.duplicateLabel name function)
    else collectBlocks function (done ++ [⟨name, []⟩]) parts
  | .instr i :: parts =>
    match done.getLast? with
    | none => .error (.unlabelled function)
    | some b => collectBlocks function (done.dropLast ++ [⟨b.label, b.instrs ++ [i]⟩]) parts

def collectFunction (f : FunctionParts) : Except SourceError Function := do
  let (params, isVararg) ← collectParams 0 f.params
  let blocks ← collectBlocks f.name [] f.body
  return ⟨f.name, params, f.returns, isVararg, blocks⟩

def collectFunctions (seen : List Function) : List Part → Except SourceError (List Function)
  | [] => .ok seen
  | .function f :: parts =>
    if seen.any fun g => g.name == f.name then .error (.duplicateFunction f.name)
    else do collectFunctions (seen ++ [← collectFunction f]) parts
  | _ :: parts => collectFunctions seen parts

def buildProgram (items : List Item) : Except SourceError Program := do
  let (parts, structs) ← (items.mapM buildItem).run ∅
  let globals ← collectGlobals [] parts
  let functions ← collectFunctions [] parts
  return ⟨structs.entries.map fun (name, fields) => ⟨name, fields⟩, globals, functions⟩

end RangeFlow.Source

namespace RangeFlow

def Program.parse (text : String) : Except Source.SourceError Program :=
  match Source.parseItems text with
  | .error pos => .error (.unexpected pos)
  | .ok items => Source.buildProgram items

end RangeFlow
