import RangeFlow.Comparison.Basic
import RangeFlow.Program.Operand

/-! # Instructions

An instruction assigns a value to a variable, stores to memory, calls for effect, or ends its
block. -/

namespace RangeFlow

inductive BinaryOp
  | add | sub | mul | udiv | sdiv | urem | srem | shl | lshr | ashr | and | or | xor
deriving DecidableEq, Repr

namespace BinaryOp

def all : List BinaryOp :=
  [.add, .sub, .mul, .udiv, .sdiv, .urem, .srem, .shl, .lshr, .ashr, .and, .or, .xor]

def name : BinaryOp → String
  | .add => "add"
  | .sub => "sub"
  | .mul => "mul"
  | .udiv => "udiv"
  | .sdiv => "sdiv"
  | .urem => "urem"
  | .srem => "srem"
  | .shl => "shl"
  | .lshr => "lshr"
  | .ashr => "ashr"
  | .and => "and"
  | .or => "or"
  | .xor => "xor"

def ofName? (s : String) : Option BinaryOp := all.find? fun o => o.name == s

end BinaryOp

inductive CastOp
  | trunc | zext | sext | bitcast | ptrtoint | inttoptr
deriving DecidableEq, Repr

namespace CastOp

def all : List CastOp := [.trunc, .zext, .sext, .bitcast, .ptrtoint, .inttoptr]

def name : CastOp → String
  | .trunc => "trunc"
  | .zext => "zext"
  | .sext => "sext"
  | .bitcast => "bitcast"
  | .ptrtoint => "ptrtoint"
  | .inttoptr => "inttoptr"

def ofName? (s : String) : Option CastOp := all.find? fun o => o.name == s

end CastOp

/-- What a call invokes: a function by its name, or the function a variable points to. -/
inductive Callee
  | direct (name : String)
  | indirect (pointer : String)
deriving DecidableEq, Repr

def Callee.operand : Callee → Operand
  | .direct name => .symbol name
  | .indirect pointer => .var pointer .ptr

structure Call where
  returns : Ty
  callee : Callee
  args : List Operand
deriving DecidableEq, Repr

/-- The value a phi takes when its block is entered from a block. -/
structure PhiEntry where
  label : String
  value : Operand
deriving DecidableEq, Repr

/-- The block a switch goes to on a value. -/
structure SwitchCase where
  value : Int
  label : String
deriving DecidableEq, Repr

/-- The right side of an assignment. -/
inductive Value
  | binary (op : BinaryOp) (ty : Ty) (lhs rhs : Operand)
  | compare (op : Comparison) (ty : Ty) (lhs rhs : Operand)
  | cast (op : CastOp) (source : Ty) (operand : Operand) (target : Ty)
  | select (ty : Ty) (cond ifTrue ifFalse : Operand)
  | phi (ty : Ty) (entries : List PhiEntry)
  | load (ty : Ty) (address : Operand)
  | alloca (ty : Ty)
  | field (struct : Ty) (address : Operand) (index : Int)
  | elem (ty : Ty) (address index : Operand)
  | call (call : Call)
deriving DecidableEq, Repr

namespace Value

def ty : Value → Ty
  | .binary _ t _ _ => t
  | .compare _ _ _ _ => .i1
  | .cast _ _ _ t => t
  | .select t _ _ _ => t
  | .phi t _ => t
  | .load t _ => t
  | .alloca _ | .field _ _ _ | .elem _ _ _ => .ptr
  | .call c => c.returns

def opcode : Value → String
  | .binary op _ _ _ => op.name
  | .compare op _ _ _ => op.name
  | .cast op _ _ _ => op.name
  | .select _ _ _ _ => "select"
  | .phi _ _ => "phi"
  | .load _ _ => "load"
  | .alloca _ => "alloca"
  | .field _ _ _ => "field"
  | .elem _ _ _ => "elem"
  | .call _ => "call"

end Value

inductive Terminator
  | jmp (target : String)
  | jnz (cond : Operand) (ifTrue ifFalse : String)
  | switch (ty : Ty) (cond : Operand) (default : String) (cases : List SwitchCase)
  | ret (ty : Ty) (value : Operand)
  | retVoid
  | unreachable
deriving DecidableEq, Repr

namespace Terminator

def opcode : Terminator → String
  | .jmp _ => "jmp"
  | .jnz _ _ _ => "jnz"
  | .switch _ _ _ _ => "switch"
  | .ret _ _ | .retVoid => "ret"
  | .unreachable => "unreachable"

def labels : Terminator → List String
  | .jmp l => [l]
  | .jnz _ l r => [l, r]
  | .switch _ _ l cases => l :: cases.map SwitchCase.label
  | .ret _ _ | .retVoid | .unreachable => []

end Terminator

inductive Action
  | assign (result : String) (value : Value)
  | store (ty : Ty) (value address : Operand)
  | call (call : Call)
  | finish (terminator : Terminator)
deriving DecidableEq, Repr

/-- An action and the line of the source it was written on. -/
structure Instr where
  action : Action
  line : Nat
deriving DecidableEq, Repr

namespace Action

def opcode : Action → String
  | .assign _ v => v.opcode
  | .store _ _ _ => "store"
  | .call _ => "call"
  | .finish t => t.opcode

/-- The operands in order, the callee of a call included and labels left out. -/
def operands : Action → List Operand
  | .assign _ (.binary _ _ a b) | .assign _ (.compare _ _ a b) => [a, b]
  | .assign _ (.cast _ _ a _) => [a]
  | .assign _ (.select _ c a b) => [c, a, b]
  | .assign _ (.phi _ entries) => entries.map PhiEntry.value
  | .assign _ (.load _ p) | .assign _ (.field _ p _) => [p]
  | .assign _ (.alloca _) => []
  | .assign _ (.elem _ p i) => [p, i]
  | .assign _ (.call c) | .call c => c.callee.operand :: c.args
  | .store _ v p => [v, p]
  | .finish (.jnz c _ _) => [c]
  | .finish (.switch _ c _ _) => [c]
  | .finish (.ret _ v) => [v]
  | .finish (.jmp _) | .finish .retVoid | .finish .unreachable => []

def labels : Action → List String
  | .assign _ (.phi _ entries) => entries.map PhiEntry.label
  | .finish t => t.labels
  | _ => []

end Action

namespace Instr

def opcode (i : Instr) : String := i.action.opcode

def operands (i : Instr) : List Operand := i.action.operands

def labels (i : Instr) : List String := i.action.labels

def result? (i : Instr) : Option String :=
  match i.action with
  | .assign x _ => some x
  | _ => none

def value? (i : Instr) : Option Value :=
  match i.action with
  | .assign _ v => some v
  | _ => none

def resultTy? (i : Instr) : Option Ty := i.value?.map Value.ty

def terminator? (i : Instr) : Option Terminator :=
  match i.action with
  | .finish t => some t
  | _ => none

def isTerminator (i : Instr) : Bool := i.terminator?.isSome

/-- The call the instruction makes, for its value or for effect. -/
def call? (i : Instr) : Option Call :=
  match i.action with
  | .assign _ (.call c) | .call c => some c
  | _ => none

end Instr

end RangeFlow
