import RangeFlow.Program.Instr
import RangeFlow.Source.Token

/-! # Programs as they are written

The trees that the grammar produces. Operands are not typed yet, types may have width zero,
numbers may have too many digits, and names may be declared twice. -/

namespace RangeFlow.Source

inductive TypeTree
  | int (bits : Numeral)
  | ptr
  | named (name : String)
  | literal (fields : List TypeTree)
  | array (count : Numeral) (element : TypeTree)
deriving Repr

inductive Atom
  | var (name : String)
  | const (value : Numeral)
  | symbol (name : String)
deriving DecidableEq, Repr

inductive ConstantTree
  | int (value : Numeral)
  | symbol (name : String)
  | zero
  | struct (elements : List ConstantTree)
  | array (elements : List ConstantTree)
deriving Repr

/-- A call; no type stands for `void`. -/
structure CallTree where
  returns : Option TypeTree
  callee : Callee
  args : List (TypeTree × Atom)
deriving Repr

inductive ValueTree
  | binary (op : BinaryOp) (ty : TypeTree) (lhs rhs : Atom)
  | compare (op : Comparison) (ty : TypeTree) (lhs rhs : Atom)
  | cast (op : CastOp) (source : TypeTree) (operand : Atom) (target : TypeTree)
  | select (ty : TypeTree) (cond ifTrue ifFalse : Atom)
  | phi (ty : TypeTree) (entries : List (String × Atom))
  | load (ty : TypeTree) (address : Atom)
  | alloca (ty : TypeTree)
  | field (struct : TypeTree) (address : Atom) (index : Numeral)
  | elem (ty : TypeTree) (address : Atom) (indexTy : TypeTree) (index : Atom)
  | call (call : CallTree)
deriving Repr

inductive StatementTree
  | assign (result : String) (value : ValueTree)
  | store (ty : TypeTree) (value address : Atom)
  | call (call : CallTree)
  | jmp (target : String)
  | jnz (cond : Atom) (ifTrue ifFalse : String)
  | switch (ty : TypeTree) (cond : Atom) (default : String) (cases : List (Numeral × String))
  | ret (ty : TypeTree) (value : Atom)
  | retVoid
  | unreachable
deriving Repr

inductive BodyItem
  | label (name : String)
  | statement (line : Nat) (statement : StatementTree)
deriving Repr

inductive ParamTree
  | param (ty : TypeTree) (name : Option String)
  | ellipsis
deriving Repr

/-- The head of a function; no return type stands for `void`. -/
structure HeadTree where
  name : String
  params : List ParamTree
  returns : Option TypeTree
deriving Repr

inductive Item
  | struct (name : String) (fields : List TypeTree)
  | global (name : String) (ty : TypeTree) (init : Option ConstantTree)
  | declare (head : HeadTree)
  | function (head : HeadTree) (body : List BodyItem)
deriving Repr

end RangeFlow.Source
