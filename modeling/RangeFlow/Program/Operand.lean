import RangeFlow.Program.Ty

/-! # Operands of instructions -/

namespace RangeFlow

/-- A value an instruction reads. The name of a variable is kept without its `%`, that of a symbol
without its `@`. -/
inductive Operand
  | var (name : String) (ty : Ty)
  | literal (value : Int) (width : Width)
  /-- The address of a global variable or of a function. -/
  | symbol (name : String)
deriving DecidableEq, Repr

/-- An integer in decimal, or in hexadecimal from 1024 on; the sign stands before the digits. -/
def literalText (v : Int) : String :=
  if v.natAbs < 1024 then toString v
  else
    let digits := String.ofList (Nat.toDigits 16 v.natAbs)
    if v < 0 then "0x-" ++ digits else "0x" ++ digits

namespace Operand

def ty : Operand → Ty
  | .var _ t => t
  | .literal _ w => .int w
  | .symbol _ => .ptr

def text : Operand → String
  | .var name _ => "%" ++ name
  | .literal v _ => literalText v
  | .symbol name => "@" ++ name

def typedText (o : Operand) : String := o.ty.text ++ " " ++ o.text

def var? : Operand → Option String
  | .var name _ => some name
  | _ => none

def symbol? : Operand → Option String
  | .symbol name => some name
  | _ => none

end Operand

end RangeFlow
