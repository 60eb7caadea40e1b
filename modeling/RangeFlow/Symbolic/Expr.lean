import RangeFlow.Comparison.Named
import RangeFlow.Range.Checked

/-! # Symbolic integer expressions

What is known of an integer without running the program: a constant, an opaque value, an operation
with a constant, or the induction variable of a loop. Widths and constants are plain integers, and
need not agree. -/

namespace RangeFlow.Symbolic

inductive Expr
  | constant (value bits : Int)
  | unknown (name : String) (bits : Int)
  | zeroExtend (operand : Expr) (bits : Int)
  | binary (op : String) (operand : Expr) (constant bits : Int)
  /-- A value that starts as given and grows by the step each time the loop is entered anew. -/
  | recurrence (start : Expr) (step : Int) (header : String) (bits : Int)
deriving DecidableEq, Repr

namespace Expr

def bits : Expr → Int
  | .constant _ b | .unknown _ b | .zeroExtend _ b | .binary _ _ _ b | .recurrence _ _ _ b => b

def isConstant : Expr → Bool
  | .constant _ _ => true
  | _ => false

def isRecurrence : Expr → Bool
  | .recurrence _ _ _ _ => true
  | _ => false

def text : Expr → String
  | .constant v _ => toString v
  | .unknown name _ => "%" ++ name
  | .zeroExtend e b => s!"(zext i{e.bits} {e.text} to i{b})"
  | .binary op e c _ => s!"({e.text} {op} {c})"
  | .recurrence start step header _ =>
    "\x7b" ++ s!"{start.text},+,{step}" ++ "\x7d<%" ++ header ++ ">"

def isWritable : Expr → Bool
  | .constant v _ => Text.isWritable v
  | .unknown _ _ => true
  | .zeroExtend e b => Text.isWritable e.bits && e.isWritable && Text.isWritable b
  | .binary _ e c _ => e.isWritable && Text.isWritable c
  | .recurrence start step _ _ => start.isWritable && Text.isWritable step

/-- The range of an operation with a constant on the members of a range. Division and remainder by
zero, and shifts past the width, say nothing. -/
def binaryRange (op : String) (lhs rhs : Range) (constant bits : Int) : Except Fault Range :=
  match op with
  | "add" => Fault.ofRange (Range.paired Range.add lhs rhs)
  | "and" => Fault.ofRange (Range.paired Range.binaryAnd lhs rhs)
  | "urem" =>
    if constant = 0 then Fault.ofRange (Range.fullAt bits)
    else do
      let top ← Fault.ofRange (Range.extreme Range.unsignedMax lhs)
      Fault.ofRange (Range.coverAt 0 (min (constant - 1) top) bits)
  | "udiv" =>
    if constant = 0 then Fault.ofRange (Range.fullAt bits)
    else Fault.ofRange (Range.paired Range.udiv lhs rhs)
  | "lshr" =>
    if bits ≤ constant then Fault.ofRange (Range.fullAt bits)
    else Fault.ofRange (Range.paired Range.lshr lhs rhs)
  | _ => .error (.noOperator op)

/-- A range around the words the expression can stand for. -/
def range : Expr → Except Fault Range
  | .constant v b => Fault.ofRange (Range.singletonAt v b)
  | .unknown _ b => Fault.ofRange (Range.fullAt b)
  | .zeroExtend e b => do
    let r ← e.range
    Fault.ofRange (r.zeroExtendAt b)
  | .binary op e c b => do
    let lhs ← e.range
    let rhs ← Fault.ofRange (Range.singletonAt c b)
    binaryRange op lhs rhs c b
  | .recurrence _ _ _ b => Fault.ofRange (Range.fullAt b)

end Expr

/-- Whether a comparison holds of all values of two expressions, as far as their ranges tell. -/
def isKnown (comparison : String) (lhs rhs : Expr) : Except Fault Bool :=
  if lhs.bits ≠ rhs.bits then .ok false
  else if lhs = rhs then .ok ((Comparison.ofName? comparison).any Comparison.isReflexive)
  else match lhs, rhs with
    | .constant a b, .constant c _ => Comparison.holdsNamed comparison a c b
    | _, _ => do
      let l ← lhs.range
      let r ← rhs.range
      if l.isEmpty || r.isEmpty then return false
      let region ← Comparison.satisfyingNamed comparison r
      Fault.ofRange (Range.paired Range.containsRange region l)

end RangeFlow.Symbolic
