import RangeFlow.Notice
import RangeFlow.Range.Checked

/-! # Faults of an analysis -/

namespace RangeFlow

/-- Why an analysis cannot answer. Programs that pass the check meet few of these. -/
inductive Fault
  | range (error : RangeError)
  | notice (notice : Notice)
  /-- A label names no block of the function. -/
  | missingLabel (label : String)
  /-- A function or a global is asked for without a name. -/
  | emptyName
  /-- A block does not end with a terminator. -/
  | unterminated (label : String)
  /-- A function without blocks has no entry. -/
  | noEntry (function : String)
  /-- An operand or a result that should be an integer is none. -/
  | notInteger
  /-- A field is taken from a type that is no struct type. -/
  | notStruct
  /-- An analysis was asked again after it had failed. -/
  | incomplete
  /-- A program has no function. -/
  | noFunction
  /-- A function has no call with this number. -/
  | noCall (index : Int)
  /-- No range is known for results of this operator. -/
  | noOperator (name : String)
  /-- An address, or a type, leads back to itself. -/
  | endless
  /-- A number with too many decimal digits would have to be written. -/
  | unwritable
deriving DecidableEq, Repr

namespace Fault

def unknownFunction (name : String) : Fault :=
  .notice (.plain .unknownSymbol s!"Function {name} not found in context")

def unknownComparison (name : String) : Fault :=
  .notice (.plain .unexpected s!"unknown comparison {name}")

def unreachable (name : String) : Fault :=
  .notice (.plain .unexpected s!"unreachable {name}")

/-- The outcome of an operation on ranges as part of an analysis. -/
def ofRange {α : Type} : Except RangeError α → Except Fault α
  | .ok a => .ok a
  | .error e => .error (.range e)

end Fault

end RangeFlow
