import RangeFlow.Text.Integer
import RangeFlow.Width

/-! # Types of values

Integers carry ranges; all other types are opaque to the analysis. A struct type is either named,
with its fields listed in the program, or literal. Two types are equal when they are written
alike: named structs by their name, literal structs by their fields. -/

namespace RangeFlow

inductive Ty
  | int (width : Width)
  | ptr
  | void
  | array (count : Int) (element : Ty)
  | named (name : String)
  | literal (fields : List Ty)
deriving Repr

namespace Ty

mutual

def beq : Ty → Ty → Bool
  | .int v, .int w => decide (v = w)
  | .ptr, .ptr => true
  | .void, .void => true
  | .array m s, .array n t => m == n && beq s t
  | .named m, .named n => m == n
  | .literal fs, .literal gs => beqList fs gs
  | _, _ => false

def beqList : List Ty → List Ty → Bool
  | [], [] => true
  | s :: ss, t :: ts => beq s t && beqList ss ts
  | _, _ => false

end

mutual

/-- The comparison of types decides equality. -/
theorem beq_iff : (s t : Ty) → (beq s t = true ↔ s = t)
  | .int v, t => by cases t <;> simp [beq]
  | .ptr, t => by cases t <;> simp [beq]
  | .void, t => by cases t <;> simp [beq]
  | .array m s, t => by cases t <;> simp [beq, beq_iff s]
  | .named m, t => by cases t <;> simp [beq]
  | .literal fs, t => by cases t <;> simp [beq, beqList_iff fs]

theorem beqList_iff : (ss ts : List Ty) → (beqList ss ts = true ↔ ss = ts)
  | [], ts => by cases ts <;> simp [beqList]
  | s :: ss, ts => by cases ts <;> simp [beqList, beq_iff s, beqList_iff ss]

end

instance : DecidableEq Ty := fun s t => decidable_of_iff (beq s t = true) (beq_iff s t)

def i1 : Ty := .int .one

def width? : Ty → Option Width
  | .int w => some w
  | _ => none

def isInt (t : Ty) : Bool := t.width?.isSome

def isStruct : Ty → Bool
  | .named _ | .literal _ => true
  | _ => false

mutual

def text : Ty → String
  | .int w => s!"i{w.bits}"
  | .ptr => "ptr"
  | .void => "void"
  | .array count element => s!"[{count} x {text element}]"
  | .named name => "%" ++ name
  | .literal fields => "\x7b " ++ ", ".intercalate (texts fields) ++ " \x7d"

def texts : List Ty → List String
  | [] => []
  | t :: ts => text t :: texts ts

end

mutual

def isWritable : Ty → Bool
  | .int w => Text.isWritable w.bits
  | .array count element => Text.isWritable count && isWritable element
  | .literal fields => areWritable fields
  | .ptr | .void | .named _ => true

def areWritable : List Ty → Bool
  | [] => true
  | t :: ts => isWritable t && areWritable ts

end

def bodyText (fields : List Ty) : String := text (.literal fields)

end Ty

/-- Whether a struct name is one that compilers give to records without a name. -/
def isAnonymousName (name : String) : Bool :=
  name == "struct.anon" || name.startsWith "struct.anon."

end RangeFlow
