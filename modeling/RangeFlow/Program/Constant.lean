import RangeFlow.Text.Integer

/-! # Initial values of global variables -/

namespace RangeFlow

inductive Constant
  | int (value : Int)
  | symbol (name : String)
  /-- The zero of any type. -/
  | zero
  | struct (elements : List Constant)
  | array (elements : List Constant)
deriving Repr

namespace Constant

mutual

def beq : Constant → Constant → Bool
  | .int v, .int w => v == w
  | .symbol m, .symbol n => m == n
  | .zero, .zero => true
  | .struct cs, .struct ds => beqList cs ds
  | .array cs, .array ds => beqList cs ds
  | _, _ => false

def beqList : List Constant → List Constant → Bool
  | [], [] => true
  | c :: cs, d :: ds => beq c d && beqList cs ds
  | _, _ => false

end

mutual

/-- The comparison of constants decides equality. -/
theorem beq_iff : (c d : Constant) → (beq c d = true ↔ c = d)
  | .int v, d => by cases d <;> simp [beq]
  | .symbol m, d => by cases d <;> simp [beq]
  | .zero, d => by cases d <;> simp [beq]
  | .struct cs, d => by cases d <;> simp [beq, beqList_iff cs]
  | .array cs, d => by cases d <;> simp [beq, beqList_iff cs]

theorem beqList_iff : (cs ds : List Constant) → (beqList cs ds = true ↔ cs = ds)
  | [], ds => by cases ds <;> simp [beqList]
  | c :: cs, ds => by cases ds <;> simp [beqList, beq_iff c, beqList_iff cs]

end

instance : DecidableEq Constant := fun c d => decidable_of_iff (beq c d = true) (beq_iff c d)

mutual

def text : Constant → String
  | .int v => toString v
  | .symbol name => "@" ++ name
  | .zero => "zeroinitializer"
  | .struct elements => "\x7b " ++ ", ".intercalate (texts elements) ++ " \x7d"
  | .array elements => "[" ++ ", ".intercalate (texts elements) ++ "]"

def texts : List Constant → List String
  | [] => []
  | c :: cs => text c :: texts cs

end

mutual

def isWritable : Constant → Bool
  | .int v => Text.isWritable v
  | .struct elements | .array elements => areWritable elements
  | .symbol _ | .zero => true

def areWritable : List Constant → Bool
  | [] => true
  | c :: cs => isWritable c && areWritable cs

end

mutual

/-- The symbols named anywhere in a constant, from left to right. -/
def symbols : Constant → List String
  | .symbol name => [name]
  | .struct elements | .array elements => symbolsIn elements
  | .int _ | .zero => []

def symbolsIn : List Constant → List String
  | [] => []
  | c :: cs => symbols c ++ symbolsIn cs

end

end Constant

end RangeFlow
