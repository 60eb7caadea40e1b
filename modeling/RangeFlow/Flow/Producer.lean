import RangeFlow.Program.Basic

/-! # The instruction that produces a variable -/

namespace RangeFlow

namespace Function

/-- The instructions of a function, each with the label of its block. -/
def labelled (f : Function) : List (String × Instr) :=
  f.blocks.flatMap fun b => b.instrs.map fun i => (b.label, i)

/-- The last instruction that assigns a variable, and the label of its block. -/
def producer? (f : Function) (x : String) : Option (String × Instr) :=
  (f.labelled.filter fun (_, i) => decide (i.result? = some x)).getLast?

def definition? (f : Function) (x : String) : Option Value :=
  (f.producer? x).bind fun (_, i) => i.value?

end Function

end RangeFlow
