import RangeFlow.Comparison.Region
import RangeFlow.Range.Avoid
import RangeFlow.Sweep.State

/-! # Facts that hold on an edge

A block that ends with a branch on a comparison, or with a switch, tells something about its
condition on each of its edges. These facts stand in for those of the block on that edge only. -/

namespace RangeFlow

namespace Comparison

/-- What two operands are known to hold if a comparison of them is true. The ranges have one
width. -/
def refine (c : Comparison) (a b : Operand) (lhs rhs : Range) : Facts :=
  let left : Facts :=
    match a with
    | .var x _ => .ofList [(.var x, lhs.intersect (c.allowed rhs))]
    | _ => ∅
  match b with
  | .var y (.int w) => left.insert (.var y) ((rhs.intersect (c.swap.allowed lhs)).resize w)
  | _ => left

end Comparison

/-- The values of a condition for which a switch goes to a block: those of its cases for the
block, and if it is the default, all that are not cases for another block. -/
def switchRegion (w : Width) (default : String) (cases : List SwitchCase) (label : String) :
    Range :=
  let own := (cases.filter fun k => k.label == label).foldl
    (fun (r : Range) k => r.union (.singleton w k.value)) (.empty w)
  let others := (cases.filter fun k => k.label != label).map fun k => (w.wrap k.value : Int)
  if default = label then own.union (.avoid w others) else own

namespace Sweep

/-- The facts on an edge that leaves a branch on a condition. If both targets are the same block,
the condition counts as true. -/
def branchFacts (e : Env) (f : Function) (label : String) (cond : Operand)
    (ifTrue target : String) : SweepM Facts := do
  match cond.var?.bind f.definition? with
  | some (.compare c _ a b) =>
    if a.ty.isInt && b.ty.isInt then
      let lhs ← rangeOf e f label a
      let rhs ← conformed lhs (← rangeOf e f label b)
      let c := if target = ifTrue then c else c.invert
      return c.refine a b lhs rhs
    else return ∅
  | _ => return ∅

/-- The fact on an edge that leaves a switch. -/
def switchFacts (e : Env) (f : Function) (label : String) (cond : Operand) (default : String)
    (cases : List SwitchCase) (target : String) : SweepM Facts := do
  match cond with
  | .var x (.int w) =>
    let w ← counted w
    let r ← rangeOf e f label cond
    let region := switchRegion w default cases target
    let r ← ofExcept (Fault.ofRange (Range.paired Range.intersect r region))
    return .ofList [(.var x, r)]
  | _ => return ∅

/-- The facts that hold on the edge from a block to another one. -/
def edgeFacts (e : Env) (f : Function) (source : Block) (target : String) : SweepM Facts :=
  match source.terminator? with
  | some (.jnz cond ifTrue _) => branchFacts e f source.label cond ifTrue target
  | some (.switch _ cond default cases) =>
    switchFacts e f source.label cond default cases target
  | _ => return ∅

end Sweep

end RangeFlow
