import RangeFlow.Comparison.Basic
import RangeFlow.Range.Lattice

/-! # The words for which a comparison can or must hold

`c.allowed r` holds the words that stand in relation `c` to some member of `r`, and `c.satisfying
r` the words that do so to every member. -/

namespace RangeFlow

namespace Comparison

/-- A smallest range around the words `x` with `x c y` for some `y` in the range. -/
def allowed (c : Comparison) (r : Range) : Range :=
  let w := r.width
  if r.isEmpty then r
  else match c with
    | .eq => r
    | .ne => if r.isConstant then r.inverse else .full w
    | .ult => if r.unsignedMax = 0 then .empty w else .ofBounds w 0 r.unsignedMax
    | .ule => .ofBounds w 0 (r.unsignedMax + 1)
    | .ugt => if r.unsignedMin = w.mask then .empty w else .ofBounds w (r.unsignedMin + 1) 0
    | .uge => .ofBounds w r.unsignedMin 0
    | .slt => if r.signedMax = -w.half then .empty w else .ofBounds w (-w.half) r.signedMax
    | .sle => .ofBounds w (-w.half) (r.signedMax + 1)
    | .sgt => if r.signedMin = w.half - 1 then .empty w else .ofBounds w (r.signedMin + 1) (-w.half)
    | .sge => .ofBounds w r.signedMin (-w.half)

/-- A largest range of words `x` with `x c y` for every `y` in the range. -/
def satisfying (c : Comparison) (r : Range) : Range := (c.invert.allowed r).inverse

@[simp] theorem width_allowed (c : Comparison) (r : Range) : (c.allowed r).width = r.width := by
  unfold allowed
  dsimp only
  repeat' split
  all_goals simp

@[simp] theorem width_satisfying (c : Comparison) (r : Range) :
    (c.satisfying r).width = r.width := by
  simp [satisfying]

end Comparison

end RangeFlow
