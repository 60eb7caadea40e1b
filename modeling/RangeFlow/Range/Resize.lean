import RangeFlow.Range.Basic

/-! # Ranges at another width -/

namespace RangeFlow

namespace Range

/-- The members as words of a width that is no smaller. A range that wraps becomes every word of
the old width, unless it ends exactly at the old greatest word. -/
def zeroExtend (r : Range) (v : Width) : Range :=
  if v = r.width then r
  else if r.isEmpty then empty v
  else if r.isFull || (r.isWrapped && r.upper != 0) then cover v 0 r.width.mask
  else if r.isWrapped then cover v r.lower r.width.mask
  else ofBounds v r.lower r.upper

/-- The signed values of the members as words of a width that is no smaller. -/
def signExtend (r : Range) (v : Width) : Range :=
  if v = r.width then r
  else if r.isEmpty then empty v
  else cover v r.signedMin r.signedMax

/-- The members reduced to a width that is no greater. -/
def truncate (r : Range) (v : Width) : Range :=
  if v = r.width then r
  else if r.isEmpty then empty v
  else if v.card ≤ r.size then full v
  else cover v r.lower ((r.lower : Int) + r.size - 1)

/-- The range at any width: extended by zeros or truncated. -/
def resize (r : Range) (v : Width) : Range :=
  if r.width.bits < v.bits then r.zeroExtend v else r.truncate v

@[simp] theorem width_zeroExtend (r : Range) (v : Width) : (r.zeroExtend v).width = v := by
  unfold zeroExtend
  repeat' split
  all_goals simp_all

@[simp] theorem width_signExtend (r : Range) (v : Width) : (r.signExtend v).width = v := by
  unfold signExtend
  repeat' split
  all_goals simp_all

@[simp] theorem width_truncate (r : Range) (v : Width) : (r.truncate v).width = v := by
  unfold truncate
  repeat' split
  all_goals simp_all

@[simp] theorem width_resize (r : Range) (v : Width) : (r.resize v).width = v := by
  unfold resize
  split <;> simp

end Range

end RangeFlow
