import RangeFlow.Range.Basic

/-! # Inclusion, complement, union and intersection of ranges

The union of two ranges need not be a range, and neither need their intersection: `union` and
`intersect` give a smallest range around it. Both are meant for ranges of one width. -/

namespace RangeFlow

namespace Range

/-- Whether every member of `b` is a member of `a`. -/
def containsRange (a b : Range) : Bool :=
  if a.isFull || b.isEmpty then true
  else if a.isEmpty || b.isFull then false
  else match a.isWrapped, b.isWrapped with
    | false, true => false
    | true, false => b.upper ≤ a.upper || a.lower ≤ b.lower
    | _, _ => a.lower ≤ b.lower && b.upper ≤ a.upper

/-- The words that are not members. -/
def inverse (r : Range) : Range :=
  if r.isFull then empty r.width
  else if r.isEmpty then full r.width
  else ofBounds r.width r.upper r.lower

/-- The union of two ranges that do not wrap. Between disjoint ranges the smaller gap is bridged. -/
def unionPlain (a b : Range) : Range :=
  let w := a.width
  if b.upper < a.lower || a.upper < b.lower then
    if w.wrap ((b.lower : Int) - a.upper) < w.wrap ((a.lower : Int) - b.upper) then
      ofBounds w a.lower b.upper
    else ofBounds w b.lower a.upper
  else ofBounds w (min a.lower b.lower) (max a.upper b.upper)

/-- The union of a range that wraps with one that does not. -/
def unionMixed (a b : Range) : Range :=
  let w := a.width
  if b.upper ≤ a.upper || a.lower ≤ b.lower then a
  else if b.lower ≤ a.upper && a.lower ≤ b.upper then full w
  else if b.lower ≤ a.upper then ofBounds w a.lower b.upper
  else if a.lower ≤ b.upper then ofBounds w b.lower a.upper
  else if b.lower - a.upper < a.lower - b.upper then ofBounds w a.lower b.upper
  else ofBounds w b.lower a.upper

def unionWrapped (a b : Range) : Range :=
  if min a.lower b.lower ≤ max a.upper b.upper then full a.width
  else ofBounds a.width (min a.lower b.lower) (max a.upper b.upper)

/-- A smallest range that holds the members of both. -/
def union (a b : Range) : Range :=
  if a.isFull || b.isEmpty then a
  else if b.isFull || a.isEmpty then b
  else match a.isWrapped, b.isWrapped with
    | false, false => unionPlain a b
    | true, false => unionMixed a b
    | false, true => unionMixed b a
    | true, true => unionWrapped a b

/-- The smaller of two ranges, the second one on a tie. -/
def smaller (a b : Range) : Range := if a.size < b.size then a else b

/-- The intersection of two ranges that do not wrap. -/
def intersectPlain (a b : Range) : Range :=
  if max a.lower b.lower < min a.upper b.upper then
    ofBounds a.width (max a.lower b.lower) (min a.upper b.upper)
  else empty a.width

/-- The intersection of a range that wraps with one that does not. If `b` meets both ends of `a`,
the common words are two pieces and the smaller operand stands for them. -/
def intersectMixed (a b : Range) : Range :=
  match decide (b.lower < a.upper), decide (a.lower < b.upper) with
  | true, true => smaller a b
  | true, false => ofBounds a.width b.lower (min b.upper a.upper)
  | false, true => ofBounds a.width (max b.lower a.lower) b.upper
  | false, false => empty a.width

/-- The intersection of two ranges that wrap; they always share the words next to the greatest
one. -/
def intersectWrapped (a b : Range) : Range :=
  if b.lower < a.upper || a.lower < b.upper then smaller a b
  else ofBounds a.width (max a.lower b.lower) (min a.upper b.upper)

/-- A smallest range that holds the common members. -/
def intersect (a b : Range) : Range :=
  if a.isEmpty || b.isFull then a
  else if b.isEmpty || a.isFull then b
  else match a.isWrapped, b.isWrapped with
    | false, false => intersectPlain a b
    | true, false => intersectMixed a b
    | false, true => intersectMixed b a
    | true, true => intersectWrapped a b

@[simp] theorem width_inverse (r : Range) : r.inverse.width = r.width := by
  unfold inverse
  split
  · rfl
  · split <;> simp

theorem width_unionPlain (a b : Range) : (unionPlain a b).width = a.width := by
  unfold unionPlain
  dsimp only
  repeat' split
  all_goals simp

theorem width_unionMixed (a b : Range) : (unionMixed a b).width = a.width := by
  unfold unionMixed
  dsimp only
  repeat' split
  all_goals simp

theorem width_unionWrapped (a b : Range) : (unionWrapped a b).width = a.width := by
  unfold unionWrapped
  split <;> simp

/-- Ranges of one width have a union of that width. -/
theorem width_union {a b : Range} (h : a.width = b.width) : (a.union b).width = a.width := by
  unfold union
  repeat' split
  · rfl
  · exact h.symm
  · exact width_unionPlain a b
  · exact width_unionMixed a b
  · exact (width_unionMixed b a).trans h.symm
  · exact width_unionWrapped a b

/-- Of two ranges at one width the smaller one has it too. -/
theorem width_smaller {a b : Range} (h : a.width = b.width) : (smaller a b).width = a.width := by
  unfold smaller
  split
  · rfl
  · exact h.symm

theorem width_intersectPlain (a b : Range) : (intersectPlain a b).width = a.width := by
  unfold intersectPlain
  split <;> simp

theorem width_intersectMixed {a b : Range} (h : a.width = b.width) :
    (intersectMixed a b).width = a.width := by
  unfold intersectMixed
  split
  · exact width_smaller h
  all_goals simp

theorem width_intersectWrapped {a b : Range} (h : a.width = b.width) :
    (intersectWrapped a b).width = a.width := by
  unfold intersectWrapped
  split
  · exact width_smaller h
  · simp

/-- Ranges of one width have an intersection of that width. -/
theorem width_intersect {a b : Range} (h : a.width = b.width) :
    (a.intersect b).width = a.width := by
  unfold intersect
  repeat' split
  · rfl
  · exact h.symm
  · exact width_intersectPlain a b
  · exact width_intersectMixed h
  · exact (width_intersectMixed h.symm).trans h.symm
  · exact width_intersectWrapped h

end Range

end RangeFlow
