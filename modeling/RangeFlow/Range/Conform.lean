import RangeFlow.Fault
import RangeFlow.Log

/-! # Bringing a range to the width of another

Facts of different widths can meet under one name. The newcomer is resized, and a warning tells
so. -/

namespace RangeFlow

namespace Range

/-- The warning that `second` is resized to the width of `first`. -/
def mismatchNotice (first second : Range) : Notice :=
  { kind := .widthMismatch
    message := s!"combining i{first.width.bits} range {first.text} " ++
      s!"with i{second.width.bits} range {second.text}"
    line := none
    column := none
    hint := some s!"the i{second.width.bits} range is converted to i{first.width.bits}" }

/-- The warning that joining `second` to `first` calls for. -/
def mismatch? (first second : Range) : Option Notice :=
  if first.width = second.width then none else some (mismatchNotice first second)

/-- The second range at the width of the first. -/
def conform (first second : Range) : Range :=
  if first.width = second.width then second else second.resize first.width

/-- A stored range joined with another one, at the width of the stored one if there is any. -/
def joinInto (stored : Option Range) (r : Range) : Range :=
  match stored with
  | some old => old.union (old.conform r)
  | none => r

@[simp] theorem width_conform (first second : Range) :
    (first.conform second).width = first.width := by
  unfold conform
  split <;> simp_all

end Range

/-- Records the warning about a difference in width, if there is one. -/
def Log.compare (log : Log) (first second : Range) : Except Fault Log :=
  match first.mismatch? second with
  | some n =>
    if first.isWritable && second.isWritable then (log.warn n).mapError .notice
    else .error .unwritable
  | none => .ok log

/-- Records the warning that joining a range to a stored one calls for; an empty range joins
nothing. -/
def Log.noteJoin (log : Log) (stored : Option Range) (r : Range) : Except Fault Log :=
  match stored with
  | some old => if r.isEmpty then .ok log else log.compare old r
  | none => .ok log

end RangeFlow
