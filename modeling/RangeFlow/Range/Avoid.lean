import RangeFlow.Range.Checked

/-! # The range that avoids given words

The words outside a list are covered by the complement of one run of neighbours in the list; the
longest run gives a smallest cover. -/

namespace RangeFlow

namespace Range

/-- The maximal runs of neighbours in an ascending list, each by its first and its last element. -/
def runs : List Int → List (Int × Int)
  | [] => []
  | v :: rest =>
    match runs rest with
    | [] => [(v, v)]
    | (s, e) :: more => if s = v + 1 then (v, e) :: more else (v, v) :: (s, e) :: more

/-- Joins a last run that ends at the greatest word to a first run that starts at zero. -/
def joinEnds (mask : Int) : List (Int × Int) → List (Int × Int)
  | [] => []
  | (s, e) :: more =>
    match more.getLast? with
    | some (s', e') =>
      if e' = mask ∧ s = 0 then (s', e) :: more.dropLast else (s, e) :: more
    | none => [(s, e)]

/-- The first of the longest runs, counted around the circle of words. -/
def longestRun (card : Int) (first : Int × Int) : List (Int × Int) → Int × Int
  | [] => first
  | run :: more =>
    if (first.2 - first.1) % card < (run.2 - run.1) % card then longestRun card run more
    else longestRun card first more

/-- The elements in ascending order, each once. -/
def ascending (values : List Int) : List Int := (values.mergeSort (· ≤ ·)).eraseDups

/-- A smallest range around the words that are not listed. -/
def avoid (w : Width) (values : List Int) : Range :=
  let sorted := ascending values
  if sorted.length = w.card then empty w
  else match joinEnds w.mask (runs sorted) with
    | [] => full w
    | run :: more =>
      let (lo, hi) := longestRun w.card run more
      ofBounds w (hi + 1) lo

def avoidAt (values : List Int) (bits : Int) : Except RangeError Range :=
  (cardWidth bits).map (avoid · values)

@[simp] theorem width_avoid (w : Width) (values : List Int) : (avoid w values).width = w := by
  unfold avoid
  dsimp only
  repeat' split
  all_goals simp

end Range

end RangeFlow
