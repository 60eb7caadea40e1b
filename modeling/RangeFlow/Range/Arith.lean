import RangeFlow.Range.Basic

/-! # Arithmetic on ranges

Each operation gives a range that holds the result of the machine operation on any members of its
operands. The operands are meant to have one width; an empty operand gives the empty range. -/

namespace RangeFlow

/-- The number of binary digits of `n`, none for zero. -/
def bitLength (n : Nat) : Nat := if n = 0 then 0 else n.log2 + 1

/-- The word `x` moved right by `s` places; nothing is left of a word of `w` bits after `w`. -/
def shiftRight (w : Width) (x s : Nat) : Nat := if w.bits ≤ s then 0 else x >>> s

namespace Range

/-- The sums of members. The sums of `m` and `n` neighbours are `m + n - 1` neighbours. -/
def add (a b : Range) : Range :=
  if a.isEmpty || b.isEmpty then empty a.width
  else if a.isFull || b.isFull then full a.width
  else
    let start : Int := a.lower + b.lower
    cover a.width start (start + (a.size + b.size - 1) - 1)

/-- The differences of members. -/
def sub (a b : Range) : Range :=
  if a.isEmpty || b.isEmpty then empty a.width
  else if a.isFull || b.isFull then full a.width
  else
    let start : Int := a.lower - (b.lower + b.size - 1)
    cover a.width start (start + (a.size + b.size - 1) - 1)

def multiply (a b : Range) : Range :=
  if a.isEmpty || b.isEmpty then empty a.width
  else cover a.width (a.unsignedMin * b.unsignedMin : Nat) (a.unsignedMax * b.unsignedMax : Nat)

/-- The least member other than zero of a range that has one. -/
def leastDivisor (r : Range) : Nat :=
  if r.unsignedMin = 0 then (if r.upper = 1 then r.lower else 1) else r.unsignedMin

/-- The quotients by members other than zero. -/
def udiv (a b : Range) : Range :=
  if a.isEmpty || b.isEmpty || b.unsignedMax == 0 then empty a.width
  else cover a.width (a.unsignedMin / b.unsignedMax : Nat) (a.unsignedMax / b.leastDivisor : Nat)

/-- The members moved left; every word as soon as the greatest member could lose a digit. -/
def shl (a b : Range) : Range :=
  if a.isEmpty || b.isEmpty then empty a.width
  else if a.width.bits - bitLength a.unsignedMax ≤ b.unsignedMax then full a.width
  else cover a.width (a.unsignedMin <<< b.unsignedMin : Nat) (a.unsignedMax <<< b.unsignedMax : Nat)

def lshr (a b : Range) : Range :=
  if a.isEmpty || b.isEmpty then empty a.width
  else cover a.width (shiftRight a.width a.unsignedMin b.unsignedMax)
    (shiftRight a.width a.unsignedMax b.unsignedMin)

/-- Bitwise conjunction: no more than the smaller greatest member. -/
def binaryAnd (a b : Range) : Range :=
  if a.isEmpty || b.isEmpty then empty a.width
  else cover a.width 0 (min a.unsignedMax b.unsignedMax : Nat)

/-- Bitwise disjunction: no less than the greater least member. -/
def binaryOr (a b : Range) : Range :=
  if a.isEmpty || b.isEmpty then empty a.width
  else cover a.width (max a.unsignedMin b.unsignedMin : Nat) a.width.mask

@[simp] theorem width_add (a b : Range) : (a.add b).width = a.width := by
  unfold add
  dsimp only
  repeat' split
  all_goals simp

@[simp] theorem width_sub (a b : Range) : (a.sub b).width = a.width := by
  unfold sub
  dsimp only
  repeat' split
  all_goals simp

@[simp] theorem width_multiply (a b : Range) : (a.multiply b).width = a.width := by
  unfold multiply
  split <;> simp

@[simp] theorem width_udiv (a b : Range) : (a.udiv b).width = a.width := by
  unfold udiv
  split <;> simp

@[simp] theorem width_shl (a b : Range) : (a.shl b).width = a.width := by
  unfold shl
  repeat' split
  all_goals simp

@[simp] theorem width_lshr (a b : Range) : (a.lshr b).width = a.width := by
  unfold lshr
  split <;> simp

@[simp] theorem width_binaryAnd (a b : Range) : (a.binaryAnd b).width = a.width := by
  unfold binaryAnd
  split <;> simp

@[simp] theorem width_binaryOr (a b : Range) : (a.binaryOr b).width = a.width := by
  unfold binaryOr
  split <;> simp

end Range

end RangeFlow
