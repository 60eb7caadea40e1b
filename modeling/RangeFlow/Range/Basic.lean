import RangeFlow.Text.Integer
import RangeFlow.Width

/-! # Ranges of machine words

A range is a half-open interval `[lower, upper)` of words of one width that wraps past the
greatest word when `upper < lower`. Equal bounds stand for one of two sets: `(0, 0)` is empty, and
the greatest word twice is full. The view of a range is its set of members, `x ∈ r`. -/

namespace RangeFlow

structure Range where
  width : Width
  lower : Nat
  upper : Nat
  lower_lt : lower < width.card
  upper_lt : upper < width.card
  special : lower = upper → lower = 0 ∨ lower = width.mask
deriving DecidableEq, Repr

namespace Range

/-- Every word. -/
def full (w : Width) : Range :=
  ⟨w, w.mask, w.mask, w.mask_lt_card, w.mask_lt_card, fun _ => .inr rfl⟩

/-- No word. -/
def empty (w : Width) : Range :=
  ⟨w, 0, 0, w.card_pos, w.card_pos, fun _ => .inl rfl⟩

/-- The range `[lower, upper)` modulo the number of words; bounds that coincide there give every
word. -/
def ofBounds (w : Width) (lower upper : Int) : Range :=
  if h : w.wrap lower = w.wrap upper then full w
  else ⟨w, w.wrap lower, w.wrap upper, w.wrap_lt_card lower, w.wrap_lt_card upper,
    fun e => absurd e h⟩

/-- The range that holds one word. -/
def singleton (w : Width) (v : Int) : Range := ofBounds w v (v + 1)

/-- The words of the integers from `lo` to `hi`, both included, for `lo ≤ hi`. -/
def cover (w : Width) (lo hi : Int) : Range :=
  if (w.card : Int) ≤ hi - lo + 1 then full w else ofBounds w lo (hi + 1)

def isFull (r : Range) : Bool := r.lower == r.upper && r.lower == r.width.mask

def isEmpty (r : Range) : Bool := r.lower == r.upper && r.lower == 0

/-- Whether the range goes past the greatest word, or ends there with upper bound zero. -/
def isWrapped (r : Range) : Bool := r.upper < r.lower

def isConstant (r : Range) : Bool := !r.isFull && r.width.wrap (r.lower + 1) == r.upper

def constant? (r : Range) : Option Nat := if r.isConstant then some r.lower else none

def size (r : Range) : Nat :=
  if r.isFull then r.width.card else r.width.wrap ((r.upper : Int) - r.lower)

def contains (r : Range) (v : Int) : Bool :=
  let x := r.width.wrap v
  if r.isFull then true
  else if r.isWrapped then r.lower ≤ x || x < r.upper
  else r.lower ≤ x && x < r.upper

instance : Membership Nat Range where
  mem r x := x < r.width.card ∧
    (r.isFull ∨ (r.isWrapped ∧ (r.lower ≤ x ∨ x < r.upper)) ∨ (r.lower ≤ x ∧ x < r.upper))

instance (x : Nat) (r : Range) : Decidable (x ∈ r) :=
  inferInstanceAs (Decidable (x < r.width.card ∧
    (r.isFull ∨ (r.isWrapped ∧ (r.lower ≤ x ∨ x < r.upper)) ∨ (r.lower ≤ x ∧ x < r.upper))))

/-- The least member of a range that has one. -/
def unsignedMin (r : Range) : Nat :=
  if r.isFull || (r.isWrapped && r.upper != 0) then 0 else r.lower

/-- The greatest member of a range that has one. -/
def unsignedMax (r : Range) : Nat :=
  if r.isFull || r.isWrapped then r.width.mask else r.upper - 1

/-- The range moved by half the number of words, which carries the signed order to the unsigned
one. -/
def signShift (r : Range) : Range :=
  if r.isFull || r.isEmpty then r
  else ofBounds r.width (r.lower + r.width.half) (r.upper + r.width.half)

/-- The least member in signed order of a range that has one. -/
def signedMin (r : Range) : Int := (r.signShift.unsignedMin : Int) - r.width.half

/-- The greatest member in signed order of a range that has one. -/
def signedMax (r : Range) : Int := (r.signShift.unsignedMax : Int) - r.width.half

/-- The range as a text: a keyword for the two sets with equal bounds, else the bounds. -/
def text (r : Range) : String :=
  if r.isFull then "full-set"
  else if r.isEmpty then "empty-set"
  else s!"[{r.lower},{r.upper})"

def hasWritableBounds (r : Range) : Bool := Text.isWritable r.lower && Text.isWritable r.upper

def isWritable (r : Range) : Bool := r.isFull || r.hasWritableBounds

@[simp] theorem width_full (w : Width) : (full w).width = w := rfl

@[simp] theorem width_empty (w : Width) : (empty w).width = w := rfl

@[simp] theorem width_ofBounds (w : Width) (lower upper : Int) :
    (ofBounds w lower upper).width = w := by
  unfold ofBounds
  split <;> rfl

@[simp] theorem width_singleton (w : Width) (v : Int) : (singleton w v).width = w :=
  width_ofBounds w v (v + 1)

@[simp] theorem width_cover (w : Width) (lo hi : Int) : (cover w lo hi).width = w := by
  unfold cover
  split <;> simp

@[simp] theorem width_signShift (r : Range) : r.signShift.width = r.width := by
  unfold signShift
  split <;> simp

end Range

end RangeFlow
