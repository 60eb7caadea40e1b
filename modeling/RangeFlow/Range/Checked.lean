import RangeFlow.Range.Arith
import RangeFlow.Range.Lattice
import RangeFlow.Range.Resize

/-! # Ranges from unchecked numbers

The operations of a range with their preconditions tested: widths and bounds are arbitrary
integers here, and operands may disagree in width. -/

namespace RangeFlow

/-- Why an operation on ranges is refused. -/
inductive RangeError
  /-- The width is not positive, or the bounds belong to no range of it. -/
  | invalid
  /-- A power of two with a negative exponent was asked for. -/
  | negativeWidth
  /-- A power of two has more bits than a number can have. -/
  | tooWide
  /-- A power of two has more bits than can be stored. -/
  | tooLarge
  /-- The greatest integer to cover is below the least. -/
  | reversed
  /-- The operands have different widths. -/
  | widthsDiffer
  /-- The empty range has neither a least nor a greatest member. -/
  | noMember
  /-- An extension to fewer bits, or a truncation to more. -/
  | badTarget
  /-- A range is given by exactly three numbers. -/
  | arity
deriving DecidableEq, Repr

def Width.ofInt? (bits : Int) : Option Width :=
  if h : 0 < bits.toNat then some ⟨bits.toNat, h⟩ else none

/-- Whether the words of so many bits can be counted. -/
def countable (bits : Nat) : Except RangeError Unit :=
  if 69175290276410818320 < bits then .error .tooWide
  else if 4294967296 ≤ bits then .error .tooLarge
  else .ok ()

/-- The width, if its words can be counted. -/
def Width.counted (w : Width) : Except RangeError Width := (countable w.bits).map fun _ => w

def wrapAt (v bits : Int) : Except RangeError Nat :=
  if bits < 0 then .error .negativeWidth
  else (countable bits.toNat).map fun _ => reduce bits.toNat v

namespace Range

/-- A width whose number of words has to be computed. -/
def cardWidth (bits : Int) : Except RangeError Width :=
  if bits < 0 then .error .negativeWidth
  else match Width.ofInt? bits with
    | some w => w.counted
    | none => .error .invalid

def make (bits lower upper : Int) : Except RangeError Range :=
  match (Width.ofInt? bits).map Width.counted with
  | none => .error .invalid
  | some (.error e) => .error e
  | some (.ok w) =>
    if h : (0 ≤ lower ∧ lower.toNat < w.card) ∧ (0 ≤ upper ∧ upper.toNat < w.card) ∧
        (lower.toNat = upper.toNat → lower.toNat = 0 ∨ lower.toNat = w.mask) then
      .ok ⟨w, lower.toNat, upper.toNat, h.1.2, h.2.1.2, h.2.2⟩
    else .error .invalid

def ofNumbers : List Int → Except RangeError Range
  | [bits, lower, upper] => make bits lower upper
  | _ => .error .arity

def fullAt (bits : Int) : Except RangeError Range := (cardWidth bits).map full

def emptyAt (bits : Int) : Except RangeError Range := make bits 0 0

def singletonAt (v bits : Int) : Except RangeError Range := (cardWidth bits).map (singleton · v)

def ofBoundsAt (lower upper bits : Int) : Except RangeError Range :=
  (cardWidth bits).map (ofBounds · lower upper)

def coverAt (lo hi bits : Int) : Except RangeError Range :=
  if hi < lo then .error .reversed else (cardWidth bits).map (cover · lo hi)

/-- An operation on two ranges that have to agree in width. -/
def paired {α : Type} (op : Range → Range → α) (a b : Range) : Except RangeError α :=
  if a.width = b.width then .ok (op a b) else .error .widthsDiffer

/-- A bound of the members, which the empty range has not. -/
def extreme {α : Type} (bound : Range → α) (r : Range) : Except RangeError α :=
  if r.isEmpty then .error .noMember else .ok (bound r)

def zeroExtendAt (r : Range) (bits : Int) : Except RangeError Range :=
  if bits < r.width.bits then .error .badTarget
  else (cardWidth bits).map r.zeroExtend

def signExtendAt (r : Range) (bits : Int) : Except RangeError Range :=
  if bits < r.width.bits then .error .badTarget
  else (cardWidth bits).map r.signExtend

def truncateAt (r : Range) (bits : Int) : Except RangeError Range :=
  if r.width.bits < bits then .error .badTarget
  else if r.isEmpty then emptyAt bits
  else (cardWidth bits).map r.truncate

def resizeAt (r : Range) (bits : Int) : Except RangeError Range :=
  if r.width.bits < bits then r.zeroExtendAt bits else r.truncateAt bits

/-- At one width the check of the widths changes nothing. -/
theorem paired_of_width_eq {α : Type} (op : Range → Range → α) {a b : Range}
    (h : a.width = b.width) : paired op a b = .ok (op a b) := by
  simp [paired, h]

end Range

end RangeFlow
