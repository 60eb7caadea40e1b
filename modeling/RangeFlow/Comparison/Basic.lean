import RangeFlow.Width

/-! # Integer comparisons

The ten ways to compare two words: for equality, and by the unsigned and the signed order. -/

namespace RangeFlow

inductive Comparison
  | eq | ne | ult | ule | ugt | uge | slt | sle | sgt | sge
deriving DecidableEq, Repr

namespace Comparison

def all : List Comparison := [.eq, .ne, .ult, .ule, .ugt, .uge, .slt, .sle, .sgt, .sge]

def name : Comparison → String
  | .eq => "eq"
  | .ne => "ne"
  | .ult => "ult"
  | .ule => "ule"
  | .ugt => "ugt"
  | .uge => "uge"
  | .slt => "slt"
  | .sle => "sle"
  | .sgt => "sgt"
  | .sge => "sge"

def ofName? (s : String) : Option Comparison := all.find? fun c => c.name == s

/-- The comparison that holds of `(b, a)` when this one holds of `(a, b)`. -/
def swap : Comparison → Comparison
  | .eq => .eq
  | .ne => .ne
  | .ult => .ugt
  | .ule => .uge
  | .ugt => .ult
  | .uge => .ule
  | .slt => .sgt
  | .sle => .sge
  | .sgt => .slt
  | .sge => .sle

/-- The comparison that holds exactly where this one does not. -/
def invert : Comparison → Comparison
  | .eq => .ne
  | .ne => .eq
  | .ult => .uge
  | .ule => .ugt
  | .ugt => .ule
  | .uge => .ult
  | .slt => .sge
  | .sle => .sgt
  | .sgt => .sle
  | .sge => .slt

/-- Whether the comparison holds of the words of two integers. -/
def holds (c : Comparison) (bits : Nat) (a b : Int) : Bool :=
  let x := reduce bits a
  let y := reduce bits b
  let sx := toSigned bits x
  let sy := toSigned bits y
  match c with
  | .eq => x == y
  | .ne => x != y
  | .ult => x < y
  | .ule => x ≤ y
  | .ugt => y < x
  | .uge => y ≤ x
  | .slt => sx < sy
  | .sle => sx ≤ sy
  | .sgt => sy < sx
  | .sge => sy ≤ sx

/-- Whether the comparison holds of every word and itself. -/
def isReflexive : Comparison → Bool
  | .eq | .ule | .uge | .sle | .sge => true
  | _ => false

@[simp] theorem swap_swap (c : Comparison) : c.swap.swap = c := by cases c <;> rfl

@[simp] theorem invert_invert (c : Comparison) : c.invert.invert = c := by cases c <;> rfl

theorem ofName?_name (c : Comparison) : ofName? c.name = some c := by cases c <;> decide

end Comparison

end RangeFlow
