import RangeFlow.Comparison.Region
import RangeFlow.Fault

/-! # Comparisons by name -/

namespace RangeFlow

namespace Comparison

/-- The words allowed by a comparison, if the name is one. The empty range allows none whatever the
name. -/
def allowedNamed (name : String) (r : Range) : Except Fault Range :=
  if r.isEmpty then .ok r
  else match ofName? name with
    | some c => .ok (c.allowed r)
    | none => .error (.unknownComparison name)

def satisfyingNamed (name : String) (r : Range) : Except Fault Range :=
  match ofName? name with
  | some c => .ok (c.satisfying r)
  | none => .error (.unreachable name)

def holdsNamed (name : String) (a b bits : Int) : Except Fault Bool :=
  match wrapAt a bits, ofName? name with
  | .error e, _ => .error (.range e)
  | .ok _, some c => .ok (c.holds bits.toNat a b)
  | .ok _, none => .error (.unknownComparison name)

def swapNamed (name : String) : Except Fault String :=
  match ofName? name with
  | some c => .ok c.swap.name
  | none => .error (.unreachable name)

def invertNamed (name : String) : Except Fault String :=
  match ofName? name with
  | some c => .ok c.invert.name
  | none => .error (.unreachable name)

end Comparison

end RangeFlow
