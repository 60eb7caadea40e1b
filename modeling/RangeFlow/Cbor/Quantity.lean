/-! # Quantities

A number that is not written as an integer is known by its exact value. It can be compared with
other numbers, and nothing else. -/

namespace RangeFlow.Cbor

inductive Quantity
  /-- A fraction with a positive denominator. -/
  | finite (num : Int) (den : Nat)
  | infinite (isNegative : Bool)
  /-- What is not a number is neither less than, nor equal to, nor greater than anything. -/
  | nan
deriving DecidableEq, Repr

namespace Quantity

def ofInt (v : Int) : Quantity := .finite v 1

def le : Quantity → Quantity → Bool
  | .nan, _ | _, .nan => false
  | .infinite true, _ | _, .infinite false => true
  | .infinite false, _ | _, .infinite true => false
  | .finite a b, .finite c d => a * d ≤ c * b

def lt (p q : Quantity) : Bool := p.le q && !q.le p

/-- Equality of the values. -/
def same (p q : Quantity) : Bool := p.le q && q.le p

def int? : Quantity → Option Int
  | .finite num den => if num % den = 0 then some (num / den) else none
  | .infinite _ | .nan => none

/-- Exponents beyond this are as good as infinite: the value is larger than any other, or closer to
zero. -/
def exponentLimit : Int := 100000

/-- The number `m` times a power of a base. -/
def scaled (m : Int) (base : Nat) (e : Int) : Quantity :=
  if m = 0 then .ofInt 0
  else if exponentLimit < e then .infinite (m < 0)
  else if e < -exponentLimit then .finite m.sign 2
  else if 0 ≤ e then .ofInt (m * Nat.pow base e.toNat)
  else .finite m (Nat.pow base (-e).toNat)

/-- The number of a sign bit, an exponent and a fraction of so many bits. -/
def ofBits (expBits fracBits bits : Nat) : Quantity :=
  let fraction := bits % Nat.pow 2 fracBits
  let exponent := bits / Nat.pow 2 fracBits % Nat.pow 2 expBits
  let isNegative := bits / Nat.pow 2 (fracBits + expBits) % 2 = 1
  if exponent = Nat.pow 2 expBits - 1 then
    if fraction = 0 then .infinite isNegative else .nan
  else
    let m : Nat := if exponent = 0 then fraction else fraction + Nat.pow 2 fracBits
    let bias : Int := Nat.pow 2 (expBits - 1) - 1
    let e : Int := (max exponent 1 : Nat) - bias - fracBits
    scaled (if isNegative then -m else m) 2 e

def ofRatio? (num den : Int) : Option Quantity :=
  if den = 0 then none
  else some (.finite (if den < 0 then -num else num) den.natAbs)

end Quantity

end RangeFlow.Cbor
