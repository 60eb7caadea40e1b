import RangeFlow.Cbor.Date
import RangeFlow.Cbor.Writer

/-! # Tagged items

A tag says what an item stands for. The values of numbers are needed; of all others only whether
the item can be what the tag says, and into how many parts the value falls. -/

namespace RangeFlow.Cbor

/-- Why bytes are not an item. -/
inductive ReadError
  /-- The bytes end within the item. -/
  | ended
  /-- A head that stands for nothing, a text that is not UTF-8, an item that its tag does not fit,
  or a reference to nothing. -/
  | invalid
  /-- A day or a time of day that does not exist. -/
  | noSuchTime
  /-- A key that may still change. -/
  | badKey
deriving DecidableEq, Repr

/-- The number of parts of a value, as far as it matters: more than three are too many. -/
def manyParts : Nat := 4

/-- Whether a line names a field: visible characters before a colon. -/
def isFieldLine (line : List Char) : Bool :=
  line.contains ':' && (line.takeWhile fun c => c != ':').all fun c => '!' ≤ c && c ≤ '~'

def fieldCount (message : String) : Nat :=
  let lines := (message.splitOn "\n").map String.toList
  let head := lines.takeWhile fun line =>
    isFieldLine line || line.head? = some ' ' || line.head? = some '\t'
  min manyParts (head.filter isFieldLine).length

/-- The number of addresses in a network whose prefix leaves so many bits open. -/
def addressCount (openBits : Nat) : Nat :=
  if openBits = 0 then 1 else if openBits = 1 then 2 else manyParts

/-- A day or a time of which it is known whether its form is right and whether it exists. -/
def timeItem : Option Bool → Except ReadError Item
  | some true => .ok (.other none)
  | some false => .error .noSuchTime
  | none => .error .invalid

/-- A network, given by an address and the length of its prefix. -/
def networkItem (address : List UInt8) (length : Int) : Except ReadError Item :=
  let bits : Int := address.length * 8
  if (address.length = 4 ∨ address.length = 16) ∧ 0 ≤ length ∧ length ≤ bits then
    .ok (.other (some (addressCount (bits - length).toNat)))
  else .error .invalid

def ratio? (items : List Item) : Option Quantity :=
  match items.mapM Item.int? with
  | some [] => some (.ofInt 0)
  | some [v] => some (.ofInt v)
  | some [num, den] => Quantity.ofRatio? num den
  | _ => none

def numberItem : Option Quantity → Except ReadError Item
  | some q => .ok (.real q)
  | none => .error .invalid

def scaledItem (base : Nat) (exponent mantissa : Item) : Except ReadError Item :=
  numberItem do return .scaled (← mantissa.int?) base (← exponent.int?)

/-- An item that is not looked into, if it can be what its tag says. -/
def sealedItem (isFit : Bool) : Except ReadError Item :=
  if isFit then .ok (.other none) else .error .invalid

/-- Whether a number of seconds from the start of 1970 falls into the years 1 to 9999. -/
def isEpochTime (q : Quantity) : Bool :=
  (Quantity.ofInt (-62135596800)).le q && q.lt (.ofInt 253402300800)

/-- Whether a number of days from the start of 1970 falls into the years 1 to 9999. -/
def isEpochDay (v : Int) : Bool := -719162 ≤ v && v ≤ 2932896

/-- The tags that an item has to fit. -/
def knownTags : List Nat := [0, 1, 2, 3, 4, 5, 30, 35, 36, 37, 100, 258, 260, 261, 1004]

def tagged (tag : Nat) (item : Item) : Except ReadError Item :=
  match tag, item with
  | 0, .text s => timeItem (Date.timestamp? s)
  | 1, i => sealedItem (i.quantity?.any isEpochTime)
  | 2, .bytes bs => .ok (.int (ofBigEndian bs))
  | 3, .bytes bs => .ok (.int (-1 - ofBigEndian bs))
  | 4, .array [e, m] => scaledItem 10 e m
  | 5, .array [e, m] => scaledItem 2 e m
  | 30, .array items => numberItem (ratio? items)
  | 35, .text _ | 35, .bytes _ => .ok (.other none)
  | 36, .text s => .ok (.other (some (fieldCount s)))
  | 37, .bytes bs => sealedItem (bs.length = 16)
  | 100, i => sealedItem (i.int?.any isEpochDay)
  | 258, .array items => .ok (.set (items.foldl Item.addMember []))
  | 260, .bytes bs => sealedItem (bs.length = 4 || bs.length = 6 || bs.length = 16)
  | 261, .map [(.bytes bs, .int length)] => networkItem bs length
  | 1004, .text s => timeItem (Date.date? s)
  | tag, _ => sealedItem (!knownTags.contains tag)

end RangeFlow.Cbor
