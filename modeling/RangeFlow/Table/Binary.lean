import RangeFlow.Cbor.Reader
import RangeFlow.Cbor.Slots
import RangeFlow.Range.Checked
import RangeFlow.Table.Basic

/-! # Tables as bytes

A table is a map from ids to arrays of width, lower and upper bound. -/

namespace RangeFlow

/-- Why bytes are not a table. -/
inductive TableError
  | unreadable (error : Cbor.ReadError)
  /-- The item is not a map. -/
  | notMap
  /-- A value has no elements, or one that is not a number of the right kind. -/
  | notNumbers
  /-- The numbers of a value are not a range. -/
  | badRange (error : RangeError)
deriving DecidableEq, Repr

/-- The three items that give a range. -/
structure Row where
  bits : Cbor.Item
  lower : Cbor.Item
  upper : Cbor.Item
deriving DecidableEq, Repr

namespace Row

def ofRange (r : Range) : Row := ⟨.int r.width.bits, .int r.lower, .int r.upper⟩

def item (row : Row) : Cbor.Item := .array [row.bits, row.lower, row.upper]

/-- The elements of a value that has some; those of a map are its keys. -/
def elements? : Cbor.Item → Option (List Cbor.Item)
  | .array items => some items
  | .set items => some (Cbor.listed items)
  | .map entries => some (entries.map Prod.fst)
  | .bytes bs => some (bs.map fun b => .int b.toNat)
  | .text s => some (s.toList.map fun c => .text (String.singleton c))
  | .other parts => parts.map fun n => List.replicate n (.other none)
  | .int _ | .bool _ | .null | .real _ => none

/-- The row of a value, which has to have three elements. -/
def ofItem (value : Cbor.Item) : Except TableError Row :=
  match elements? value with
  | some [bits, lower, upper] => .ok ⟨bits, lower, upper⟩
  | some _ => .error (.badRange .arity)
  | none => .error .notNumbers

def number (i : Cbor.Item) : Except TableError Cbor.Quantity :=
  match i.quantity? with
  | some q => .ok q
  | none => .error .notNumbers

/-- The width of a row. It has to be positive before it is looked at whether it is an integer. -/
def width (row : Row) : Except TableError Width := do
  let q ← number row.bits
  if !(Cbor.Quantity.ofInt 0).lt q then throw (.badRange .invalid)
  match row.bits.int?.bind Width.ofInt? with
  | some w => w.counted.mapError .badRange
  | none => throw .notNumbers

/-- A bound, which has to be a word of the width. -/
def bound (w : Width) (i : Cbor.Item) : Except TableError Cbor.Quantity := do
  let q ← number i
  if (Cbor.Quantity.ofInt 0).le q && q.le (.ofInt w.mask) then return q
  throw (.badRange .invalid)

/-- The range of a row. An item counts only if those before it are good. Bounds may be written as
truth values or as other numbers, as long as they are whole. -/
def range (row : Row) : Except TableError Range := do
  let w ← row.width
  let lower ← bound w row.lower
  let upper ← bound w row.upper
  match lower.int?, upper.int? with
  | some lower, some upper => (Range.make w.bits lower upper).mapError .badRange
  | _, _ => throw (if lower.same upper then .badRange .invalid else .notNumbers)

end Row

/-- An entry of a table: its id and its range as they were read. -/
structure TableEntry where
  id : Cbor.Item
  row : Row
  range : Range
deriving DecidableEq, Repr

namespace RangeTable

def item (t : RangeTable String) : Cbor.Item :=
  .map (t.ranges.entries.map fun (id, r) => (.text id, (Row.ofRange r).item))

def encode (t : RangeTable String) : List UInt8 := t.item.encode

/-- The entries written by some bytes, of which those after the table are left alone. Of the values
of one key only the last counts. -/
def readEntries (bs : List UInt8) : Except TableError (List TableEntry) := do
  match ← (Cbor.decode bs).mapError .unreadable with
  | .map entries =>
    entries.mapM fun (id, value) => do
      let row ← Row.ofItem value
      return ⟨id, row, ← row.range⟩
  | _ => throw .notMap

def ofEntries (entries : List TableEntry) : RangeTable Cbor.Item :=
  ⟨.ofList (entries.map fun e => (e.id, e.range)), ∅, none⟩

def decode (bs : List UInt8) : Except TableError (RangeTable Cbor.Item) :=
  (readEntries bs).map ofEntries

end RangeTable

end RangeFlow
