import RangeFlow.Table.Binary
import RangeFlow.Text.Escaped

/-! # Tables from elsewhere

A table that was read from bytes can have ids of any kind, and numbers that are written as truth
values. It is shown as it was read, as long as a range does not change. -/

namespace RangeFlow

namespace Cbor.Item

/-- A byte within quotes. -/
def byteText (b : UInt8) : List Char :=
  let c := Char.ofNat b.toNat
  if b.toNat < 0x80 then Text.escapeChar '\'' c else Text.numbered c

mutual

/-- The text of an item that stands within another one. -/
def innerText : Item → String
  | .text s => Text.quoted s
  | .int v => toString v
  | .bool b => if b then "True" else "False"
  | .null => "None"
  | .bytes bs => String.ofList ('b' :: '\'' :: bs.flatMap byteText ++ ['\''])
  | .array [i] => "(" ++ innerText i ++ ",)"
  | .array items => "(" ++ ", ".intercalate (innerTexts items) ++ ")"
  | .set _ | .map _ | .real _ | .other _ => ""

def innerTexts : List Item → List String
  | [] => []
  | i :: is => innerText i :: innerTexts is

end

def label : Item → String
  | .text s => s
  | i => innerText i

/-- An integer or a mark in JSON. -/
def scalarJson? : Item → Option String
  | .int v => some (toString v)
  | .bool b => some (if b then "true" else "false")
  | .null => some "null"
  | _ => none

/-- The name of a member of a JSON object, if the item can be one. -/
def memberJson? : Item → Option String
  | .text s => some (Text.json s)
  | i => i.scalarJson?.map fun s => "\"" ++ s ++ "\""

end Cbor.Item

instance : Labelled Cbor.Item := ⟨Cbor.Item.label⟩

/-- A table with the entries as they were read. -/
structure Sheet where
  table : RangeTable Cbor.Item
  read : List TableEntry
deriving DecidableEq, Repr

namespace Sheet

def empty (watch : Option Cbor.Item) : Sheet := ⟨.empty watch, []⟩

def decode (bs : List UInt8) : Except TableError Sheet :=
  (RangeTable.readEntries bs).map fun entries => ⟨.ofEntries entries, entries⟩

/-- The row of an id: as it was read if that is still its range. -/
def row (s : Sheet) (id : Cbor.Item) (r : Range) : Row :=
  match s.read.find? fun e => e.id = id ∧ e.range = r with
  | some e => e.row
  | none => .ofRange r

def rows (s : Sheet) : List (Cbor.Item × Range × Row) :=
  s.table.ranges.entries.map fun (id, r) => (id, r, s.row id r)

def rowText (r : Range) (row : Row) : String :=
  if r.isFull || r.isEmpty then r.text
  else "[" ++ row.lower.label ++ "," ++ row.upper.label ++ ")"

def text (s : Sheet) : String :=
  "\n".intercalate (s.rows.map fun (id, r, row) => id.label ++ " " ++ rowText r row)

def rowJson? (row : Row) : Option String := do
  return "\x7b\"bits\": " ++ (← row.bits.scalarJson?) ++ ", \"lower\": " ++
    (← row.lower.scalarJson?) ++ ", \"upper\": " ++ (← row.upper.scalarJson?) ++ "\x7d"

/-- The table as an object of JSON, if all its ids can be names of members. -/
def json? (s : Sheet) : Option String := do
  let members ← s.rows.mapM fun (id, _, row) => do
    return (← id.memberJson?) ++ ": " ++ (← rowJson? row)
  return "\x7b" ++ ", ".intercalate members ++ "\x7d"

def encode (s : Sheet) : List UInt8 :=
  (Cbor.Item.map (s.rows.map fun (id, _, row) => (id, row.item))).encode

end Sheet

end RangeFlow
