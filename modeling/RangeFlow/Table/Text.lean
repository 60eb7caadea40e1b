import RangeFlow.Table.Basic
import RangeFlow.Text.Escaped

/-! # The text of a table -/

namespace RangeFlow

namespace RangeTable

def text (t : RangeTable String) : String :=
  "\n".intercalate (t.ranges.entries.map fun (id, r) => id ++ " " ++ r.text)

def rangeJson (r : Range) : String :=
  "\x7b\"bits\": " ++ toString r.width.bits ++ ", \"lower\": " ++ toString r.lower ++
    ", \"upper\": " ++ toString r.upper ++ "\x7d"

def json (t : RangeTable String) : String :=
  "\x7b" ++
    ", ".intercalate (t.ranges.entries.map fun (id, r) => Text.json id ++ ": " ++ rangeJson r) ++
    "\x7d"

def hasWritableBounds (t : RangeTable String) : Bool :=
  t.ranges.entries.all fun e => e.2.hasWritableBounds

end RangeTable

end RangeFlow
