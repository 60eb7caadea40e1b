import RangeFlow.Ordered.Map
import RangeFlow.Program.Lookup
import RangeFlow.Range.Conform

/-! # Facts that hold in a block -/

namespace RangeFlow

/-- What a fact is about: a variable, or the memory that a symbol names. -/
inductive Subject
  | var (name : String)
  | symbol (name : String)
deriving DecidableEq, Repr

def Subject.text : Subject → String
  | .var name => "%" ++ name
  | .symbol name => "@" ++ name

/-- The subject of a text: a symbol, or else a variable, with or without its `%`. -/
def Subject.ofText (text : String) : Subject :=
  if text.startsWith "@" then .symbol (dropMark '@' text) else .var (dropMark '%' text)

def Operand.subject? : Operand → Option Subject
  | .var name _ => some (.var name)
  | .symbol name => some (.symbol name)
  | .literal _ _ => none

/-- Ranges of the variables of a block, as far as they are known. -/
abbrev Facts := OrderedMap Subject Range

namespace Facts

/-- Joins a range to a fact, and tells whether the fact grew. -/
def join (m : Facts) (s : Subject) (r : Range) : Facts × Bool :=
  let new := Range.joinInto (m.get? s) r
  if r.isEmpty || m.get? s = some new then (m, false) else (m.insert s new, true)

/-- The facts by the text of their subject. -/
def listed (m : Facts) : List (String × Range) :=
  (m.entries.map fun (s, r) => (s.text, r)).mergeSort fun a b => a.1 ≤ b.1

end Facts

end RangeFlow
