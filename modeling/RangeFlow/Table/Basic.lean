import RangeFlow.Ordered.Map
import RangeFlow.Ordered.Set
import RangeFlow.Program.Writable
import RangeFlow.Range.Conform

/-! # Tables of ranges

A table holds what is known of the whole program: one range for each id. A stored range only
grows, until it is widened to every word of its width. Ids are texts as a rule, but tables from
elsewhere may have others. -/

namespace RangeFlow

structure RangeTable (ι : Type) where
  ranges : OrderedMap ι Range
  /-- The ids whose range grew since the changes were cleared. -/
  changes : OrderedSet ι
  /-- The id whose updates are traced. -/
  watch : Option ι
deriving DecidableEq, Repr

/-- Ids that can be written. -/
class Labelled (ι : Type) where
  label : ι → String

instance : Labelled String := ⟨id⟩

/-- An instruction that updates a table, and the function it stands in. -/
structure Origin where
  instr : Instr
  function : String
deriving DecidableEq, Repr

namespace RangeTable

variable {ι : Type} [DecidableEq ι]

def empty (watch : Option ι) : RangeTable ι := ⟨∅, ∅, watch⟩

def get? (t : RangeTable ι) (id : ι) : Option Range := t.ranges.get? id

def contains (t : RangeTable ι) (id : ι) : Bool := t.ranges.contains id

def size (t : RangeTable ι) : Nat := t.ranges.size

def ids (t : RangeTable ι) : List ι := t.ranges.keys

/-- The range of an id joined with another one. -/
def joined (t : RangeTable ι) (id : ι) (r : Range) : Range := Range.joinInto (t.get? id) r

/-- Joins a range to that of an id, and tells whether it grew. -/
def union (t : RangeTable ι) (id : ι) (r : Range) : RangeTable ι × Bool :=
  if r.isEmpty || t.get? id = some (t.joined id r) then (t, false)
  else
    ({ t with
      ranges := t.ranges.insert id (t.joined id r)
      changes := t.changes.insert id }, true)

/-- The lines that tell of an update: where it comes from, and the range before and after. -/
def traceLines [Labelled ι] (t : RangeTable ι) (id : ι) (r : Range) (origin : Option Origin) :
    List String :=
  let old := ((t.get? id).map Range.text).getD "None"
  (origin.map fun o => o.instr.text ++ "  ; in " ++ o.function).toList ++
    ["  " ++ Labelled.label id ++ ": " ++ old ++ " U " ++ r.text ++ " -> " ++
      (t.joined id r).text]

def canTrace (t : RangeTable ι) (id : ι) (r : Range) (origin : Option Origin) : Bool :=
  (t.get? id).all Range.isWritable && r.isWritable && (t.joined id r).isWritable &&
    origin.all fun o => o.instr.isWritable

/-- The log after an update: a warning if the widths differ, then a trace of the watched id. An
update with the empty range is none. -/
def logUpdate [Labelled ι] (t : RangeTable ι) (log : Log) (id : ι) (r : Range)
    (origin : Option Origin) : Except Fault Log := do
  let log ← log.noteJoin (t.get? id) r
  if r.isEmpty || t.watch ≠ some id then return log
  if t.canTrace id r origin then return log.addTrace (t.traceLines id r origin)
  throw .unwritable

/-- Joins a range to that of an id and logs it. A warning that ends the run leaves the table as it
is. -/
def offer [Labelled ι] (t : RangeTable ι) (log : Log) (id : ι) (r : Range)
    (origin : Option Origin) : Except Fault (Bool × RangeTable ι × Log) := do
  let log ← t.logUpdate log id r origin
  let (t, grew) := t.union id r
  return (grew, t, log)

def setFull? (t : RangeTable ι) (id : ι) : Option (RangeTable ι) :=
  (t.get? id).map fun r => { t with ranges := t.ranges.insert id (.full r.width) }

/-- Widens the ranges of the ids that are present. -/
def widen (t : RangeTable ι) (ids : List ι) : RangeTable ι :=
  ids.foldl (fun t id => (t.setFull? id).getD t) t

def clearChanges (t : RangeTable ι) : RangeTable ι := { t with changes := ∅ }

def isWritable (t : RangeTable ι) : Bool := t.ranges.entries.all fun e => e.2.isWritable

end RangeTable

end RangeFlow
