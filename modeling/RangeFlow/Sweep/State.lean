import RangeFlow.Calls.Resolver
import RangeFlow.Location
import RangeFlow.Settings
import RangeFlow.Sweep.Facts
import RangeFlow.Table.Basic

/-! # Reading and writing facts during a sweep

Facts about variables belong to a block and are rebuilt by each sweep. Facts about locations are
in the table, and stay. -/

namespace RangeFlow

namespace Sweep

/-- What a sweep depends on and does not change. -/
structure Env where
  program : Program
  settings : Settings
  resolver : Resolver
  /-- The opcodes whose effect on ranges is not known. -/
  unmodeled : List String
deriving DecidableEq, Repr

/-- The facts of the blocks of a function. -/
abbrev BlockFacts := OrderedMap String Facts

structure State where
  table : RangeTable String
  log : Log
  /-- The facts of the blocks of the functions swept so far. -/
  facts : OrderedMap String BlockFacts
  /-- The number of rounds begun. -/
  iterations : Nat
deriving DecidableEq, Repr

def Env.ofProgram (p : Program) (s : Settings) : Env := ⟨p, s, .ofProgram p, []⟩

def State.start (s : Settings) (mode : WarningMode) : State := ⟨.empty s.watch, .empty mode, ∅, 0⟩

def State.blockFacts (s : State) (function label : String) : Facts :=
  ((s.facts.get? function).bind fun blocks => blocks.get? label).getD ∅

def State.setBlockFacts (s : State) (function label : String) (m : Facts) : State :=
  { s with facts := s.facts.modify function fun blocks => blocks.insert label m }

end Sweep

/-- A part of a sweep: it changes the state, and keeps what it changed if it fails. -/
abbrev SweepM := EStateM Fault Sweep.State

namespace Sweep

def ofExcept {α : Type} : Except Fault α → SweepM α
  | .ok a => pure a
  | .error e => throw e

/-- Whether some of the actions report a change. All are run. -/
def anyOf {α : Type} (act : α → SweepM Bool) : List α → SweepM Bool
  | [] => pure false
  | a :: as => do
    let first ← act a
    let rest ← anyOf act as
    return first || rest

/-- Sets the log, or fails with the warning that ends the run. -/
def setLog (log : Except Fault Log) : SweepM Unit := do
  let log ← ofExcept log
  modify fun s => { s with log := log }

/-- The second range at the width of the first, with a warning if the widths differ. -/
def conformed (first second : Range) : SweepM Range := do
  setLog ((← get).log.compare first second)
  return first.conform second

/-- Joins a range to a fact of a block, and tells whether the fact grew. -/
def joinFact (f : Function) (label : String) (subject : Subject) (r : Range) : SweepM Bool := do
  let s ← get
  let facts := s.blockFacts f.name label
  setLog (s.log.noteJoin (facts.get? subject) r)
  let (facts, grew) := facts.join subject r
  if grew then modify fun s => s.setBlockFacts f.name label facts
  return grew

/-- Joins facts to those of a block. Into a block without facts all go that are not empty. -/
def joinFacts (f : Function) (label : String) (facts : Facts) : SweepM Unit := do
  if ((← get).blockFacts f.name label).size = 0 then
    modify fun s => s.setBlockFacts f.name label (facts.filter fun e => !e.2.isEmpty)
  else facts.entries.forM fun (subject, r) => do
    let _ ← joinFact f label subject r

/-- Joins a range to that of an id in the table, and tells whether it grew. -/
def offer (id : String) (r : Range) (origin : Option Origin) : SweepM Bool := do
  let s ← get
  let (grew, table, log) ← ofExcept (s.table.offer s.log id r origin)
  set { s with table := table, log := log }
  return grew

/-- The functions whose result a variable can hold, if it is the result of a call. -/
def Env.resultOf (e : Env) (f : Function) (x : String) : List String :=
  match (f.sites.filter fun s => decide (s.2.result? = some x)).getLast? with
  | some (site, i) => (i.call?.map fun c => (e.resolver.callees site c).toList).getD []
  | none => []

/-- The ids whose facts a variable reads. -/
def Env.sources (e : Env) (f : Function) (x : String) (t : Ty) : Except Fault (List String) := do
  let own ← e.program.valueLocation f (.var x t)
  return (own.map Location.id).toList ++ (e.resultOf f x).map fun g => (Location.ret g).id

/-- The range stored for an id at a width, empty if there is none. -/
def storedAt (t : RangeTable String) (w : Width) (id : String) : Range :=
  match t.get? id with
  | some r => r.resize w
  | none => .empty w

/-- What the table says of a value that reads the given ids; of a tainted one it says nothing. -/
def Env.readIds (e : Env) (t : RangeTable String) (w : Width) (ids : List String) : Range :=
  if ids.any e.settings.isTainted then .full w
  else ids.foldl (fun r id => r.union (storedAt t w id)) (.empty w)

/-- The width of a range to be made. -/
def counted (w : Width) : SweepM Width := ofExcept (Fault.ofRange w.counted)

/-- The range of an integer operand as seen in a block. What is read from the table is kept as a
fact of the block. -/
def rangeOf (e : Env) (f : Function) (label : String) (o : Operand) : SweepM Range := do
  match o with
  | .literal v w => return .singleton (← counted w) v
  | .symbol _ => throw .notInteger
  | .var x t =>
    match t.width? with
    | none => throw .notInteger
    | some w =>
      let s ← get
      let facts := s.blockFacts f.name label
      match facts.get? (.var x) with
      | some r => return r
      | none =>
        let w ← counted w
        let r := e.readIds s.table w (← ofExcept (e.sources f x t))
        unless r.isEmpty do
          modify fun s => s.setBlockFacts f.name label (facts.insert (.var x) r)
        return r

end Sweep

end RangeFlow
