import RangeFlow.Sweep.Refine
import RangeFlow.Sweep.Seed
import RangeFlow.Sweep.Transfer

/-! # Propagation of ranges through a program

A round sweeps over every function, block by block in layout order. Rounds are repeated until the
table does not change. Once the permitted number of rounds has run, every id that changed in a
round is widened before the next one, so that no id changes twice from then on. -/

namespace RangeFlow

namespace Sweep

/-- Brings the facts at the end of a block, refined by those on the edge, into a block it leads
to. -/
def mergeFrom (e : Env) (f : Function) (label : String) (source : Block) : SweepM Unit := do
  let refined ← edgeFacts e f source label
  joinFacts f label (((← get).blockFacts f.name source.label).insertAll refined.entries)

/-- Brings facts into a block along the edges that close no loop. -/
def mergePredecessors (e : Env) (f : Function) (g : Flow) (loops : OrderedSet Edge)
    (label : String) : SweepM Unit :=
  (g.predecessors label).forM fun source => do
    if (⟨source, label⟩ : Edge) ∈ loops then return
    match f.block? source with
    | some b => mergeFrom e f label b
    | none => return

def sweepBlock (e : Env) (f : Function) (g : Flow) (loops : OrderedSet Edge) (b : Block) :
    SweepM Bool := do
  mergePredecessors e f g loops b.label
  anyOf (visit e f loops b.label) (b.sites f.name)

/-- The state at the start of the sweep over a function: its blocks have no facts. -/
def beginFunction (f : Function) (s : State) : State :=
  { s with facts := s.facts.insert f.name (.ofList (f.labels.map fun label => (label, ∅))) }

/-- Rebuilds the facts of a function, and tells whether the table changed. -/
def sweepFunction (e : Env) (f : Function) : SweepM Bool := do
  let loops ← ofExcept f.backEdges
  let g ← ofExcept f.flow
  modify (beginFunction f)
  anyOf (sweepBlock e f g loops) f.blocks

/-- The functions with a body. -/
def Env.defined (e : Env) : List Function := e.program.functions.filter fun f => !f.isDeclaration

def beginRound (e : Env) (s : State) : State :=
  let table :=
    if e.settings.maxIterations < s.iterations + 1 then s.table.widen s.table.changes.toList
    else s.table
  { s with table := table.clearChanges, iterations := s.iterations + 1 }

/-- One round; tells whether the table changed. -/
def round (e : Env) : SweepM Bool := do
  modify (beginRound e)
  anyOf (sweepFunction e) e.defined

/-- The ids that changed in a round, and the table after it. -/
structure Round where
  changed : List String
  table : RangeTable String
deriving DecidableEq, Repr

/-- Rounds up to the first one that changes nothing, at most as many as said. -/
def rounds (e : Env) : Nat → SweepM (List Round)
  | 0 => throw .endless
  | n + 1 => do
    let changed ← round e
    let table := (← get).table
    let first : Round := ⟨table.changes.toList, table⟩
    if changed then return first :: (← rounds e n)
    else return [first]

/-- Puts the initial values of global variables into the table. -/
def seed (e : Env) : SweepM Unit := do
  e.program.leaves.forM fun leaf => do
    let leaf ← ofExcept leaf
    let _ ← offer leaf.location.id leaf.range none

/-- The id that an instruction of a function can update besides those of parameters and returns. -/
def Env.updatedId? (e : Env) (f : Function) (i : Instr) : Option String :=
  match i.action with
  | .store _ _ address => ((e.program.memoryLocation f address).toOption.join).map Location.id
  | .assign x (.call _) => some (Location.callResult f.name x).id
  | _ => none

def Env.updatedIds (e : Env) : List String :=
  e.program.functions.flatMap fun f =>
    (Location.ret f.name).id ::
      (List.range f.params.length).map (fun index => (Location.arg f.name index).id) ++
      f.instrs.filterMap (e.updatedId? f)

/-- A number of rounds that is never reached. After the permitted rounds each one but the last
widens an id for good. -/
def Env.roundLimit (e : Env) (t : RangeTable String) : Nat :=
  e.settings.maxIterations + (t.size + e.updatedIds.length) + 1

/-- The table before the first round, and the rounds. -/
structure History where
  seeded : RangeTable String
  rounds : List Round
deriving DecidableEq, Repr

/-- Propagates ranges until the table does not change any more. -/
def run (e : Env) : SweepM History := do
  seed e
  let seeded := (← get).table
  return ⟨seeded, ← rounds e (e.roundLimit seeded)⟩

end Sweep

end RangeFlow
