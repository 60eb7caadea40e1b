import RangeFlow.Fault
import RangeFlow.Ordered.Set
import RangeFlow.Program.Basic

/-! # Flow graphs

The blocks of a function and the edges along which control passes from one to the next. A function
has a flow graph if all its blocks are terminated and all labels they name exist. -/

namespace RangeFlow

/-- An edge from the end of one block to the start of another. -/
structure Edge where
  source : String
  target : String
deriving DecidableEq, Repr

/-- The labels of a function in layout order, and its edges ordered by source and then as the
terminator names them. -/
structure Flow where
  labels : List String
  edges : List Edge
deriving DecidableEq, Repr

namespace Flow

def successors (g : Flow) (label : String) : List String :=
  (g.edges.filter fun e => e.source == label).map Edge.target

def predecessors (g : Flow) (label : String) : List String :=
  (g.edges.filter fun e => e.target == label).map Edge.source

end Flow

namespace Function

/-- A label that has to name a block. -/
def target (f : Function) (label : String) : Except Fault String :=
  if f.hasBlock label then .ok label else .error (.missingLabel label)

/-- The blocks a block can pass control to, each once. -/
def successors (f : Function) (b : Block) : Except Fault (List String) :=
  match b.terminator? with
  | none => .error (.unterminated b.label)
  | some t => (OrderedSet.ofList t.labels).toList.mapM f.target

def edgesFrom (f : Function) (b : Block) : Except Fault (List Edge) := do
  return (← f.successors b).map (Edge.mk b.label)

def flow (f : Function) : Except Fault Flow := do
  let edges ← f.blocks.mapM f.edgesFrom
  return ⟨f.labels, edges.flatten⟩

end Function

end RangeFlow
