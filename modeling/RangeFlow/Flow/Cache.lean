import RangeFlow.Flow.BackEdge
import RangeFlow.Ordered.Map

/-! # Kept results of the analyses of a function

Each run of an analysis makes a new result, which is kept from the moment the run starts: also the
result of a run that fails is handed out when the analysis is asked for again. -/

namespace RangeFlow

inductive Analysis
  | flow | producers | backEdges | availability | calls
deriving DecidableEq, Repr

/-- The number of the result kept for each analysis, and the number of the next result. -/
structure Cache where
  results : OrderedMap Analysis Nat
  fresh : Nat
deriving DecidableEq, Repr

namespace Cache

def empty : Cache := ⟨∅, 0⟩

abbrev Run := EStateM Fault Cache

def start (k : Analysis) : Run Nat := do
  let c ← get
  set (Cache.mk (c.results.insert k c.fresh) (c.fresh + 1))
  return c.fresh

def runFlow (f : Function) : Run Nat := do
  let n ← start .flow
  match f.flow with
  | .ok _ => return n
  | .error e => throw e

/-- Makes sure that there is a result for the flow graph, complete or not. -/
def requestFlow (f : Function) : Run Unit := do
  if (← get).results.contains .flow then return
  let _ ← runFlow f

/-- Runs an analysis anew, after the flow graph if it needs one. -/
def force (f : Function) : Analysis → Run Nat
  | .flow => runFlow f
  | .producers => start .producers
  | .calls => start .calls
  | .availability => do
    let n ← start .availability
    requestFlow f
    return n
  | .backEdges => do
    let n ← start .backEdges
    requestFlow f
    if f.isDeclaration then throw (.noEntry f.name)
    return n

/-- The kept result of an analysis, or that of a first run. -/
def request (f : Function) (k : Analysis) : Run Nat := do
  match (← get).results.get? k with
  | some n => return n
  | none => force f k

end Cache

end RangeFlow
