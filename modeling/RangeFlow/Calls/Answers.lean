import RangeFlow.Calls.Graph

/-! # Kept answers of a resolver

What a call can invoke is worked out when it is asked for, and kept. A target that is registered for
a call makes the answer for this call be worked out anew. -/

namespace RangeFlow

/-- A resolver with the answers it has kept. -/
structure Answers where
  resolver : Resolver
  kept : OrderedMap Site (OrderedSet String)
deriving DecidableEq, Repr

namespace Answers

def ofProgram (p : Program) : Answers := ⟨.ofProgram p, ∅⟩

/-- The functions a call can invoke, and the answers that are kept after this one. -/
def callees (a : Answers) (site : Site) (c : Call) : OrderedSet String × Answers :=
  match a.kept.get? site with
  | some answer => (answer, a)
  | none =>
    let answer := a.resolver.callees site c
    (answer, { a with kept := a.kept.insert site answer })

/-- The call graph under the kept answers, and new ones for the other calls. -/
def callGraph (a : Answers) : CallGraph :=
  a.resolver.program.callGraphBy fun site c => (a.callees site c).1

def register (a : Answers) (site : Site) (function : String) : Answers where
  resolver := a.resolver.register site function
  kept := a.kept.filter fun e => decide (e.1 ≠ site)

end Answers

end RangeFlow
