import RangeFlow.Calls.Resolver

/-! # Call graphs -/

namespace RangeFlow

/-- A call with the functions it can invoke. -/
structure ResolvedCall where
  site : Site
  instr : Instr
  targets : OrderedSet String
deriving DecidableEq, Repr

structure CallGraph where
  calls : List ResolvedCall
deriving DecidableEq, Repr

namespace CallGraph

def callees (g : CallGraph) (function : String) : OrderedSet String :=
  .ofList ((g.calls.filter fun c => c.site.function == function).flatMap fun c => c.targets.toList)

def callSites (g : CallGraph) (function : String) : List ResolvedCall :=
  g.calls.filter fun c => decide (function ∈ c.targets)

end CallGraph

namespace Program

/-- The call graph under a way to resolve calls. -/
def callGraphBy (p : Program) (resolve : Site → Call → OrderedSet String) : CallGraph :=
  ⟨p.functions.flatMap fun f => f.sites.filterMap fun (site, i) =>
    i.call?.map fun c => ⟨site, i, resolve site c⟩⟩

/-- The call graph of calls by name. -/
def directCallGraph (p : Program) : CallGraph :=
  p.callGraphBy fun _ c => Resolver.directCallees p c

end Program

/-- The call graph with calls through pointers resolved. -/
def Resolver.callGraph (r : Resolver) : CallGraph := r.program.callGraphBy r.callees

end RangeFlow
