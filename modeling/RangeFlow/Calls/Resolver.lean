import RangeFlow.Ordered.Map
import RangeFlow.Ordered.Set
import RangeFlow.Program.Basic

/-! # What a call can invoke

A call by name invokes the function of that name. A call through a pointer can invoke every
function whose address is taken somewhere and whose signature fits, and besides these the targets
registered for it. -/

namespace RangeFlow

namespace Instr

/-- The operands whose value an instruction passes on: all but the callee of a call. -/
def passedOperands (i : Instr) : List Operand :=
  match i.call? with
  | some c => c.args
  | none => i.operands

end Instr

namespace Program

/-- The symbols whose address a program uses, in order. -/
def usedSymbols (p : Program) : List String :=
  p.globals.flatMap (fun g => (g.init.map Constant.symbols).getD []) ++
    p.functions.flatMap fun f => f.instrs.flatMap fun i =>
      i.passedOperands.filterMap Operand.symbol?

def addressTaken (p : Program) : OrderedSet String :=
  .ofList (p.usedSymbols.filter p.hasFunction)

end Program

/-- Whether a function can be invoked by a call: it returns the type of the call, and takes the
arguments at their types; more arguments than parameters need a function that allows them. -/
def Function.accepts (f : Function) (c : Call) : Bool :=
  decide (f.returns = c.returns) &&
    decide (f.params.length ≤ c.args.length) &&
    (decide (c.args.length = f.params.length) || f.isVararg) &&
    (f.params.zip c.args).all fun (param, arg) => decide (param.ty = arg.ty)

/-- A program with the targets registered for its calls. -/
structure Resolver where
  program : Program
  taken : OrderedSet String
  registered : OrderedMap Site (OrderedSet String)
deriving DecidableEq, Repr

namespace Resolver

def ofProgram (p : Program) : Resolver := ⟨p, p.addressTaken, ∅⟩

def register (r : Resolver) (site : Site) (function : String) : Resolver :=
  { r with
    registered := r.registered.insert site
      (((r.registered.get? site).getD ∅).insert function) }

def callees (r : Resolver) (site : Site) (c : Call) : OrderedSet String :=
  match c.callee with
  | .direct name => if r.program.hasFunction name then .ofList [name] else ∅
  | .indirect _ =>
    (r.taken.filter fun name => (r.program.function? name).any fun f => f.accepts c).insertAll
      ((r.registered.get? site).getD ∅).toList

def directCallees (p : Program) (c : Call) : OrderedSet String :=
  match c.callee with
  | .direct name => if p.hasFunction name then .ofList [name] else ∅
  | .indirect _ => ∅

end Resolver

end RangeFlow
