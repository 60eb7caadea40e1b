import RangeFlow.Calls.Graph
import RangeFlow.Program.Text
import RangeFlow.Symbolic.Oracle

/-! # Comparisons that are decided in advance

A comparison of integers is reported if the symbolic expressions of its operands decide it.
Comparisons of constants, and those of induction variables, are left out. Each report tells how
the function is reached: the first call that can invoke it, the first call that can invoke the
caller, and so on. -/

namespace RangeFlow

inductive Verdict
  | alwaysTrue
  | alwaysFalse
deriving DecidableEq, Repr

def Verdict.text : Verdict → String
  | .alwaysTrue => "comparison always true"
  | .alwaysFalse => "comparison always false"

structure Place where
  function : String
  block : String
  line : Nat
deriving DecidableEq, Repr

def Place.text (l : Place) : String := s!"@{l.function}:{l.block}:{l.line}"

structure Diagnostic where
  verdict : Verdict
  lhs : Symbolic.Expr
  rhs : Symbolic.Expr
  instr : Instr
  place : Place
  /-- The calls up the call graph, nearest first. -/
  callers : List Place
deriving DecidableEq, Repr

namespace Diagnostic

/-- The comparison, then the calls that lead to it. -/
def backtrace (d : Diagnostic) : List Place := d.place :: d.callers

def text (d : Diagnostic) : String :=
  "\n".intercalate
    (["---", "bug: " ++ d.verdict.text, "lhs: " ++ d.lhs.text, "rhs: " ++ d.rhs.text, "stack:"] ++
      d.backtrace.map fun l => "  - " ++ l.text)

def isWritable (d : Diagnostic) : Bool := d.lhs.isWritable && d.rhs.isWritable

end Diagnostic

def ResolvedCall.place (c : ResolvedCall) : Place :=
  ⟨c.site.function, c.site.block, c.instr.line⟩

namespace CallGraph

/-- The chain of first calls that lead to a function. It ends at a function nobody calls, or at
one that is on the chain already; `unseen` are the functions that are not. -/
def chain (g : CallGraph) (unseen : List String) (function : String) : List ResolvedCall :=
  match (g.callSites function).head? with
  | none => []
  | some c =>
    if c.site.function ∈ unseen then c :: g.chain (unseen.erase c.site.function) c.site.function
    else [c]
termination_by unseen.length
decreasing_by
  rename_i h
  rw [List.length_erase_of_mem h]
  have := List.length_pos_of_mem h
  omega

end CallGraph

namespace Program

/-- The calls by which a function is reached. -/
def callers (p : Program) (g : CallGraph) (function : String) : List Place :=
  (g.chain ((p.functions.map Function.name).erase function) function).map ResolvedCall.place

end Program

namespace Symbolic

def verdict? (c : Comparison) (lhs rhs : Expr) : Except Fault (Option Verdict) := do
  if (lhs.isConstant && rhs.isConstant) || lhs.isRecurrence || rhs.isRecurrence then return none
  if ← isKnown c.name lhs rhs then return some .alwaysTrue
  if ← isKnown c.invert.name lhs rhs then return some .alwaysFalse
  return none

/-- The expressions of two operands, if both are integers. -/
def exprPair (f : Function) (a b : Operand) : Oracle (Option (Expr × Expr)) := do
  let lhs ← exprOf f a
  let rhs ← exprOf f b
  match lhs, rhs with
  | some l, some r => return some (l, r)
  | _, _ => return none

end Symbolic

namespace Program

/-- The report on an instruction of a function, if it is a comparison that is decided. -/
def diagnoseInstr (p : Program) (g : CallGraph) (f : Function) (label : String) (i : Instr) :
    Symbolic.Oracle (Option Diagnostic) := do
  match i.action with
  | .assign _ (.compare c _ a b) =>
    match ← Symbolic.exprPair f a b with
    | none => return none
    | some (lhs, rhs) =>
      match Symbolic.verdict? c lhs rhs with
      | .error e => throw e
      | .ok none => return none
      | .ok (some v) =>
        return some ⟨v, lhs, rhs, i, ⟨f.name, label, i.line⟩, p.callers g f.name⟩
  | _ => return none

def diagnoseFunction (p : Program) (g : CallGraph) (f : Function) :
    Except Fault (List Diagnostic) :=
  match (f.labelled.mapM fun (label, i) => p.diagnoseInstr g f label i).run .fresh with
  | .ok ds _ => .ok (ds.filterMap id)
  | .error e _ => .error e

/-- The reports on a program, with the calls resolved as in the call graph. -/
def diagnoseWith (p : Program) (g : CallGraph) : Except Fault (List Diagnostic) := do
  return (← p.functions.mapM (p.diagnoseFunction g)).flatten

def diagnose (p : Program) : Except Fault (List Diagnostic) :=
  p.diagnoseWith (Resolver.ofProgram p).callGraph

end Program

end RangeFlow
