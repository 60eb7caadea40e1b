import RangeFlow.Flow.BackEdge
import RangeFlow.Program.Lookup
import RangeFlow.Program.Writable
import RangeFlow.Range.Arith
import RangeFlow.Range.Checked
import RangeFlow.Sweep.State

/-! # What an instruction does to the facts

A value gives its result a range in the facts of the block. Stores, calls and returns offer ranges
to the table, and report whether it changed. -/

namespace RangeFlow

/-- The range of a result. Operators without a rule of their own give that of one operand. -/
def BinaryOp.range : BinaryOp → Range → Range → Range
  | .add => Range.add
  | .sub => Range.sub
  | .mul => Range.multiply
  | .udiv => Range.udiv
  | .shl => Range.shl
  | .lshr => Range.lshr
  | .and => Range.binaryAnd
  | .or => Range.binaryOr
  | .sdiv | .ashr | .xor => fun lhs _ => lhs
  | .urem | .srem => fun _ rhs => rhs

namespace Sweep

/-- The width of a result that has to be an integer. -/
def resultWidth (t : Ty) : SweepM Width :=
  match t.width? with
  | some w => counted w
  | none => throw .notInteger

def castRange (e : Env) (f : Function) (label : String) (op : CastOp) (source : Ty) (o : Operand)
    (target : Ty) : SweepM (Option Range) := do
  match op with
  | .trunc | .zext =>
    let r ← rangeOf e f label o
    return some (r.resize (← resultWidth target))
  | .sext =>
    let r ← rangeOf e f label o
    let w ← resultWidth target
    return some (← ofExcept (Fault.ofRange (r.signExtendAt w.bits)))
  | .ptrtoint => return some (.full (← resultWidth target))
  | .bitcast =>
    match source.width?, target.width? with
    | some _, some w =>
      let r ← rangeOf e f label o
      return some (r.resize (← counted w))
    | _, _ => return none
  | .inttoptr => return none

/-- Joins the values a phi takes along edges that close no loop. -/
def phiRange (e : Env) (f : Function) (loops : OrderedSet Edge) (label : String) (r : Range) :
    List PhiEntry → SweepM Range
  | [] => return r
  | entry :: entries => do
    let source ← ofExcept (f.target entry.label)
    if (⟨source, label⟩ : Edge) ∈ loops then phiRange e f loops label r entries
    else
      let value ← conformed r (← rangeOf e f source entry.value)
      phiRange e f loops label (r.union value) entries

/-- The range of a value that is not a call, if it is an integer. `x` is the variable it is
assigned to. -/
def valueRange (e : Env) (f : Function) (loops : OrderedSet Edge) (label x : String) (v : Value) :
    SweepM (Option Range) := do
  match v with
  | .binary op _ a b =>
    let lhs ← rangeOf e f label a
    let rhs ← conformed lhs (← rangeOf e f label b)
    return some (op.range lhs rhs)
  | .compare _ _ _ _ => return some (.full .one)
  | .cast op source o target => castRange e f label op source o target
  | .select t _ a b =>
    if t.isInt then
      let r ← rangeOf e f label a
      return some (r.union (← conformed r (← rangeOf e f label b)))
    else return none
  | .phi t entries =>
    match t.width? with
    | some w => return some (← phiRange e f loops label (.empty (← counted w)) entries)
    | none => return none
  | .load t _ => if t.isInt then return some (← rangeOf e f label (.var x t)) else return none
  | .alloca _ | .field _ _ _ | .elem _ _ _ | .call _ => return none

/-- Offers the range of a stored value to the location it is stored at. -/
def offerStored (e : Env) (f : Function) (i : Instr) (address : Operand) (r : Range) :
    SweepM Bool := do
  match ← ofExcept (e.program.memoryLocation f address) with
  | some l => offer l.id r (some ⟨i, f.name⟩)
  | none => return false

def visitStore (e : Env) (f : Function) (label : String) (i : Instr) (value address : Operand) :
    SweepM Bool := do
  if !value.ty.isInt then return false
  let r ← rangeOf e f label value
  match address.subject? with
  | some subject => let _ ← joinFact f label subject r
  | none => pure ()
  offerStored e f i address r

/-- Offers an argument of a call to the parameter at its position. -/
def offerArg (e : Env) (f : Function) (label : String) (i : Instr) (g : Function) :
    Operand × Nat → SweepM Bool
  | (arg, index) => do
    if !arg.ty.isInt then return false
    let r ← rangeOf e f label arg
    offer (Location.arg g.name index).id r (some ⟨i, f.name⟩)

/-- Offers the arguments of a call to the parameters of a function it can invoke. -/
def offerArgs (e : Env) (f : Function) (label : String) (i : Instr) (c : Call) (callee : String) :
    SweepM Bool :=
  match e.program.function? callee with
  | none => return false
  | some g =>
    if g.isVararg || g.isIntrinsic then return false
    else anyOf (offerArg e f label i g) (c.args.take g.params.length).zipIdx

/-- Keeps what is known of the result of a call. -/
def offerResult (e : Env) (f : Function) (label : String) (i : Instr) (x : String) (t : Ty) :
    SweepM Bool := do
  if !t.isInt then return false
  let r ← rangeOf e f label (.var x t)
  let _ ← joinFact f label (.var x) r
  offer (Location.callResult f.name x).id r (some ⟨i, f.name⟩)

/-- A call that nothing can answer to has no effect. -/
def visitCall (e : Env) (f : Function) (label : String) (site : Site) (i : Instr) (c : Call) :
    SweepM Bool := do
  let callees := (e.resolver.callees site c).toList
  if callees.isEmpty then return false
  let changed ← anyOf (offerArgs e f label i c) callees
  match i.result? with
  | some x => return (← offerResult e f label i x c.returns) || changed
  | none => return changed

def visitReturn (e : Env) (f : Function) (label : String) (i : Instr) (t : Ty) (value : Operand) :
    SweepM Bool := do
  if !t.isInt then return false
  let r ← rangeOf e f label value
  offer (Location.ret f.name).id r (some ⟨i, f.name⟩)

def unmodeledNotice (i : Instr) : Notice :=
  .plain .unmodeledInstruction ("no range transfer for `" ++ i.text ++ "`")

/-- Carries out an instruction on the facts, and tells whether the table changed. -/
def perform (e : Env) (f : Function) (loops : OrderedSet Edge) (label : String) (site : Site)
    (i : Instr) : SweepM Bool := do
  match i.action with
  | .assign _ (.call c) | .call c => visitCall e f label site i c
  | .assign x v =>
    match ← valueRange e f loops label x v with
    | some r => let _ ← joinFact f label (.var x) r
    | none => pure ()
    return false
  | .store _ value address => visitStore e f label i value address
  | .finish (.ret t value) => visitReturn e f label i t value
  | .finish _ => return false

/-- Carries out an instruction of a block, if its effect is known. -/
def visit (e : Env) (f : Function) (loops : OrderedSet Edge) (label : String) :
    Site × Instr → SweepM Bool
  | (site, i) => do
    if e.unmodeled.contains i.opcode then
      throw (if i.isWritable then .notice (unmodeledNotice i) else .unwritable)
    perform e f loops label site i

end Sweep

end RangeFlow
