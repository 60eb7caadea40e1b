import RangeFlow.Flow.BackEdge
import RangeFlow.Flow.Producer
import RangeFlow.Symbolic.Expr

/-! # Symbolic expressions of operands -/

namespace RangeFlow.Symbolic

/-- Expressions deeper than this are opaque. -/
def maxDepth : Nat := 16

/-- The operators whose results are described by expressions. -/
def isDescribed : BinaryOp → Bool
  | .add | .and | .urem | .udiv | .lshr => true
  | _ => false

def isCommutative : BinaryOp → Bool
  | .add | .and => true
  | _ => false

/-- The result of a described operator on two words, unless it divides by zero or shifts past the
width. -/
def fold? (op : BinaryOp) (a b : Int) (w : Width) : Option Int :=
  match op with
  | .add => some (w.wrap (a + b))
  | .and => some (a.toNat &&& b.toNat : Nat)
  | .urem => if b = 0 then none else some (a % b)
  | .udiv => if b = 0 then none else some (a / b)
  | .lshr => if b < w.bits then some (a.toNat >>> b.toNat : Nat) else none
  | _ => none

/-- The operand and the constant of a described operation; operands of a commutative one may be
swapped. -/
def operandAndConstant? (op : BinaryOp) (lhs rhs : Operand) : Option (Operand × Int) :=
  match lhs, rhs with
  | _, .literal v _ => some (lhs, v)
  | .literal v _, _ => if isCommutative op then some (rhs, v) else none
  | _, _ => none

/-- What is known of the back edges of a function: the fault of the first attempt to find them is
reported once, and later attempts meet a search that was never finished. -/
inductive Loops
  | fresh
  | failed
  | found (edges : OrderedSet Edge)
deriving DecidableEq, Repr

abbrev Oracle := EStateM Fault Loops

/-- Finds the back edges of a function, unless that was attempted before. -/
def requestLoops (f : Function) : Oracle Unit := do
  match ← get with
  | .fresh =>
    match f.backEdges with
    | .ok edges => set (Loops.found edges)
    | .error e =>
      set Loops.failed
      throw e
  | _ => return

def isBackEdge (source target : String) : Oracle Bool := do
  match ← get with
  | .found edges => return decide (Edge.mk source target ∈ edges)
  | _ => throw .incomplete

/-- How an entry of a phi takes part in a recurrence. -/
inductive Role
  | start (value : Operand)
  | step (amount : Int)
  /-- The value comes over a back edge, from an addition of something else. -/
  | none
  /-- The value comes over a back edge, and not from an addition. -/
  | stop
deriving DecidableEq, Repr

/-- The amount that an addition adds to a variable. -/
def increment? (x : String) : Value → Option Role
  | .binary .add _ a b =>
    match a.var? == some x, b with
    | true, .literal v _ => some (.step v)
    | _, _ =>
      match b.var? == some x, a with
      | true, .literal v _ => some (.step v)
      | _, _ => some .none
  | _ => Option.none

/-- The role of an entry of the phi that assigns `x` in block `header`. -/
def roleOf (f : Function) (header x : String) (e : PhiEntry) : Oracle Role := do
  if !f.hasBlock e.label then throw (.missingLabel e.label)
  if ← isBackEdge e.label header then
    match (e.value.var?.bind f.definition?).bind (increment? x) with
    | some role => return role
    | none => return .stop
  else return .start e.value

/-- The start and the step of a recurrence, from the roles of the entries in order. The last start
and the last step count. -/
def startAndStep? : List Role → Option (Option Operand × Option Int)
  | [] => some (none, none)
  | .stop :: _ => none
  | role :: roles =>
    (startAndStep? roles).map fun (start, step) =>
      match role with
      | .start o => (start.orElse fun _ => some o, step)
      | .step v => (start, step.orElse fun _ => some v)
      | _ => (start, step)

/-- Reads the roles in order up to the first one that rules a recurrence out. -/
def rolesOf (f : Function) (header x : String) : List PhiEntry → Oracle (List Role)
  | [] => return []
  | e :: es => do
    let role ← roleOf f header x e
    if role = .stop then return [.stop]
    return role :: (← rolesOf f header x es)

def integerExpr (recurse : Operand → Oracle (Option Expr)) (o : Operand) : Oracle Expr := do
  match ← recurse o with
  | some e => return e
  | none => throw .notInteger

/-- The expression of an operand extended to a width. -/
def extendedExpr (recurse : Operand → Oracle (Option Expr)) (w : Width) (o : Operand) :
    Oracle Expr := do
  match ← integerExpr recurse o with
  | .constant v _ => return .constant v w.bits
  | e => return .zeroExtend e w.bits

/-- The expression of a described operation with a constant; that of a constant is computed if it
can be. -/
def operationExpr (recurse : Operand → Oracle (Option Expr)) (w : Width) (op : BinaryOp)
    (o : Operand) (c : Int) : Oracle Expr := do
  match ← integerExpr recurse o with
  | .constant v b =>
    match fold? op v c w with
    | some r => return .constant r w.bits
    | none => return .binary op.name (.constant v b) c w.bits
  | e => return .binary op.name e c w.bits

/-- The expression of a phi with two entries that steps through a loop, if the phi that assigns
`x` in block `header` is one. -/
def recurrenceExpr? (f : Function) (recurse : Operand → Oracle (Option Expr)) (w : Width)
    (header x : String) (entries : List PhiEntry) : Oracle (Option Expr) := do
  if entries.length ≠ 2 then return none
  requestLoops f
  match startAndStep? (← rolesOf f header x entries) with
  | some (some start, some step) =>
    return some (.recurrence (← integerExpr recurse start) (w.wrap step) header w.bits)
  | _ => return none

/-- The expression of a variable from the value it is assigned in a block, if that says anything. -/
def assignedExpr? (f : Function) (recurse : Operand → Oracle (Option Expr)) (w : Width)
    (header x : String) : Value → Oracle (Option Expr)
  | .cast .zext _ a _ => return some (← extendedExpr recurse w a)
  | .binary op _ a b =>
    if isDescribed op then
      match operandAndConstant? op a b with
      | some (o, c) => return some (← operationExpr recurse w op o (w.wrap c))
      | none => return none
    else return none
  | .phi _ entries => recurrenceExpr? f recurse w header x entries
  | _ => return none

def unknownVar (f : Function) (x : String) (w : Width) : Expr :=
  .unknown (f.name ++ "." ++ x) w.bits

def exprWithin (f : Function) : Nat → Operand → Oracle (Option Expr)
  | _, .literal v w => return some (.constant (w.wrap v) w.bits)
  | _, .symbol _ => return none
  | 0, .var x t => return t.width?.map (unknownVar f x)
  | depth + 1, .var x t => do
    match t.width? with
    | none => return none
    | some w =>
      match f.producer? x with
      | some (header, ⟨.assign _ value, _⟩) =>
        match ← assignedExpr? f (exprWithin f depth) w header x value with
        | some e => return some e
        | none => return some (unknownVar f x w)
      | _ => return some (unknownVar f x w)

def exprOf (f : Function) (o : Operand) : Oracle (Option Expr) := exprWithin f maxDepth o

end RangeFlow.Symbolic
