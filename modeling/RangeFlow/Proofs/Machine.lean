import RangeFlow.Program.Basic
import RangeFlow.Range.Arith

/-!
# What programs compute on words

The words that integer operators, casts, comparisons and phis give, and the runs of a function on
given arguments.  Only integers are computed: a run that comes to any other instruction, or divides
by zero, has no result.
-/

namespace RangeFlow

namespace BinaryOp

/-- The result of an operator on two words of a width: sums, differences and products are reduced,
and shifts by the width or more leave nothing.  Division by zero has no result, and neither have
the operators that ranges have no rule for. -/
def eval? (w : Width) (op : BinaryOp) (x y : Nat) : Option Nat :=
  match op with
  | .add => some (w.wrap (x + y))
  | .sub => some (w.wrap (x - y))
  | .mul => some (w.wrap (x * y))
  | .udiv => if y = 0 then none else some (x / y)
  | .shl => some (if w.bits ≤ y then 0 else w.wrap (x <<< y : Nat))
  | .lshr => some (if w.bits ≤ y then 0 else x >>> y)
  | .and => some (x &&& y)
  | .or => some (x ||| y)
  | .sdiv | .urem | .srem | .ashr | .xor => none

end BinaryOp

/-- A word of a width. -/
structure Word where
  width : Width
  val : Nat
  val_lt : val < width.card
deriving Repr

def Word.ofInt (w : Width) (v : Int) : Word := ⟨w, w.wrap v, w.wrap_lt_card v⟩

@[simp] theorem Word.width_ofInt (w : Width) (v : Int) : (Word.ofInt w v).width = w := rfl

@[simp] theorem Word.val_ofInt (w : Width) (v : Int) : (Word.ofInt w v).val = w.wrap v := rfl

/-- The words that variables hold, as far as they have been assigned. -/
abbrev Values := String → Option Word

namespace Values

def set (ρ : Values) (x : String) (v : Word) : Values := fun y => if y = x then some v else ρ y

/-- A parameter holds the word given for its position. -/
def ofArgs (f : Function) (args : Nat → Option Word) : Values := fun x =>
  (f.paramIndex? x).bind args

end Values

/-- The word of an integer operand; a variable has to hold one of the width it is read at. -/
def Operand.read? (ρ : Values) : Operand → Option Word
  | .literal v w => some (.ofInt w v)
  | .var x (.int w) => (ρ x).filter fun v => v.width = w
  | .var _ _ | .symbol _ => none

/-- An operand that is read has an integer type of the width of the word. -/
theorem Operand.ty_of_read? {ρ : Values} {o : Operand} {v : Word} (h : o.read? ρ = some v) :
    o.ty = .int v.width := by
  cases o with
  | literal n w =>
    cases h
    rfl
  | symbol name => cases h
  | var x ty =>
    cases ty with
    | int w =>
      obtain ⟨-, hw⟩ := Option.filter_eq_some_iff.1 h
      rw [decide_eq_true_eq] at hw
      rw [hw]
      rfl
    | ptr | void | array | named | literal => cases h

theorem Operand.read?_var {ρ : Values} {x : String} {ty : Ty} {v : Word}
    (h : (Operand.var x ty).read? ρ = some v) : ρ x = some v := by
  cases ty with
  | int w => exact (Option.filter_eq_some_iff.1 h).1
  | ptr | void | array | named | literal => cases h

/-- A cast to an integer of a width. -/
def CastOp.eval? (v : Word) (w : Width) : CastOp → Option Word
  | .trunc | .zext => some (.ofInt w v.val)
  | .sext => some (.ofInt w (toSigned v.width.bits v.val))
  | .bitcast | .ptrtoint | .inttoptr => none

/-- How control comes to a block: from the end of another one, or from outside, with the words that
variables hold then. -/
structure Arrival where
  source : Option String
  values : Values

/-- The word of a value.  A phi reads what its operand held when control came to the block. -/
def Value.eval? (a : Arrival) (ρ : Values) : Value → Option Word
  | .binary op _ lhs rhs => do
    let x ← lhs.read? ρ
    let y ← rhs.read? ρ
    if x.width = y.width then
      return .ofInt x.width (← op.eval? x.width x.val y.val)
    else none
  | .compare c _ lhs rhs => do
    let x ← lhs.read? ρ
    let y ← rhs.read? ρ
    if x.width = y.width then
      return .ofInt .one (if c.holds x.width.bits x.val y.val then 1 else 0)
    else none
  | .cast op _ o (.int w) => do op.eval? (← o.read? ρ) w
  | .select _ c ifTrue ifFalse => do
    if (← c.read? ρ).val ≠ 0 then ifTrue.read? ρ else ifFalse.read? ρ
  | .phi _ entries => do
    let source ← a.source
    let entry ← entries.find? fun e => e.label == source
    entry.value.read? a.values
  | .cast _ _ _ _ | .load _ _ | .alloca _ | .field _ _ _ | .elem _ _ _ | .call _ => none

/-- How control leaves a block. -/
inductive Exit
  | goto (label : String)
  | ret (value : Word)
deriving Repr

/-- The block a switch goes to on a word: that of the first case with its value, or the default. -/
def switchTarget (v : Word) (default : String) (cases : List SwitchCase) : String :=
  ((cases.find? fun k => v.width.wrap k.value == v.val).map SwitchCase.label).getD default

def Terminator.eval? (ρ : Values) : Terminator → Option Exit
  | .jmp l => some (.goto l)
  | .jnz c ifTrue ifFalse => do
    return .goto (if (← c.read? ρ).val ≠ 0 then ifTrue else ifFalse)
  | .switch _ c default cases => do return .goto (switchTarget (← c.read? ρ) default cases)
  | .ret _ o => do return .ret (← o.read? ρ)
  | .retVoid | .unreachable => none

/-- Executes instructions up to the first terminator. -/
def execute (a : Arrival) (ρ : Values) : List Instr → Option (Values × Exit)
  | [] => none
  | i :: is =>
    match i.action with
    | .assign x v => do execute a (ρ.set x (← v.eval? a ρ)) is
    | .finish t => do return (ρ, ← t.eval? ρ)
    | .store _ _ _ | .call _ => none

/-- A run of a function on arguments comes to a block. -/
inductive Arrives (f : Function) (args : Nat → Option Word) : Block → Arrival → Prop
  | start {b : Block} : f.entry? = some b → Arrives f args b ⟨none, .ofArgs f args⟩
  | step {b c : Block} {a : Arrival} {ρ : Values} {l : String} : Arrives f args b a →
    execute a a.values b.instrs = some (ρ, .goto l) → f.block? l = some c →
      Arrives f args c ⟨some b.label, ρ⟩

/-- A run of a function on arguments returns a word. -/
def Returns (f : Function) (args : Nat → Option Word) (v : Word) : Prop :=
  ∃ b a ρ, Arrives f args b a ∧ execute a a.values b.instrs = some (ρ, .ret v)

end RangeFlow
