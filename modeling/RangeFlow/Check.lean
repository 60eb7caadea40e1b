import RangeFlow.Flow.Availability
import RangeFlow.Flow.Producer
import RangeFlow.Program.Writable

/-! # The semantic check of programs

A program is accepted if it has no defects. The blocks of each function have to end with their
only terminator, labels and symbols have to exist, variables have to be defined on every way to
their use, once, and used at their type, and returns, struct fields and calls have to fit what
they refer to. -/

namespace RangeFlow

/-- How an instruction fails to fit what it refers to. -/
inductive Misfit
  | returned (actual expected : Ty)
  | noField (index : Int) (struct : Ty)
  | arity (function : String) (params args : Nat)
deriving DecidableEq, Repr

def Misfit.text : Misfit → String
  | .returned actual expected =>
    s!"returns {actual.text} from a function returning {expected.text}"
  | .noField index struct => s!"no field {index} in {struct.text}"
  | .arity f params args => s!"@{f} takes {params} arguments, got {args}"

/-- Whether the numbers in the words for a misfit can be written. -/
def Misfit.isWritable : Misfit → Bool
  | .returned actual expected => actual.isWritable && expected.isWritable
  | .noField index struct => Text.isWritable index && struct.isWritable
  | .arity _ _ _ => true

inductive Defect
  | notTerminated (block : Block)
  | misplacedTerminator (instr : Instr) (block : Block)
  | unknownLabel (label : String) (instr : Instr)
  | undefinedSymbol (symbol : String) (instr : Instr)
  | notDefined (var : String) (instr : Instr) (block : Block)
  | redefined (var : String) (instr : Instr)
  | typeMismatch (var : String) (expected used : Ty) (instr : Instr)
  | misfit (instr : Instr) (misfit : Misfit)
deriving DecidableEq, Repr

namespace Defect

/-- What kind of defect this is. -/
def summary : Defect → String
  | .notTerminated _ => "basic block does not terminate"
  | .misplacedTerminator _ _ => "terminator in the middle of a basic block"
  | .unknownLabel _ _ => "jump to a label that is not defined"
  | .undefinedSymbol _ _ => "reference to an undefined global or function"
  | .notDefined _ _ _ => "variable is used before definition"
  | .redefined _ _ => "variable is assigned more than once"
  | .typeMismatch _ _ _ _ => "variable is used at a different type than it was defined"
  | .misfit _ _ => "malformed instruction"

def message : Defect → String
  | .notTerminated b => "basic block is not terminated:\n" ++ b.text
  | .misplacedTerminator i b =>
    "terminator is not the last instruction:\n  " ++ i.text ++ "\n\n" ++ b.text
  | .unknownLabel l i => s!"label @{l} not defined:\n  {i.text}"
  | .undefinedSymbol s i => s!"@{s} is neither a global nor a function:\n  {i.text}"
  | .notDefined x i b => s!"var %{x} not defined:\n  {i.text}\n\n{b.text}"
  | .redefined x i => s!"var %{x} redefined:\n  {i.text}"
  | .typeMismatch x expected used i =>
    s!"var %{x} has type {expected.text}, used as {used.text}:\n  {i.text}"
  | .misfit i m => s!"{m.text}:\n  {i.text}"

def isWritable : Defect → Bool
  | .notTerminated b => b.isWritable
  | .misplacedTerminator i b | .notDefined _ i b => i.isWritable && b.isWritable
  | .unknownLabel _ i | .undefinedSymbol _ i | .redefined _ i => i.isWritable
  | .typeMismatch _ expected used i => expected.isWritable && used.isWritable && i.isWritable
  | .misfit i m => m.isWritable && i.isWritable

end Defect

namespace Program

def knowsSymbol (p : Program) (name : String) : Bool :=
  (p.global? name).isSome || p.hasFunction name

/-- Labels and symbols of an instruction that do not exist. -/
def danglingDefects (p : Program) (f : Function) (i : Instr) : List Defect :=
  (i.labels.filter fun l => !f.hasBlock l).map (Defect.unknownLabel · i) ++
    ((i.operands.filterMap Operand.symbol?).filter fun s => !p.knowsSymbol s).map
      (Defect.undefinedSymbol · i)

/-- Defects of a block that keep a function from having a flow graph, or point nowhere. -/
def structureDefects (p : Program) (f : Function) (b : Block) : List Defect :=
  (if b.isTerminated then [] else [.notTerminated b]) ++
    (b.instrs.dropLast.filter Instr.isTerminator).map (Defect.misplacedTerminator · b) ++
    b.instrs.flatMap (p.danglingDefects f)

end Program

/-- Variables read by an instruction, given those available before it, that are not defined. A phi
reads at the end of the blocks it names. -/
def useDefects (a : Availability) (b : Block) (i : Instr) (before : OrderedSet String) :
    List Defect :=
  match i.action with
  | .assign _ (.phi _ entries) =>
    (entries.filterMap fun e => e.value.var?.bind fun x =>
      if x ∈ a.atEnd e.label then none else some x).map (Defect.notDefined · i b)
  | _ =>
    ((i.operands.filterMap Operand.var?).filter (· ∉ before)).map (Defect.notDefined · i b)

namespace Function

def definitionDefects (f : Function) (g : Flow) : List Defect :=
  let a := f.availability g
  f.blocks.flatMap fun b =>
    (b.instrs.zip (availableBefore (f.availableIn g a b.label) b.instrs)).flatMap fun (i, before) =>
      useDefects a b i before

/-- The type of each variable at its first definition, and the later definitions, from a list of
instructions. Of parameters with one name the last counts. -/
def firstTypes (types : OrderedMap String Ty) : List Instr → OrderedMap String Ty × List Defect
  | [] => (types, [])
  | i :: is =>
    match i.action with
    | .assign x v =>
      if types.contains x then
        let (types, defects) := firstTypes types is
        (types, .redefined x i :: defects)
      else firstTypes (types.insert x v.ty) is
    | _ => firstTypes types is

def paramTypes (f : Function) : OrderedMap String Ty :=
  .ofList (f.params.map fun p => (p.name, p.ty))

end Function

/-- Variables used at another type than that of their definition. -/
def typeDefects (types : OrderedMap String Ty) (i : Instr) : List Defect :=
  i.operands.filterMap fun o =>
    match o with
    | .var x used =>
      (types.get? x).bind fun expected =>
        if used = expected then none else some (.typeMismatch x expected used i)
    | _ => none

namespace Program

/-- How an instruction of a function does not fit, if so. -/
def misfit? (p : Program) (f : Function) (i : Instr) : Option Misfit :=
  match i.action with
  | .finish (.ret t _) => if t = f.returns then none else some (.returned t f.returns)
  | .finish .retVoid => if .void = f.returns then none else some (.returned .void f.returns)
  | .assign _ (.field t _ index) =>
    match p.fields? t with
    | some fields => if 0 ≤ index ∧ index < fields.length then none else some (.noField index t)
    | none => some (.noField index t)
  | .assign _ (.call ⟨_, .direct name, args⟩) | .call ⟨_, .direct name, args⟩ =>
    (p.function? name).bind fun callee =>
      let n := callee.params.length
      if args.length < n || (n < args.length && !callee.isVararg) then
        some (.arity callee.name n args.length)
      else none
  | _ => none

def typingDefects (p : Program) (f : Function) : List Defect :=
  let (types, redefined) := Function.firstTypes f.paramTypes f.instrs
  redefined ++ f.instrs.flatMap fun i =>
    typeDefects types i ++ ((p.misfit? f i).map (Defect.misfit i)).toList

/-- The defects of a function. Variables and types are looked at only if its structure is sound. -/
def functionDefects (p : Program) (f : Function) : List Defect :=
  let structural := f.blocks.flatMap (p.structureDefects f)
  if structural.isEmpty then
    match f.flow with
    | .ok g => f.definitionDefects g ++ p.typingDefects f
    | .error _ => []
  else structural

/-- Everything that keeps a program from being accepted. -/
def defects (p : Program) : List Defect := p.functions.flatMap p.functionDefects

/-- Whether the program is accepted. -/
def isSound (p : Program) : Bool := p.defects.isEmpty

end Program

end RangeFlow
