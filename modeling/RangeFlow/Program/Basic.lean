import RangeFlow.Program.Constant
import RangeFlow.Program.Instr

/-! # Whole programs -/

namespace RangeFlow

/-- A struct type, with its fields once they are known. -/
structure StructDecl where
  name : String
  fields : Option (List Ty)
deriving DecidableEq, Repr

structure Global where
  name : String
  ty : Ty
  init : Option Constant
deriving DecidableEq, Repr

structure Param where
  name : String
  ty : Ty
deriving DecidableEq, Repr

structure Block where
  label : String
  instrs : List Instr
deriving DecidableEq, Repr

/-- A function; one without blocks is declared only, and its body lies outside the program. -/
structure Function where
  name : String
  params : List Param
  returns : Ty
  isVararg : Bool
  blocks : List Block
deriving DecidableEq, Repr

structure Program where
  structs : List StructDecl
  globals : List Global
  functions : List Function
deriving DecidableEq, Repr

namespace Block

/-- The terminator at the end of the block. -/
def terminator? (b : Block) : Option Terminator := b.instrs.getLast?.bind Instr.terminator?

def isTerminated (b : Block) : Bool := b.terminator?.isSome

def results (b : Block) : List String := b.instrs.filterMap Instr.result?

end Block

namespace Function

def isDeclaration (f : Function) : Bool := f.blocks.isEmpty

/-- Whether the name is dotted, as names of compiler intrinsics are. -/
def isIntrinsic (f : Function) : Bool := f.name.contains '.'

def block? (f : Function) (label : String) : Option Block :=
  f.blocks.find? fun b => b.label == label

/-- A block that is looked up is one of the function and has the label. -/
theorem mem_of_block? {f : Function} {label : String} {b : Block} (h : f.block? label = some b) :
    b ∈ f.blocks ∧ b.label = label :=
  ⟨List.mem_of_find?_eq_some h, by simpa using List.find?_some h⟩

def hasBlock (f : Function) (label : String) : Bool := (f.block? label).isSome

def entry? (f : Function) : Option Block := f.blocks.head?

def labels (f : Function) : List String := f.blocks.map Block.label

def paramNames (f : Function) : List String := f.params.map Param.name

/-- The position of a variable among the parameters. -/
def paramIndex? (f : Function) (x : String) : Option Nat :=
  f.params.findIdx? fun p => p.name == x

def instrs (f : Function) : List Instr := f.blocks.flatMap Block.instrs

/-- The parameters, then the assigned variables in order, with their types. -/
def typedVars (f : Function) : List (String × Ty) :=
  f.params.map (fun p => (p.name, p.ty)) ++ f.instrs.filterMap fun i =>
    match i.action with
    | .assign x v => some (x, v.ty)
    | _ => none

def calls (f : Function) : List Instr := f.instrs.filter fun i => i.call?.isSome

end Function

namespace Program

def function? (p : Program) (name : String) : Option Function :=
  p.functions.find? fun f => f.name == name

def hasFunction (p : Program) (name : String) : Bool := (p.function? name).isSome

def global? (p : Program) (name : String) : Option Global :=
  p.globals.find? fun g => g.name == name

/-- The fields of a struct type that has a body. -/
def fields? (p : Program) : Ty → Option (List Ty)
  | .literal fields => some fields
  | .named name => (p.structs.find? fun s => s.name == name).bind StructDecl.fields
  | _ => none

end Program

/-- The place of an instruction in a program. -/
structure Site where
  function : String
  block : String
  index : Nat
deriving DecidableEq, Repr

namespace Block

/-- The instructions of a block of a function with their places. -/
def sites (function : String) (b : Block) : List (Site × Instr) :=
  b.instrs.zipIdx.map fun (i, n) => (⟨function, b.label, n⟩, i)

end Block

namespace Function

def sites (f : Function) : List (Site × Instr) := f.blocks.flatMap fun b => b.sites f.name

def callSites (f : Function) : List (Site × Instr) :=
  f.sites.filter fun s => s.2.call?.isSome

end Function

end RangeFlow
