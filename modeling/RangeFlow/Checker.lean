import RangeFlow.Check
import RangeFlow.Program.Lookup

/-! # The check as it is carried out

Blocks are looked up by the labels that name them, and what is available at their ends and before
their instructions by block. A lookup that finds nothing fails. So does a misfit with a number that
is never written, since its words are made when it is found. -/

namespace RangeFlow

/-- What is found for each of some things, in order. -/
def findAll {α β : Type} (find : α → Except Fault (List β)) (xs : List α) :
    Except Fault (List β) := do
  return (← xs.mapM find).flatten

namespace Availability

def getEnd (a : Availability) (label : String) : Except Fault (OrderedSet String) :=
  match a.get? label with
  | some s => .ok s
  | none => .error (.missingLabel label)

end Availability

namespace Function

/-- What a visit looks up: the block, the variables at the end of its predecessors, and those at its
own end. -/
def look (f : Function) (g : Flow) (s : Progress) (label : String) : Except Fault Unit := do
  let b ← f.getBlock label
  let _ ← (g.predecessors b.label).mapM s.ends.getEnd
  let _ ← s.ends.getEnd b.label
  return ()

/-- The variables at every point, found from above. -/
def survey (f : Function) (g : Flow) : Except Fault Progress :=
  f.settle g (f.look g) f.unvisited (f.descends_unvisited g)

/-- Whether the variable that a phi takes when it is entered from a block is defined there. -/
def findEntryUse (f : Function) (s : Progress) (b : Block) (i : Instr) (e : PhiEntry) :
    Except Fault (List Defect) :=
  match e.value.var? with
  | none => .ok []
  | some x => do
    let source ← f.getBlock e.label
    let defined ← s.ends.getEnd source.label
    return if x ∈ defined then [] else [.notDefined x i b]

/-- Variables that an instruction reads and that are not defined, given those before it. -/
def findUses (f : Function) (s : Progress) (b : Block) (i : Instr) (before : OrderedSet String) :
    Except Fault (List Defect) :=
  match i.action with
  | .assign _ (.phi _ entries) => findAll (f.findEntryUse s b i) entries
  | _ =>
    .ok (((i.operands.filterMap Operand.var?).filter (· ∉ before)).map (Defect.notDefined · i b))

def findBlockUses (f : Function) (s : Progress) (b : Block) : Except Fault (List Defect) :=
  match s.noted.get? b.label with
  | some sets => findAll (fun (i, before) => f.findUses s b i before) (b.instrs.zip sets)
  | none => .error (.missingLabel b.label)

end Function

def Instr.takesFromStruct (i : Instr) : Bool :=
  match i.action with
  | .assign _ (.field t _ _) => t.isStruct
  | _ => true

namespace Program

def findMisfit (p : Program) (f : Function) (i : Instr) : Except Fault (List Defect) :=
  if !i.takesFromStruct then .error .notStruct
  else match p.misfit? f i with
    | none => .ok []
    | some m => if m.isWritable then .ok [.misfit i m] else .error .unwritable

def findTyping (p : Program) (f : Function) : Except Fault (List Defect) := do
  let (types, redefined) := Function.firstTypes f.paramTypes f.instrs
  let rest ← findAll (fun i => do return typeDefects types i ++ (← p.findMisfit f i)) f.instrs
  return redefined ++ rest

/-- The defects of a function. Variables and types are looked at only if its structure is sound. -/
def checkFunction (p : Program) (f : Function) : Except Fault (List Defect) := do
  let structural := f.blocks.flatMap (p.structureDefects f)
  if !structural.isEmpty then return structural
  let g ← f.flow
  let s ← f.survey g
  let undefined ← findAll (f.findBlockUses s) f.blocks
  return undefined ++ (← p.findTyping f)

def check (p : Program) : Except Fault (List Defect) := findAll p.checkFunction p.functions

end Program

/-- Why a program is not accepted. -/
inductive Rejection
  | fault (fault : Fault)
  | defects (defects : List Defect)
deriving DecidableEq, Repr

def Program.accept (p : Program) : Except Rejection Unit :=
  match p.check with
  | .error e => .error (.fault e)
  | .ok [] => .ok ()
  | .ok ds => .error (.defects ds)

end RangeFlow
