import RangeFlow.Fault
import RangeFlow.Program.Basic

/-! # Looking up parts of a program by name

A function or a global may be asked for with or without its `@`, a variable with or without its
`%`. -/

namespace RangeFlow

/-- A text without one leading mark. -/
def dropMark (mark : Char) (s : String) : String :=
  match s.toList with
  | c :: cs => if c = mark then String.ofList cs else s
  | [] => s

/-- The element of a list with a number, counted from zero, or from the end if it is negative. -/
def at? {α : Type} (xs : List α) (k : Int) : Option α :=
  match if k < 0 then k + xs.length else k with
  | .ofNat n => xs[n]?
  | .negSucc _ => none

namespace Program

def firstFunction (p : Program) : Except Fault Function :=
  match p.functions.head? with
  | some f => .ok f
  | none => .error .noFunction

def findFunction (p : Program) (name : String) : Except Fault (Option Function) :=
  if name.isEmpty then .error .emptyName else .ok (p.function? (dropMark '@' name))

def getFunction (p : Program) (name : String) : Except Fault Function := do
  match ← p.findFunction name with
  | some f => return f
  | none => throw (.unknownFunction (dropMark '@' name))

def findGlobal (p : Program) (name : String) : Option Global := p.global? (dropMark '@' name)

end Program

namespace Function

def getBlock (f : Function) (label : String) : Except Fault Block :=
  match f.block? label with
  | some b => .ok b
  | none => .error (.missingLabel label)

def getEntry (f : Function) : Except Fault Block :=
  match f.entry? with
  | some b => .ok b
  | none => .error (.noEntry f.name)

/-- The block laid out last. -/
def getLast (f : Function) : Except Fault Block :=
  match f.blocks.getLast? with
  | some b => .ok b
  | none => .error (.noEntry f.name)

/-- The block of a label, or the one laid out last where no label is given. -/
def blockAt (f : Function) : Option String → Except Fault Block
  | some label => f.getBlock label
  | none => f.getLast

/-- The call of a function with a number, counted from zero, or from the end if it is negative. -/
def callAt (f : Function) (k : Int) : Except Fault (Site × Call) :=
  match at? (f.callSites.filterMap fun (site, i) => i.call?.map fun c => (site, c)) k with
  | some c => .ok c
  | none => .error (.noCall k)

end Function

end RangeFlow
