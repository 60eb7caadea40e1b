import RangeFlow.Fault
import RangeFlow.Flow.Producer

/-! # Storage locations and their ids

Facts that outlive a function belong to named locations. Each location has an id, a text that is
the same in every sweep. -/

namespace RangeFlow

inductive Location
  | global (name : String)
  /-- A field of a named struct type, shared by all values of the type. -/
  | field (struct : String) (index : Int)
  | arg (function : String) (index : Nat)
  | ret (function : String)
  /-- The result of one call. -/
  | callResult (caller result : String)
deriving DecidableEq, Repr

def Location.id : Location → String
  | .global name => "var." ++ name
  | .field struct index => struct ++ "." ++ toString index
  | .arg f index => "arg." ++ f ++ "." ++ toString index
  | .ret f => "ret." ++ f
  | .callResult caller result => "callret." ++ caller ++ "." ++ result

/-- The location of a field of a struct type that has a name of its own. -/
def Ty.fieldLocation? (t : Ty) (index : Int) : Option Location :=
  match t with
  | .named name => if isAnonymousName name then none else some (.field name index)
  | _ => none

namespace Function

def callLocation? (f : Function) (i : Instr) : Option Location :=
  i.result?.map (Location.callResult f.name)

end Function

namespace Program

/-- Follows an address to the location it points to. All elements of an array share the location
of the array. A chain of `n` addresses in a function of fewer than `n` instructions goes in
circles. -/
def followAddress (p : Program) (f : Function) : Nat → Operand → Except Fault (Option Location)
  | 0, _ => .error .endless
  | n + 1, o =>
    match o with
    | .symbol name => .ok ((p.global? name).map fun g => .global g.name)
    | .literal _ _ => .ok none
    | .var x _ =>
      match f.definition? x with
      | some (.field t _ index) =>
        match t.fieldLocation? index with
        | some l => if Text.isWritable index then .ok (some l) else .error .unwritable
        | none => .ok none
      | some (.elem _ address _) => p.followAddress f n address
      | some (.cast .bitcast _ address _) => p.followAddress f n address
      | _ => .ok none

/-- The location an address points to, if that is a global, perhaps indexed, or a struct field. -/
def memoryLocation (p : Program) (f : Function) (o : Operand) : Except Fault (Option Location) :=
  p.followAddress f (f.instrs.length + 1) o

/-- The location whose facts a variable reads: those of arguments, loaded values and call results.
-/
def valueLocation (p : Program) (f : Function) (o : Operand) : Except Fault (Option Location) :=
  match o with
  | .var x _ =>
    match f.paramIndex? x with
    | some index => .ok (some (.arg f.name index))
    | none =>
      match f.definition? x with
      | some (.load _ address) => p.memoryLocation f address
      | some (.call _) => .ok (some (.callResult f.name x))
      | _ => .ok none
  | _ => .ok none

end Program

end RangeFlow
