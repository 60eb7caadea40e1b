import RangeFlow.Location
import RangeFlow.Range.Basic

/-! # Facts from initial values

The initial values of global variables are walked along their types. Every integer found at a
location that has an id is a leaf. A walk that meets a fault goes no further; what it found before
is kept. -/

namespace RangeFlow

/-- A location with an integer that it holds at first. -/
structure Leaf where
  location : Location
  range : Range
deriving DecidableEq, Repr

/-- What a walk meets, in order. -/
abbrev Leaves := List (Except Fault Leaf)

/-- The leaf of an integer, unless its location has no id. -/
def Leaf.ofInt (location : Option Location) (w : Width) (v : Int) : Leaves :=
  (location.map fun l => (Fault.ofRange w.counted).map fun w => ⟨l, .singleton w v⟩).toList

/-- The leaf of a written integer, which is reduced to its width in any case. -/
def Leaf.ofWritten (location : Option Location) (w : Width) (v : Int) : Leaves :=
  match Fault.ofRange w.counted with
  | .ok w => Leaf.ofInt location w v
  | .error e => [.error e]

namespace Program

mutual

/-- The leaves of the zero of a type. A struct type that is met within itself has no end; `unseen`
are the struct types not yet entered. -/
def zeroLeaves (p : Program) (unseen : List String) (location : Option Location) (t : Ty) :
    Leaves :=
  match t with
  | .int w => Leaf.ofInt location w 0
  | .array _ element => p.zeroLeaves unseen location element
  | .literal fields => p.zeroFieldLeaves unseen (.literal []) 0 fields
  | .named name =>
    match p.fields? (.named name) with
    | none => []
    | some fields =>
      if name ∈ unseen then p.zeroFieldLeaves (unseen.erase name) (.named name) 0 fields
      else [.error .endless]
  | .ptr | .void => []
termination_by (unseen.length, sizeOf t)
decreasing_by
  · apply Prod.Lex.right
    rw [Ty.array.sizeOf_spec]
    omega
  · apply Prod.Lex.right
    rw [Ty.literal.sizeOf_spec]
    omega
  · apply Prod.Lex.left
    rename_i h
    rw [List.length_erase_of_mem h]
    have := List.length_pos_of_mem h
    omega

/-- The leaves of the zeros of the fields of a struct type from a position on. -/
def zeroFieldLeaves (p : Program) (unseen : List String) (struct : Ty) (index : Nat)
    (fields : List Ty) : Leaves :=
  match fields with
  | [] => []
  | t :: ts =>
    p.zeroLeaves unseen (struct.fieldLocation? index) t ++
      p.zeroFieldLeaves unseen struct (index + 1) ts
termination_by (unseen.length, sizeOf fields)
decreasing_by
  · apply Prod.Lex.right
    rw [List.cons.sizeOf_spec]
    omega
  · apply Prod.Lex.right
    rw [List.cons.sizeOf_spec]
    omega

end

mutual

/-- The leaves of a constant of a type. What does not fit the type has none. -/
def constantLeaves (p : Program) (location : Option Location) (t : Ty) : Constant → Leaves
  | .int v =>
    match t with
    | .int w => Leaf.ofWritten location w v
    | _ => []
  | .symbol _ => []
  | .zero => p.zeroLeaves (p.structs.map StructDecl.name) location t
  | .struct elements =>
    match p.fields? t with
    | some fields => p.fieldLeaves t 0 fields elements
    | none => []
  | .array elements =>
    match t with
    | .array _ element => p.elementLeaves location element elements
    | _ => []

/-- The leaves of the fields of a struct from a position on, as far as there are elements. -/
def fieldLeaves (p : Program) (struct : Ty) (index : Nat) : List Ty → List Constant → Leaves
  | t :: ts, c :: cs =>
    p.constantLeaves (struct.fieldLocation? index) t c ++ p.fieldLeaves struct (index + 1) ts cs
  | _, _ => []

def elementLeaves (p : Program) (location : Option Location) (t : Ty) : List Constant → Leaves
  | [] => []
  | c :: cs => p.constantLeaves location t c ++ p.elementLeaves location t cs

end

/-- The leaves of a global variable. Names that start with a dot are those of a compiler's own
constants. -/
def globalLeaves (p : Program) (g : Global) : Leaves :=
  if g.name.startsWith "." then []
  else match g.init with
    | some c => p.constantLeaves (some (.global g.name)) g.ty c
    | none => []

def leaves (p : Program) : Leaves := p.globals.flatMap p.globalLeaves

end Program

end RangeFlow
