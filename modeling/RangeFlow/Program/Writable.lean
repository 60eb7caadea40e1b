import RangeFlow.Program.Text

/-! # Texts that can be written

The numbers of a program are as large as its text makes them, and a hexadecimal one can have more
decimal digits than are ever written. Such numbers stand in types and in initial values only: what
instructions hold besides types is written in hexadecimal. -/

namespace RangeFlow

def Call.tys (c : Call) : List Ty := c.returns :: c.args.map Operand.ty

def Action.tys : Action → List Ty
  | .assign _ (.binary _ t _ _) | .assign _ (.compare _ t _ _) => [t]
  | .assign _ (.cast _ s _ t) => [s, t]
  | .assign _ (.select t _ _ _) | .assign _ (.phi t _) | .assign _ (.load t _) => [t]
  | .assign _ (.alloca t) | .assign _ (.field t _ _) => [t]
  | .assign _ (.elem t _ i) => [t, i.ty]
  | .assign _ (.call c) | .call c => c.tys
  | .store t _ _ => [t]
  | .finish (.switch t _ _ _) | .finish (.ret t _) => [t]
  | .finish (.jmp _) | .finish (.jnz _ _ _) | .finish .retVoid | .finish .unreachable => []

def Instr.isWritable (i : Instr) : Bool := i.action.tys.all Ty.isWritable

def Block.isWritable (b : Block) : Bool := b.instrs.all Instr.isWritable

def Global.isWritable (g : Global) : Bool := g.ty.isWritable && g.init.all Constant.isWritable

def StructDecl.isWritable (s : StructDecl) : Bool := (s.fields.getD []).all Ty.isWritable

namespace Function

def isWritable (f : Function) : Bool :=
  f.params.all (fun p => p.ty.isWritable) && f.returns.isWritable && f.blocks.all Block.isWritable

end Function

namespace Program

def isWritable (p : Program) : Bool :=
  p.structs.all StructDecl.isWritable && p.globals.all Global.isWritable &&
    p.functions.all Function.isWritable

end Program

end RangeFlow
