import RangeFlow.Program.Basic

/-! # The text of a program -/

namespace RangeFlow

def commaList (items : List String) : String := ", ".intercalate items

def labelText (label : String) : String := "@" ++ label

def Call.text (c : Call) : String :=
  "call " ++ c.returns.text ++ " " ++ c.callee.operand.text ++
    "(" ++ commaList (c.args.map Operand.typedText) ++ ")"

namespace Value

def text : Value → String
  | .binary op t a b => op.name ++ " " ++ t.text ++ " " ++ commaList [a.text, b.text]
  | .compare op t a b => op.name ++ " " ++ t.text ++ " " ++ commaList [a.text, b.text]
  | .cast op s a t => op.name ++ " " ++ s.text ++ " " ++ a.text ++ " to " ++ t.text
  | .select t c a b => "select " ++ t.text ++ " " ++ commaList [c.text, a.text, b.text]
  | .phi t entries =>
    "phi " ++ t.text ++ " " ++
      commaList (entries.flatMap fun e => [labelText e.label, e.value.text])
  | .load t p => "load " ++ t.text ++ " " ++ p.text
  | .alloca t => "alloca " ++ t.text
  | .field t p i => "field " ++ t.text ++ ", " ++ commaList [p.text, literalText i]
  | .elem t p i => "elem " ++ t.text ++ ", " ++ commaList [p.text, i.typedText]
  | .call c => c.text

end Value

namespace Terminator

def text : Terminator → String
  | .jmp l => "jmp " ++ labelText l
  | .jnz c l r => "jnz " ++ commaList [c.text, labelText l, labelText r]
  | .switch t c l cases =>
    "switch " ++ t.text ++ " " ++ commaList (c.text :: labelText l ::
      cases.flatMap fun k => [literalText k.value, labelText k.label])
  | .ret t v => "ret " ++ t.text ++ " " ++ v.text
  | .retVoid => "ret void"
  | .unreachable => "unreachable"

end Terminator

namespace Action

def text : Action → String
  | .assign x v => "%" ++ x ++ " = " ++ v.text
  | .store t v p => "store " ++ t.text ++ " " ++ commaList [v.text, p.text]
  | .call c => c.text
  | .finish t => t.text

end Action

def Instr.text (i : Instr) : String := i.action.text

/-- The label on a line of its own, then one indented line for each instruction. -/
def Block.text (b : Block) : String :=
  b.label ++ ":\n" ++ String.join (b.instrs.map fun i => "    " ++ i.text ++ "\n")

def Global.text (g : Global) : String :=
  "global @" ++ g.name ++ ": " ++ g.ty.text ++
    match g.init with
    | some c => " = " ++ c.text
    | none => ""

def StructDecl.text? (s : StructDecl) : Option String :=
  s.fields.map fun fields => "struct %" ++ s.name ++ " = " ++ Ty.bodyText fields

namespace Function

def signature (f : Function) : String :=
  let params := f.params.map fun p => p.ty.text ++ " %" ++ p.name
  let all := if f.isVararg then params ++ ["..."] else params
  "@" ++ f.name ++ "(" ++ commaList all ++ ")" ++
    if f.returns = .void then "" else " -> " ++ f.returns.text

/-- The lines of the body: labels indented by two blanks, instructions by six. -/
def bodyLines (f : Function) : List String :=
  f.blocks.flatMap fun b => ("  " ++ b.label ++ ":") :: b.instrs.map fun i => "      " ++ i.text

def text (f : Function) : String :=
  if f.isDeclaration then "declare function " ++ f.signature
  else "\n".intercalate (("function " ++ f.signature ++ " \x7b") :: f.bodyLines ++ ["\x7d"])

end Function

/-- Structs that have a body, then globals, then functions; an empty line after the definitions of
data and after each function. -/
def Program.text (p : Program) : String :=
  let data := p.structs.filterMap StructDecl.text? ++ p.globals.map Global.text
  let head := if data.isEmpty then [] else data ++ [""]
  "\n".intercalate (head ++ p.functions.flatMap fun f => [f.text, ""])

end RangeFlow
