import RangeFlow.Text.Hex
import RangeFlow.Text.Invisible

/-! # Quoted texts

A text stands between single quotes, or between double quotes if it has single quotes and no
double ones. The closing quote, backslashes and characters without a visible form are escaped. -/

namespace RangeFlow.Text

/-- A character by its code point, in as many digits as its size asks for. -/
def numbered (c : Char) : List Char :=
  if c.toNat < 0x100 then '\\' :: 'x' :: hexDigits 2 c.toNat
  else if c.toNat < 0x10000 then '\\' :: 'u' :: hexDigits 4 c.toNat
  else '\\' :: 'U' :: hexDigits 8 c.toNat

def quoteChar (s : String) : Char :=
  if s.contains '\'' && !s.contains '"' then '"' else '\''

def escapeChar (quote c : Char) : List Char :=
  if c = quote || c = '\\' then ['\\', c]
  else if c = '\n' then ['\\', 'n']
  else if c = '\r' then ['\\', 'r']
  else if c = '\t' then ['\\', 't']
  else if isInvisible c then numbered c
  else [c]

def quoted (s : String) : String :=
  let q := quoteChar s
  String.ofList (q :: s.toList.flatMap (escapeChar q) ++ [q])

end RangeFlow.Text
