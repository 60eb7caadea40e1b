/-! # Hexadecimal digits

Bytes are written as two digits each. They are read with letters of either case, and with blanks
between them. -/

namespace RangeFlow.Text

/-- The last `n` hexadecimal digits of a number. -/
def hexDigits : Nat → Nat → List Char
  | 0, _ => []
  | n + 1, v => hexDigits n (v / 16) ++ [Nat.digitChar (v % 16)]

def hex (bs : List UInt8) : String :=
  String.ofList (bs.flatMap fun b => hexDigits 2 b.toNat)

def hexValue? (c : Char) : Option Nat :=
  if '0' ≤ c && c ≤ '9' then some (c.toNat - 48)
  else if 'a' ≤ c && c ≤ 'f' then some (c.toNat - 87)
  else if 'A' ≤ c && c ≤ 'F' then some (c.toNat - 55)
  else none

def isHexBlank (c : Char) : Bool := c = ' ' || (9 ≤ c.toNat && c.toNat ≤ 13)

/-- The bytes written in hexadecimal. -/
def bytesOfHex? : List Char → Option (List UInt8)
  | [] => some []
  | [c] => if isHexBlank c then some [] else none
  | c :: d :: cs =>
    if isHexBlank c then bytesOfHex? (d :: cs)
    else do
      let high ← hexValue? c
      let low ← hexValue? d
      return UInt8.ofNat (high * 16 + low) :: (← bytesOfHex? cs)

end RangeFlow.Text
