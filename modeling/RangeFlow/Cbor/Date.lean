/-! # Dates and times in texts

A date is written `2013-03-21`, and a time on it `2013-03-21T20:04:00Z`, with a fraction of a second
and a distance from the zero meridian if there are any. -/

namespace RangeFlow.Cbor.Date

def number? (cs : List Char) : Option Nat :=
  if cs.all Char.isDigit then some (cs.foldl (fun n c => n * 10 + (c.toNat - '0'.toNat)) 0)
  else none

def isLeap (year : Nat) : Bool := year % 4 = 0 && (year % 100 != 0 || year % 400 = 0)

def daysIn (year month : Nat) : Nat :=
  match month with
  | 2 => if isLeap year then 29 else 28
  | 4 | 6 | 9 | 11 => 30
  | _ => 31

/-- Whether numbers name a day of the calendar. -/
def isDay (year month day : Nat) : Bool :=
  1 ≤ year && 1 ≤ month && month ≤ 12 && 1 ≤ day && day ≤ daysIn year month

/-- What characters begin with that have the form of a date: whether there is such a day, and the
characters after it. -/
def day? : List Char → Option (Bool × List Char)
  | a :: b :: c :: d :: '-' :: e :: f :: '-' :: g :: h :: rest => do
    let year ← number? [a, b, c, d]
    let month ← number? [e, f]
    let day ← number? [g, h]
    return (isDay year month day, rest)
  | _ => none

/-- Whether a time of day exists, and the characters after it. -/
def time? : List Char → Option (Bool × List Char)
  | a :: b :: ':' :: c :: d :: ':' :: e :: f :: rest => do
    let hour ← number? [a, b]
    let minute ← number? [c, d]
    let second ← number? [e, f]
    return (hour < 24 && minute < 60 && second < 60, rest)
  | _ => none

def fraction? : List Char → Option (List Char)
  | '.' :: cs => if cs.head?.any Char.isDigit then some (cs.dropWhile Char.isDigit) else none
  | cs => some cs

/-- Whether a distance from the zero meridian is one: less than a day. -/
def zone? : List Char → Option Bool
  | ['Z'] => some true
  | [sign, a, b, ':', c, d] => do
    if sign != '+' && sign != '-' then none
    let hours ← number? [a, b]
    let minutes ← number? [c, d]
    return hours * 60 + minutes < 24 * 60
  | _ => none

/-- Whether a text that has the form of a time on a date names one. -/
def timestamp? (s : String) : Option Bool := do
  let (isDay, rest) ← day? s.toList
  match rest with
  | 'T' :: rest =>
    let (isTime, rest) ← time? rest
    return isDay && isTime && (← zone? (← fraction? rest))
  | _ => none

/-- Whether a text that starts like a date names a day. -/
def date? (s : String) : Option Bool := (day? s.toList).map Prod.fst

end RangeFlow.Cbor.Date
