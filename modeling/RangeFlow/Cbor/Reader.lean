import RangeFlow.Cbor.Tag

/-! # Reading data items

The reader takes any well-formed item, also with lengths that are not in the shortest form or are
left open, and leaves the bytes after it alone. Items that are marked as shared, and within a
namespace texts and byte strings, can be referred to by their number. -/

namespace RangeFlow.Cbor

/-- The bytes that are left, and what references can name. -/
structure Input where
  rest : List UInt8
  /-- The shared items, as far as they are known. -/
  shared : List (Option Item)
  /-- The numbered strings of the namespace, if there is one. -/
  strings : Option (List Item)

abbrev Reader := StateT Input (Except ReadError)

def byte : Reader UInt8 := do
  let s ← get
  match s.rest with
  | b :: bs => set { s with rest := bs }; return b
  | [] => throw .ended

def take (n : Nat) : Reader (List UInt8) := do
  let s ← get
  let taken := s.rest.take n
  if taken.length < n then throw .ended
  set { s with rest := s.rest.drop n }
  return taken

/-- The number that goes with the low bits of a first byte. -/
def argument (info : Nat) : Reader Nat := do
  if info < 24 then return info
  match info with
  | 24 => return ofBigEndian (← take 1)
  | 25 => return ofBigEndian (← take 2)
  | 26 => return ofBigEndian (← take 4)
  | 27 => return ofBigEndian (← take 8)
  | _ => throw .invalid

/-- The number of bytes or items that follow. From 2^63 on it is refused at once. -/
def length (info : Nat) : Reader Nat := do
  let n ← argument info
  if 0x8000000000000000 ≤ n then throw .invalid
  return n

/-- The low bits of a first byte that leave a length open, or end what it opened. -/
def openInfo : Nat := 31

/-- The kind and the low bits of a first byte. -/
def first : Reader (Nat × Nat) := do
  let b ← byte
  return (b.toNat / 32, b.toNat % 32)

/-- The length from which on a string is numbered: a reference should not be longer than it. -/
def leastLength (count : Nat) : Nat :=
  if count < 24 then 3
  else if count < 0x100 then 4
  else if count < 0x10000 then 5
  else if count < 0x100000000 then 7
  else 11

/-- Gives a string of so many bytes a number, if it is in a namespace and long enough. -/
def number (item : Item) (length : Nat) : Reader Unit :=
  modify fun s => { s with
    strings := s.strings.map fun known =>
      if leastLength known.length ≤ length then known ++ [item] else known }

def decodeText (bs : List UInt8) : Reader String :=
  match String.fromUTF8? ⟨bs.toArray⟩ with
  | some s => return s
  | none => throw .invalid

def byteString (info : Nat) : Reader (List UInt8) := do
  let bs ← take (← length info)
  number (.bytes bs) bs.length
  return bs

def textString (info : Nat) : Reader String := do
  let bs ← take (← length info)
  let s ← decodeText bs
  number (.text s) bs.length
  return s

/-- The pieces of a string of open length, up to the end mark. -/
def pieces {α : Type} (major : Nat) (piece : Nat → Reader α) : Nat → Reader (List α)
  | 0 => throw .ended
  | n + 1 => do
    let (m, info) ← first
    if m = 7 ∧ info = openInfo then return []
    if m ≠ major then throw .invalid
    let p ← piece info
    return p :: (← pieces major piece n)

/-- A truth value, a mark or a number that is not an integer. -/
def special (info : Nat) : Reader Item := do
  match info with
  | 20 => return .bool false
  | 21 => return .bool true
  | 22 => return .null
  | 23 => return .other none
  | 24 =>
    let _ ← byte
    return .other (some 1)
  | 25 => return .real (.ofBits 5 10 (ofBigEndian (← take 2)))
  | 26 => return .real (.ofBits 8 23 (ofBigEndian (← take 4)))
  | 27 => return .real (.ofBits 11 52 (ofBigEndian (← take 8)))
  | _ => if info < 20 then return .other (some 1) else throw .invalid

/-- The item that a reference names. -/
def reference (known : List (Option Item)) (number : Item) : Reader Item :=
  match number with
  | .int (.ofNat n) =>
    match known[n]? with
    | some (some i) => return i
    | _ => throw .invalid
  | _ => throw .invalid

/-- Reserves the number of a shared item. An array or a map can be referred to from within. -/
def reserve : Reader Nat := do
  let s ← get
  let isContainer := s.rest.head?.any fun b => b.toNat / 32 = 4 || b.toNat / 32 = 5
  let mark : Option Item := if isContainer then some (.other none) else none
  set { s with shared := s.shared ++ [mark] }
  return s.shared.length

/-- Makes a shared item known. Truth values and marks are never shared. -/
def share (index : Nat) (item : Item) : Reader Unit :=
  match item with
  | .bool _ | .null => return
  | item => modify fun s => { s with shared := s.shared.set index (some item) }

/-- Whether the bytes begin with a reference to a shared item. -/
def atReference : Reader Bool := return (← get).rest.take 2 = [0xd8, 0x1d]

/-- Refuses a key that is an item of its own elsewhere. -/
def checkKey (isReference : Bool) (key : Item) : Reader Unit :=
  match isReference, key with
  | true, .array _ | true, .map _ | true, .set _ => throw .badKey
  | _, _ => return

mutual

/-- Reads an item, or nothing at an end mark. The bound is on the depth of calls; no more than four
of them go with a byte. -/
def item? : Nat → Reader (Option Item)
  | 0 => throw .ended
  | n + 1 => do
    let (major, info) ← first
    match major with
    | 0 => return some (.int (← argument info))
    | 1 => return some (.int (-1 - (← argument info)))
    | 2 =>
      if info = openInfo then return some (.bytes (← pieces 2 byteString n).flatten)
      else return some (.bytes (← byteString info))
    | 3 =>
      if info = openInfo then return some (.text (String.join (← pieces 3 textString n)))
      else return some (.text (← textString info))
    | 4 =>
      if info = openInfo then return some (.array (← openItems n))
      else return some (.array (← items n (← length info)))
    | 5 =>
      if info = openInfo then return some (.map (← openEntries n []))
      else return some (.map (← entries n (← argument info) []))
    | 6 => return some (← taggedItem n (← argument info))
    | _ => if info = openInfo then return none else return some (← special info)

/-- Reads an item; an end mark that ends nothing is an item without a value. -/
def item : Nat → Reader Item
  | 0 => throw .ended
  | n + 1 => return (← item? n).getD (.other none)

def taggedItem : Nat → Nat → Reader Item
  | 0, _ => throw .ended
  | n + 1, tag => do
    match tag with
    | 25 =>
      match (← get).strings with
      | none => throw .invalid
      | some _ =>
        let number ← item n
        reference (((← get).strings.getD []).map some) number
    | 28 =>
      let index ← reserve
      let i ← item n
      share index i
      return i
    | 29 =>
      let number ← item n
      reference (← get).shared number
    | 256 =>
      let outer := (← get).strings
      modify fun s => { s with strings := some [] }
      let i ← item n
      modify fun s => { s with strings := outer }
      return i
    | 55799 => item n
    | tag => liftM (tagged tag (← item n))

def items : Nat → Nat → Reader (List Item)
  | 0, _ => throw .ended
  | _ + 1, 0 => return []
  | n + 1, count + 1 => do
    let i ← item n
    return i :: (← items n count)

def openItems : Nat → Reader (List Item)
  | 0 => throw .ended
  | n + 1 => do
    match ← item? n with
    | some i => return i :: (← openItems n)
    | none => return []

/-- Reads as many entries as said, and adds them to those there are. -/
def entries : Nat → Nat → List (Item × Item) → Reader (List (Item × Item))
  | 0, _, _ => throw .ended
  | _ + 1, 0, found => return found
  | n + 1, count + 1, found => do
    let isReference ← atReference
    let key ← item n
    let value ← item n
    checkKey isReference key
    entries n count (Item.addEntry found key value)

def openEntries : Nat → List (Item × Item) → Reader (List (Item × Item))
  | 0, _ => throw .ended
  | n + 1, found => do
    let isReference ← atReference
    match ← item? n with
    | some key =>
      let value ← item n
      checkKey isReference key
      openEntries n (Item.addEntry found key value)
    | none => return found

end

def decode (bs : List UInt8) : Except ReadError Item := do
  let (i, _) ← (item (4 * bs.length + 4)).run ⟨bs, [], none⟩
  return i

end RangeFlow.Cbor
