import RangeFlow.Cbor.Item

/-! # Writing data items

Heads have the shortest form and lengths are always given. Integers from 2^64 on are tagged byte
strings. -/

namespace RangeFlow.Cbor

/-- The last `n` bytes of a number, the most significant one first. -/
def bigEndian : Nat → Nat → List UInt8
  | 0, _ => []
  | n + 1, v => bigEndian n (v / 256) ++ [UInt8.ofNat (v % 256)]

/-- The number written by bytes, the most significant one first. -/
def ofBigEndian (bs : List UInt8) : Nat := bs.foldl (fun v b => v * 256 + b.toNat) 0

/-- The fewest bytes that hold a number, none for zero. -/
def byteLength (v : Nat) : Nat := if v = 0 then 0 else v.log2 / 8 + 1

/-- The head of an item: its kind and a number below 2^64, in the shortest form. -/
def head (major v : Nat) : List UInt8 :=
  let first (info : Nat) : UInt8 := UInt8.ofNat (major * 32 + info)
  if v < 24 then [first v]
  else if v < 0x100 then first 24 :: bigEndian 1 v
  else if v < 0x10000 then first 25 :: bigEndian 2 v
  else if v < 0x100000000 then first 26 :: bigEndian 4 v
  else first 27 :: bigEndian 8 v

/-- A number of a kind: in its head, or from 2^64 on as a byte string without leading zeros after
a tag. -/
def encodeNat (major tag v : Nat) : List UInt8 :=
  if v < 0x10000000000000000 then head major v
  else head 6 tag ++ head 2 (byteLength v) ++ bigEndian (byteLength v) v

def encodeInt (v : Int) : List UInt8 :=
  if 0 ≤ v then encodeNat 0 2 v.toNat else encodeNat 1 3 (-1 - v).toNat

def encodeText (s : String) : List UInt8 :=
  let bytes := s.toUTF8.toList
  head 3 bytes.length ++ bytes

namespace Item

mutual

/-- The bytes of an item. What cannot be looked into is written as undefined. -/
def encode : Item → List UInt8
  | .int v => encodeInt v
  | .bool b => head 7 (if b then 21 else 20)
  | .null => head 7 22
  | .bytes bs => head 2 bs.length ++ bs
  | .text s => encodeText s
  | .array items => head 4 items.length ++ encodeList items
  | .set items => head 6 258 ++ head 4 items.length ++ encodeList items
  | .map entries => head 5 entries.length ++ encodeEntries entries
  | .real _ | .other _ => head 7 23

def encodeList : List Item → List UInt8
  | [] => []
  | i :: is => encode i ++ encodeList is

def encodeEntries : List (Item × Item) → List UInt8
  | [] => []
  | (k, v) :: es => encode k ++ encode v ++ encodeEntries es

end

end Item

end RangeFlow.Cbor
