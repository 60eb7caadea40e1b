import RangeFlow.Cbor.Quantity

/-! # Data items of the concise binary object representation -/

namespace RangeFlow.Cbor

inductive Item
  | int (value : Int)
  | bool (value : Bool)
  | null
  /-- A number that is not written as an integer. -/
  | real (value : Quantity)
  | bytes (value : List UInt8)
  | text (value : String)
  | array (items : List Item)
  | set (items : List Item)
  /-- Entries in the order of their keys' first occurrence, each key once. -/
  | map (entries : List (Item × Item))
  /-- A value that is not looked into, with the number of its parts if it has any. -/
  | other (parts : Option Nat)
deriving Repr

namespace Item

mutual

def beq : Item → Item → Bool
  | .int v, .int w => v == w
  | .bool b, .bool c => b == c
  | .null, .null => true
  | .real p, .real q => decide (p = q)
  | .bytes bs, .bytes cs => bs == cs
  | .text s, .text t => s == t
  | .array is, .array js => beqList is js
  | .set is, .set js => beqList is js
  | .map es, .map fs => beqEntries es fs
  | .other m, .other n => m == n
  | _, _ => false

def beqList : List Item → List Item → Bool
  | [], [] => true
  | i :: is, j :: js => beq i j && beqList is js
  | _, _ => false

def beqEntries : List (Item × Item) → List (Item × Item) → Bool
  | [], [] => true
  | (k, v) :: es, (l, w) :: fs => beq k l && beq v w && beqEntries es fs
  | _, _ => false

end

mutual

/-- The comparison of items decides equality. -/
theorem beq_iff : (i j : Item) → (beq i j = true ↔ i = j)
  | .int v, j => by cases j <;> simp [beq]
  | .bool b, j => by cases j <;> simp [beq]
  | .null, j => by cases j <;> simp [beq]
  | .real q, j => by cases j <;> simp [beq]
  | .bytes bs, j => by cases j <;> simp [beq]
  | .text s, j => by cases j <;> simp [beq]
  | .array is, j => by cases j <;> simp [beq, beqList_iff is]
  | .set is, j => by cases j <;> simp [beq, beqList_iff is]
  | .map es, j => by cases j <;> simp [beq, beqEntries_iff es]
  | .other m, j => by cases j <;> simp [beq]

theorem beqList_iff : (is js : List Item) → (beqList is js = true ↔ is = js)
  | [], js => by cases js <;> simp [beqList]
  | i :: is, js => by cases js <;> simp [beqList, beq_iff i, beqList_iff is]

theorem beqEntries_iff : (es fs : List (Item × Item)) → (beqEntries es fs = true ↔ es = fs)
  | [], fs => by cases fs <;> simp [beqEntries]
  | (k, v) :: es, fs => by
    cases fs <;> simp [beqEntries, beq_iff k, beq_iff v, beqEntries_iff es, Prod.ext_iff]

end

instance : DecidableEq Item := fun i j => decidable_of_iff (beq i j = true) (beq_iff i j)

/-- The value of a number. Truth values count as one and zero. -/
def quantity? : Item → Option Quantity
  | .int v => some (.ofInt v)
  | .bool b => some (.ofInt (if b then 1 else 0))
  | .real q => some q
  | _ => none

def int? : Item → Option Int
  | .int v => some v
  | .bool b => some (if b then 1 else 0)
  | _ => none

/-- Whether two items are one key: numbers by their value, however they are written. -/
def sameKey (i j : Item) : Bool :=
  match i.quantity?, j.quantity? with
  | some p, some q => p.same q
  | _, _ => decide (i = j)

/-- Adds an entry; a key that is present keeps its place and its form. -/
def addEntry (entries : List (Item × Item)) (key value : Item) : List (Item × Item) :=
  if entries.any fun e => e.1.sameKey key then
    entries.map fun e => if e.1.sameKey key then (e.1, value) else e
  else entries ++ [(key, value)]

/-- Adds a member that is not there yet. -/
def addMember (members : List Item) (item : Item) : List Item :=
  if members.any fun i => i.sameKey item then members else members ++ [item]

end Item

end RangeFlow.Cbor
