import RangeFlow.Cbor.Item

/-! # The order of the members of a set

A set does not keep the order in which its members were written. Up to four numbers are spread
over eight slots by their remainders, and listed slot by slot. -/

namespace RangeFlow.Cbor

/-- The number that decides on the slot: a remainder modulo a prime, in two's complement of 64
bits. -/
def slotKey (v : Int) : Nat :=
  let m := v.natAbs % 0x1fffffffffffffff
  if 0 ≤ v ∨ m = 0 then m else 0x10000000000000000 - (if m = 1 then 2 else m)

/-- Puts an item into a slot, or if that is taken into the next one on its way. The bound is on the
number of slots tried; from the fourteenth on the way goes through all of them. -/
def place (item : Item) : Nat → Nat → Nat → List (Option Item) → List (Option Item)
  | 0, _, _, slots => slots
  | n + 1, slot, mix, slots =>
    match slots[slot]? with
    | some none => slots.set slot (some item)
    | _ => place item n ((slot * 5 + 1 + mix / 32) % 8) (mix / 32) slots

/-- The slots after all members have found their place, if all are integers. -/
def slots? (members : List Item) : Option (List (Option Item)) :=
  members.foldlM (fun slots i =>
    (i.quantity?.bind Quantity.int?).map fun v =>
      place i 24 (slotKey v % 8) (slotKey v) slots) (List.replicate 8 none)

/-- The members of a set in the order in which they are listed. -/
def listed (members : List Item) : List Item :=
  if 4 < members.length then members
  else match slots? members with
    | some slots => slots.filterMap id
    | none => members

end RangeFlow.Cbor
