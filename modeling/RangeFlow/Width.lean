/-! # Widths of machine words

A word of a width is a natural number below `w.card`, two to the power of its bits. Integers are
brought to a width by reduction modulo this number, and a word stands for a signed number by two's
complement. -/

namespace RangeFlow

/-- The number of words of so many bits. -/
def wordCount (bits : Nat) : Nat := Nat.pow 2 bits

theorem wordCount_succ (bits : Nat) : wordCount (bits + 1) = wordCount bits * 2 := rfl

theorem wordCount_pos (bits : Nat) : 0 < wordCount bits := by
  induction bits with
  | zero => decide
  | succ n ih =>
    rw [wordCount_succ]
    omega

/-- Reduction of an integer modulo the number of words. -/
def reduce (bits : Nat) (v : Int) : Nat := (v % (wordCount bits : Int)).toNat

theorem reduce_lt (bits : Nat) (v : Int) : reduce bits v < wordCount bits := by
  have hpos := wordCount_pos bits
  have h0 := Int.emod_nonneg v (b := wordCount bits) (by omega)
  have h1 := Int.emod_lt_of_pos v (b := wordCount bits) (by omega)
  unfold reduce
  omega

/-- The signed number a word stands for: words in the upper half are negative. -/
def toSigned (bits : Nat) (v : Int) : Int :=
  if (wordCount bits : Int) - 2 < 2 * v then v - wordCount bits else v

/-- The least and the greatest integer of a number of bits, with or without a sign. -/
def intBounds (signed : Bool) (bits : Nat) : Int × Int :=
  if signed then (-(wordCount (bits - 1) : Int), (wordCount (bits - 1) : Int) - 1)
  else (0, (wordCount bits : Int) - 1)

/-- The signed number of an integer that has to be a word. -/
def toSigned? (bits v : Int) : Option Int :=
  if 0 ≤ bits ∧ 0 ≤ v ∧ v ≤ (intBounds false bits.toNat).2 then some (toSigned bits.toNat v)
  else none

/-- A positive number of bits. -/
structure Width where
  bits : Nat
  bits_pos : 0 < bits
deriving DecidableEq, Repr

namespace Width

def one : Width := ⟨1, by decide⟩

/-- The number of words of this width. -/
def card (w : Width) : Nat := wordCount w.bits

def mask (w : Width) : Nat := w.card - 1

/-- The weight of the sign bit. -/
def half (w : Width) : Nat := wordCount (w.bits - 1)

/-- The word of an integer. -/
def wrap (w : Width) (v : Int) : Nat := reduce w.bits v

theorem card_eq_half (w : Width) : w.card = w.half * 2 := by
  have h := w.bits_pos
  rw [card, half, ← wordCount_succ, Nat.sub_add_cancel h]

/-- There are at least two words of a width. -/
theorem two_le_card (w : Width) : 2 ≤ w.card := by
  have h := w.card_eq_half
  have hpos : 0 < w.half := wordCount_pos _
  omega

theorem mask_lt_card (w : Width) : w.mask < w.card := by
  have := w.two_le_card
  unfold mask
  omega

theorem card_pos (w : Width) : 0 < w.card := by
  have := w.two_le_card
  omega

theorem wrap_lt_card (w : Width) (v : Int) : w.wrap v < w.card := reduce_lt w.bits v

end Width

end RangeFlow
