import Mathlib.Algebra.Group.Basic
import Mathlib.Algebra.Group.Int.Defs
import RangeFlow.Width

/-!
# Words of a width

The words of a width lie on a circle.  An integer has a word there, its residue, and a word has a
signed number; reduction to fewer bits can be done in steps.
-/

namespace RangeFlow

namespace Width

def byte : Width := ⟨8, by decide⟩

/-- The width of two bytes. -/
def word : Width := ⟨16, by decide⟩

variable (w : Width)

/-! ## Residues -/

theorem natCast_wrap (v : Int) : (w.wrap v : Int) = v % w.card :=
  Int.toNat_of_nonneg (Int.emod_nonneg v (by have := w.card_pos; unfold card at this; omega))

/-- A word is its own word. -/
@[simp] theorem wrap_natCast_of_lt {x : Nat} (h : x < w.card) : w.wrap x = x := by
  have := w.natCast_wrap x
  rw [Int.emod_eq_of_lt (by omega) (by omega)] at this
  omega

@[simp] theorem wrap_zero : w.wrap 0 = 0 := w.wrap_natCast_of_lt w.card_pos

theorem mask_add_one : w.mask + 1 = w.card := by
  have := w.card_pos
  unfold mask
  omega

/-- Integers have the same word iff they differ by a multiple of the number of words. -/
theorem wrap_eq_wrap {u v : Int} : w.wrap u = w.wrap v ↔ u % w.card = v % w.card := by
  rw [← w.natCast_wrap, ← w.natCast_wrap]
  omega

/-! Sums and differences may be reduced at any time. -/

theorem wrap_wrap_add (u v : Int) : w.wrap ((w.wrap u : Int) + v) = w.wrap (u + v) := by
  rw [w.wrap_eq_wrap, w.natCast_wrap, Int.emod_add_emod]

theorem wrap_add_wrap (u v : Int) : w.wrap (u + (w.wrap v : Int)) = w.wrap (u + v) := by
  rw [w.wrap_eq_wrap, w.natCast_wrap, Int.add_emod_emod]

theorem wrap_wrap_sub (u v : Int) : w.wrap ((w.wrap u : Int) - v) = w.wrap (u - v) := by
  rw [w.wrap_eq_wrap, w.natCast_wrap, Int.emod_sub_emod]

theorem wrap_sub_wrap (u v : Int) : w.wrap (u - (w.wrap v : Int)) = w.wrap (u - v) := by
  rw [w.wrap_eq_wrap, w.natCast_wrap, Int.sub_emod_emod]

/-- The first integer from `l` on that has a given word. -/
theorem wrap_add_dist (l : Int) {x : Nat} (h : x < w.card) :
    w.wrap (l + ((x : Int) - l) % w.card) = x := by
  have hmod : (l + ((x : Int) - l) % w.card) % w.card = (x : Int) % w.card := by
    rw [Int.add_emod_emod, add_sub_cancel]
  rw [w.wrap_eq_wrap.2 hmod, w.wrap_natCast_of_lt h]

/-- The word before another one on the circle. -/
def before (x : Nat) : Nat := if x = 0 then w.card - 1 else x - 1

/-! ## Other widths -/

theorem card_le_card {v w : Width} (h : v.bits ≤ w.bits) : v.card ≤ w.card :=
  Nat.pow_le_pow_right (by decide) h

/-- The number of words of a smaller width divides that of a larger one. -/
theorem card_dvd_card {v w : Width} (h : v.bits ≤ w.bits) : v.card ∣ w.card :=
  Nat.pow_dvd_pow 2 h

/-- Reduction to fewer bits can be done in two steps. -/
theorem wrap_wrap {v w : Width} (h : v.bits ≤ w.bits) (z : Int) : v.wrap (w.wrap z) = v.wrap z := by
  rw [wrap_eq_wrap, w.natCast_wrap]
  exact Int.emod_emod_of_dvd z (Int.natCast_dvd_natCast.2 (card_dvd_card h))

/-! ## Signed numbers -/

theorem half_pos : 0 < w.half := wordCount_pos _

def signed (x : Nat) : Int := toSigned w.bits x

/-- Words of the upper half stand for negative numbers. -/
theorem signed_eq {x : Nat} : w.signed x = if w.half ≤ x then (x : Int) - w.card else x := by
  have hc := w.card_eq_half
  have hcard : wordCount w.bits = w.card := rfl
  unfold signed toSigned
  rw [hcard]
  split <;> split <;> omega

/-- A word is found again from its signed number. -/
theorem wrap_signed {x : Nat} (h : x < w.card) : w.wrap (w.signed x) = x := by
  have hmod : w.signed x % w.card = (x : Int) % w.card := by
    rw [signed_eq]
    split
    · exact Int.sub_emod_right (x : Int) w.card
    · rfl
  rw [w.wrap_eq_wrap.2 hmod, w.wrap_natCast_of_lt h]

/-- The shift that carries the signed order to the unsigned one. -/
theorem wrap_add_half {x : Nat} (h : x < w.card) :
    (w.wrap (x + w.half) : Int) = w.signed x + w.half := by
  have hc := w.card_eq_half
  have hpos := w.half_pos
  rw [natCast_wrap, signed_eq]
  split
  · rw [← Int.sub_emod_right, Int.emod_eq_of_lt (by omega) (by omega)]
    omega
  · rw [Int.emod_eq_of_lt (by omega) (by omega)]

/-- Signed numbers are at least minus half the number of words. -/
theorem neg_half_le_signed {x : Nat} : -(w.half : Int) ≤ w.signed x := by
  have hc := w.card_eq_half
  rw [signed_eq]
  split <;> omega

/-- Signed numbers are below half the number of words. -/
theorem signed_lt_half {x : Nat} (h : x < w.card) : w.signed x < w.half := by
  have hc := w.card_eq_half
  rw [signed_eq]
  split <;> omega

end Width

end RangeFlow
