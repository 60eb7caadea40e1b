import RangeFlow.Comparison.Region
import RangeFlow.Proofs.Range.Resize

/-!
# Words that a comparison allows

`c.allowed r` holds every word that stands in relation `c` to a member of `r`.  Each of the ten
relations bounds the word by the least or the greatest member, in one of the two orders.
-/

namespace RangeFlow

namespace Range

variable {r : Range} {x : Nat} {w : Width}

/-- A range depends on the words of its bounds only. -/
theorem ofBounds_congr {l l' u u' : Int} (hl : w.wrap l = w.wrap l') (hu : w.wrap u = w.wrap u') :
    ofBounds w l u = ofBounds w l' u' := by
  simp only [ofBounds, hl, hu]

/-- A range with the word of each integer from `lo` to `hi`, as long as they go around the circle at
most once. -/
theorem wrap_mem_ofBounds (w : Width) (lo hi : Int) {v : Int} (hlo : lo ≤ v) (hhi : v ≤ hi)
    (hcard : hi - lo < w.card) : w.wrap v ∈ ofBounds w lo (hi + 1) := by
  by_cases h : (w.card : Int) ≤ hi - lo + 1
  · have heq : hi + 1 = lo + w.card := by omega
    have hwrap : w.wrap lo = w.wrap (hi + 1) := by
      rw [heq, Width.wrap_eq_wrap, Int.add_emod_right]
    rw [ofBounds, dif_pos hwrap]
    exact mem_full.2 (w.wrap_lt_card v)
  · have hcover : w.wrap v ∈ cover w lo hi := wrap_mem_cover hlo hhi
    rwa [cover, if_neg h] at hcover

/-- Upper bound zero stands for the end of the words. -/
theorem ofBounds_zero (w : Width) (lo : Int) : ofBounds w lo 0 = ofBounds w lo (w.mask + 1) := by
  have hmask := w.mask_add_one
  refine ofBounds_congr rfl ?_
  rw [Width.wrap_eq_wrap, ← hmask]
  simp

/-- The least signed number as upper bound stands for the end of the signed numbers. -/
theorem ofBounds_neg_half (w : Width) (lo : Int) :
    ofBounds w lo (-w.half) = ofBounds w lo (w.half - 1 + 1) := by
  have hc := w.card_eq_half
  have heq : (w.half : Int) - 1 + 1 = -w.half + w.card := by omega
  refine ofBounds_congr rfl ?_
  rw [Width.wrap_eq_wrap, heq, Int.add_emod_right]

theorem mem_inverse (hx : x < r.width.card) (h : x ∉ r) : x ∈ r.inverse := by
  have hl := r.lower_lt
  have hu := r.upper_lt
  unfold inverse
  split
  · rename_i hf
    rw [eq_full_of_isFull hf] at h
    exact absurd (mem_full.2 hx) h
  · split
    · exact mem_full.2 hx
    · rename_i hf he
      have hne : r.lower ≠ r.upper := by
        rcases r.cases_bounds with h' | h' | h' | h' <;> grind
      rw [mem_ofBounds_natCast hu hl hne.symm]
      rw [mem_iff, isWrapped_iff] at h
      grind

theorem notMem_of_mem_inverse (h : x ∈ r.inverse) : x ∉ r := by
  have hl := r.lower_lt
  have hu := r.upper_lt
  unfold inverse at h
  split at h
  · exact absurd h not_mem_empty
  · split at h
    · rename_i he
      rw [eq_empty_of_isEmpty he]
      exact not_mem_empty
    · rename_i hf he
      have hne : r.lower ≠ r.upper := by
        rcases r.cases_bounds with h' | h' | h' | h' <;> grind
      rw [mem_ofBounds_natCast hu hl hne.symm] at h
      rw [mem_iff, isWrapped_iff]
      grind

/-- The only member of a range that is a constant. -/
theorem eq_lower_of_isConstant (hc : r.isConstant = true) (h : x ∈ r) : x = r.lower := by
  simp only [isConstant, Bool.and_eq_true, Bool.not_eq_eq_eq_not, Bool.not_true, beq_iff_eq] at hc
  obtain ⟨hf, hu⟩ := hc
  have hcard := r.width.two_le_card
  have hsize : (r.size : Int) = 1 := by
    simp only [size, hf, Bool.false_eq_true, if_false]
    rw [Width.natCast_wrap, ← hu, Width.natCast_wrap, Int.emod_sub_emod]
    have hone : (r.lower : Int) + 1 - r.lower = 1 := by omega
    rw [hone, Int.emod_eq_of_lt (by omega) (by omega)]
  obtain ⟨i, hi, rfl⟩ := mem_iff_exists_lt_size.1 h
  obtain rfl : i = 0 := by omega
  simpa using r.width.wrap_natCast_of_lt r.lower_lt

end Range

namespace Comparison

open Range

variable {r : Range} {x y : Nat} {w : Width} {c : Comparison}

/-- What a comparison says of two words. -/
theorem holds_iff (hx : x < w.card) (hy : y < w.card) :
    c.holds w.bits x y = true ↔ match c with
      | .eq => x = y
      | .ne => x ≠ y
      | .ult => x < y
      | .ule => x ≤ y
      | .ugt => y < x
      | .uge => y ≤ x
      | .slt => w.signed x < w.signed y
      | .sle => w.signed x ≤ w.signed y
      | .sgt => w.signed y < w.signed x
      | .sge => w.signed y ≤ w.signed x := by
  have hx' : reduce w.bits x = x := w.wrap_natCast_of_lt hx
  have hy' : reduce w.bits y = y := w.wrap_natCast_of_lt hy
  unfold holds Width.signed
  dsimp only
  rw [hx', hy']
  cases c <;> simp

/-- The swapped comparison takes its operands the other way round. -/
theorem holds_swap (c : Comparison) (bits : Nat) (a b : Int) :
    c.swap.holds bits b a = c.holds bits a b := by
  cases c <;> simp [holds, swap, eq_comm, bne_comm]

/-- The inverted comparison holds where the comparison does not. -/
theorem holds_invert (c : Comparison) (bits : Nat) (a b : Int) :
    c.invert.holds bits a b = !c.holds bits a b := by
  cases c <;> simp [holds, invert, bne, ← decide_not]

/-- The words that a comparison with a member allows. -/
theorem mem_allowed (hx : x < r.width.card) (hy : y ∈ r) (h : c.holds r.width.bits x y = true) :
    x ∈ c.allowed r := by
  have hlt := lt_card_of_mem hy
  have hmin := unsignedMin_le_of_mem hy
  have hmax := le_unsignedMax_of_mem hy
  have hempty := not_isEmpty_of_mem hy
  have hmaxlt := unsignedMax_lt_card hempty
  have hsmin := signedMin_le_of_mem hy
  have hsmax := le_signedMax_of_mem hy
  have hwrap := r.width.wrap_natCast_of_lt hx
  have hsigned := r.width.wrap_signed hx
  have hmask := r.width.mask_add_one
  have hlo := r.width.neg_half_le_signed (x := x)
  have hhi := r.width.signed_lt_half hx
  have hc := r.width.card_eq_half
  have hsminge := r.neg_half_le_signedMin
  have hsmaxlt := signedMax_lt_half hy
  rw [holds_iff hx hlt] at h
  unfold allowed
  dsimp only
  rw [hempty]
  simp only [Bool.false_eq_true, if_false]
  cases c with
  | eq =>
    dsimp only at h ⊢
    rw [h]
    exact hy
  | ne =>
    dsimp only at h ⊢
    split
    · rename_i hc
      refine mem_inverse hx fun hxr ↦ h ?_
      rw [eq_lower_of_isConstant hc hxr, eq_lower_of_isConstant hc hy]
    · exact mem_full.2 hx
  | ult =>
    dsimp only at h ⊢
    have hmem := wrap_mem_ofBounds r.width 0 (r.unsignedMax - 1) (v := x)
      (by omega) (by omega) (by omega)
    rwa [if_neg (by omega), ← Int.sub_add_cancel (r.unsignedMax : Int) 1, ← hwrap]
  | ule =>
    dsimp only at h ⊢
    rw [← hwrap]
    exact wrap_mem_ofBounds r.width 0 r.unsignedMax (by omega) (by omega) (by omega)
  | ugt =>
    dsimp only at h ⊢
    rw [if_neg (by omega), ofBounds_zero, ← hwrap]
    exact wrap_mem_ofBounds r.width _ _ (by omega) (by omega) (by omega)
  | uge =>
    dsimp only at h ⊢
    rw [ofBounds_zero, ← hwrap]
    exact wrap_mem_ofBounds r.width _ _ (by omega) (by omega) (by omega)
  | slt =>
    dsimp only at h ⊢
    rw [if_neg (by omega), ← Int.sub_add_cancel r.signedMax 1, ← hsigned]
    exact wrap_mem_ofBounds r.width _ _ (by omega) (by omega) (by omega)
  | sle =>
    dsimp only at h ⊢
    rw [← hsigned]
    exact wrap_mem_ofBounds r.width _ _ (by omega) (by omega) (by omega)
  | sgt =>
    dsimp only at h ⊢
    rw [if_neg (by omega), ofBounds_neg_half, ← hsigned]
    exact wrap_mem_ofBounds r.width _ _ (by omega) (by omega) (by omega)
  | sge =>
    dsimp only at h ⊢
    rw [ofBounds_neg_half, ← hsigned]
    exact wrap_mem_ofBounds r.width _ _ (by omega) (by omega) (by omega)

/-- The words that satisfy a comparison do so with every member. -/
theorem holds_of_mem_satisfying (hx : x ∈ c.satisfying r) (hy : y ∈ r) :
    c.holds r.width.bits x y = true := by
  have hlt := lt_card_of_mem hx
  rw [width_satisfying] at hlt
  by_contra hnot
  refine notMem_of_mem_inverse hx (mem_allowed hlt hy ?_)
  rw [holds_invert]
  simpa using hnot

end Comparison

end RangeFlow
