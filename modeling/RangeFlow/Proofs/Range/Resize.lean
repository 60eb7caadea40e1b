import RangeFlow.Proofs.Range.Lattice
import RangeFlow.Range.Conform
import RangeFlow.Range.Resize

/-!
# Members at another width

A member of a range is a member of the range at any other width, once it is brought there itself:
by reduction, or through its signed number.  The signed order is carried to the unsigned one by a
shift of half the circle, under which distances stay what they are.
-/

namespace RangeFlow

namespace Range

variable {r : Range} {x : Nat} {v : Width}

/-! ## Extension by zeros and truncation -/

theorem mem_zeroExtend (hv : r.width.bits ≤ v.bits) (h : x ∈ r) : x ∈ r.zeroExtend v := by
  have hcard := Width.card_le_card hv
  have hx := lt_card_of_mem h
  have hmask := r.width.mask_add_one
  have hwrap : v.wrap x = x := v.wrap_natCast_of_lt (by omega)
  have hempty := not_isEmpty_of_mem h
  unfold zeroExtend
  split
  · exact h
  · rw [hempty]
    simp only [Bool.false_eq_true, if_false]
    split
    · rw [← hwrap]
      exact wrap_mem_cover (by omega) (by omega)
    · rename_i hc
      simp only [Bool.or_eq_true, not_or, Bool.and_eq_true, not_and, bne_iff_ne, ne_eq,
        not_not, Bool.not_eq_true] at hc
      split
      · rename_i hw
        have hmem := (mem_iff_of_isWrapped hw).1 h
        have hupper := hc.2 hw
        rw [← hwrap]
        exact wrap_mem_cover (by omega) (by omega)
      · rename_i hw
        have hplain : r.IsPlain := ⟨hc.1, hempty, by simpa using hw⟩
        have hlt := hplain.lower_lt_upper
        have hmem := hplain.mem_iff.1 h
        have hl := r.lower_lt
        have hu := r.upper_lt
        rw [mem_ofBounds_natCast (by omega) (by omega) (by omega)]
        omega

/-- A truncated range holds the members modulo the smaller number of words. -/
theorem wrap_mem_truncate (hv : v.bits ≤ r.width.bits) (h : x ∈ r) : v.wrap x ∈ r.truncate v := by
  have hempty := not_isEmpty_of_mem h
  unfold truncate
  split
  · rename_i heq
    rw [heq, r.width.wrap_natCast_of_lt (lt_card_of_mem h)]
    exact h
  · rw [hempty]
    simp only [Bool.false_eq_true, if_false]
    split
    · exact mem_full.2 (v.wrap_lt_card _)
    · obtain ⟨i, hi, rfl⟩ := mem_iff_exists_lt_size.1 h
      rw [Width.wrap_wrap hv]
      exact wrap_mem_cover (by omega) (by omega)

/-- A member of a range is one at any width. -/
theorem wrap_mem_resize (h : x ∈ r) : v.wrap x ∈ r.resize v := by
  unfold resize
  split
  · rename_i hlt
    have hcard := Width.card_le_card hlt.le
    have hx := lt_card_of_mem h
    rw [v.wrap_natCast_of_lt (by omega)]
    exact mem_zeroExtend hlt.le h
  · exact wrap_mem_truncate (by omega) h

@[simp] theorem resize_width (r : Range) : r.resize r.width = r := by
  simp [resize, truncate]

/-- A range brought to the width of a stored one holds the words of its members there. -/
theorem wrap_mem_conform {stored : Range} (h : x ∈ r) :
    stored.width.wrap x ∈ stored.conform r := by
  unfold conform
  split
  · rename_i hw
    rw [hw, r.width.wrap_natCast_of_lt (lt_card_of_mem h)]
    exact h
  · exact wrap_mem_resize h

/-! ## Signed members -/

/-- The shift by half the circle moves the members and nothing else. -/
theorem wrap_mem_signShift (hx : x < r.width.card) :
    r.width.wrap (x + r.width.half) ∈ r.signShift ↔ x ∈ r := by
  unfold signShift
  split
  · rename_i hc
    rw [Bool.or_eq_true] at hc
    rcases hc with hf | he
    · rw [eq_full_of_isFull hf, mem_full, mem_full]
      exact iff_of_true (r.width.wrap_lt_card _) hx
    · rw [eq_empty_of_isEmpty he]
      exact iff_of_false not_mem_empty not_mem_empty
  · rename_i hc
    simp only [Bool.or_eq_true, not_or, Bool.not_eq_true] at hc
    have hl := r.lower_lt
    have hu := r.upper_lt
    have hne : r.lower ≠ r.upper := by
      rcases r.cases_bounds with h' | h' | h' | h' <;> grind
    have hbounds : r.width.wrap ((r.lower : Int) + r.width.half) ≠
        r.width.wrap ((r.upper : Int) + r.width.half) := by
      rw [ne_eq, Width.wrap_eq_wrap, Int.emod_add_cancel_right, ← Width.wrap_eq_wrap,
        r.width.wrap_natCast_of_lt hl, r.width.wrap_natCast_of_lt hu]
      exact hne
    -- The shift keeps the distance from the lower bound and the size.
    have hsize : (r.size : Int) = ((r.upper : Int) - r.lower) % r.width.card := by
      simp only [size, hc.1, Bool.false_eq_true, if_false]
      exact Width.natCast_wrap _ _
    have h₁ : ((r.width.wrap (x + r.width.half) : Int) - (r.lower + r.width.half)) % r.width.card =
        ((x : Int) - r.lower) % r.width.card := by
      rw [Width.natCast_wrap, Int.emod_sub_emod]
      congr 1
      omega
    have h₂ : ((r.upper : Int) + r.width.half - (r.lower + r.width.half)) =
        (r.upper : Int) - r.lower := by omega
    rw [mem_ofBounds_iff_dist hbounds, mem_iff_dist, h₁, h₂, hsize]
    exact and_congr_left fun _ ↦ iff_of_true (r.width.wrap_lt_card _) hx

/-- A member moved by half the circle lies in the shifted range. -/
theorem mem_signShift (h : x ∈ r) : r.width.wrap (x + r.width.half) ∈ r.signShift :=
  (wrap_mem_signShift (lt_card_of_mem h)).2 h

theorem signedMin_le_of_mem (h : x ∈ r) : r.signedMin ≤ r.width.signed x := by
  have hshift := unsignedMin_le_of_mem (mem_signShift h)
  have heq := r.width.wrap_add_half (lt_card_of_mem h)
  unfold signedMin
  omega

theorem le_signedMax_of_mem (h : x ∈ r) : r.width.signed x ≤ r.signedMax := by
  have hshift := le_unsignedMax_of_mem (mem_signShift h)
  have heq := r.width.wrap_add_half (lt_card_of_mem h)
  unfold signedMax
  omega

/-- The least signed member is a signed value of the width. -/
theorem neg_half_le_signedMin (r : Range) : -(r.width.half : Int) ≤ r.signedMin := by
  unfold signedMin
  omega

/-- The greatest signed member is a signed value of the width. -/
theorem signedMax_lt_half (h : x ∈ r) : r.signedMax < r.width.half := by
  have hlt := unsignedMax_lt_card (not_isEmpty_of_mem (mem_signShift h))
  have hc := r.width.card_eq_half
  rw [width_signShift] at hlt
  unfold signedMax
  omega

/-- The signed number of a member is one of those the extended range stands for. -/
theorem wrap_signed_mem_signExtend (h : x ∈ r) :
    v.wrap (r.width.signed x) ∈ r.signExtend v := by
  unfold signExtend
  split
  · rename_i heq
    rw [heq, r.width.wrap_signed (lt_card_of_mem h)]
    exact h
  · rw [not_isEmpty_of_mem h]
    exact wrap_mem_cover (signedMin_le_of_mem h) (le_signedMax_of_mem h)

/-! ## Unchecked targets -/

theorem cardWidth_bits (w : Width) : cardWidth w.bits = w.counted := by
  have hpos : 0 < (w.bits : Int).toNat := by simpa using w.bits_pos
  have hlt : ¬(w.bits : Int) < 0 := by omega
  unfold cardWidth Width.ofInt?
  rw [if_neg hlt, dif_pos hpos]
  rfl

/-- A sign extension to a number of bits succeeds if they are no fewer than before and their words
can be counted. -/
theorem signExtendAt_eq_ok {r q : Range} {w : Width} :
    Fault.ofRange (r.signExtendAt w.bits) = .ok q ↔
      r.width.bits ≤ w.bits ∧ countable w.bits = .ok () ∧ q = r.signExtend w := by
  unfold signExtendAt
  rw [cardWidth_bits, Width.counted]
  by_cases hbits : (w.bits : Int) < r.width.bits
  · rw [if_pos hbits]
    constructor
    · rintro ⟨⟩
    · rintro ⟨hle, -⟩
      omega
  · rw [if_neg hbits]
    cases hw : countable w.bits with
    | error e =>
      constructor
      · rintro ⟨⟩
      · rintro ⟨-, ⟨⟩, -⟩
    | ok =>
      constructor
      · rintro ⟨⟩
        exact ⟨by omega, rfl, rfl⟩
      · rintro ⟨-, -, rfl⟩
        rfl

end Range

end RangeFlow
