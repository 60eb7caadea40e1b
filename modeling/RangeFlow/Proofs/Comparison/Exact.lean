import RangeFlow.Proofs.Comparison.Region

/-!
# The regions of a comparison are exact

A word allowed by a comparison with a range is in fact related to a member.  Which member depends on
the relation: for an order it is the least or the greatest one, so both orders need their extremes
to be members; for `ne` any member but the word itself does, and a range that is no constant has
two.  The satisfying words are the complement of what the inverted comparison allows, so they are
exact as well.
-/

namespace RangeFlow

namespace Width

variable (w : Width)

/-- Two shifts by half the circle are one whole turn. -/
theorem wrap_wrap_add_half {x : Nat} (h : x < w.card) :
    w.wrap (w.wrap (x + w.half) + w.half) = x := by
  have hc := w.card_eq_half
  have heq : (x : Int) + w.half + w.half = x + w.card := by omega
  rw [← w.wrap_natCast_of_lt h, wrap_eq_wrap, natCast_wrap, Int.emod_add_emod,
    w.wrap_natCast_of_lt h, heq, Int.add_emod_right]

/-- An integer between the least and the greatest signed number is the one of its word. -/
theorem signed_wrap {v : Int} (hlo : -(w.half : Int) ≤ v) (hhi : v < w.half) :
    w.signed (w.wrap v) = v := by
  have hc := w.card_eq_half
  have hshift := w.wrap_add_half (w.wrap_lt_card v)
  rw [natCast_wrap, natCast_wrap, Int.emod_add_emod, Int.emod_eq_of_lt (by omega) (by omega)]
    at hshift
  omega

end Width

namespace Range

variable {r : Range} {x : Nat} {w : Width}

/-! ## Extremes that are members -/

theorem unsignedMin_mem (h : r.isEmpty = false) : r.unsignedMin ∈ r := by
  have hl := r.lower_lt
  have hu := r.upper_lt
  unfold unsignedMin
  rw [mem_iff]
  rcases r.cases_bounds with h' | h' | h' | h' <;> grind

/-- The members of the shifted range, shifted back. -/
theorem exists_signed_eq (h : x ∈ r.signShift) :
    ∃ y ∈ r, r.width.signed y = (x : Int) - r.width.half := by
  have hx := lt_card_of_mem h
  rw [width_signShift] at hx
  have hback := r.width.wrap_wrap_add_half hx
  have hlt := r.width.wrap_lt_card ((x : Int) + r.width.half)
  have hsigned := r.width.wrap_add_half hlt
  refine ⟨r.width.wrap (x + r.width.half), (wrap_mem_signShift hlt).1 ?_, ?_⟩
  · rwa [hback]
  · omega

theorem isEmpty_signShift (h : r.isEmpty = false) : r.signShift.isEmpty = false :=
  not_isEmpty_of_mem (mem_signShift (lower_mem h))

theorem exists_signed_eq_signedMin (h : r.isEmpty = false) :
    ∃ y ∈ r, r.width.signed y = r.signedMin :=
  exists_signed_eq (unsignedMin_mem (isEmpty_signShift h))

theorem exists_signed_eq_signedMax (h : r.isEmpty = false) :
    ∃ y ∈ r, r.width.signed y = r.signedMax :=
  exists_signed_eq (unsignedMax_mem (isEmpty_signShift h))

/-- A range that is neither empty nor constant has at least two members. -/
theorem one_lt_size (he : r.isEmpty = false) (hc : r.isConstant = false) : 1 < r.size := by
  have hcard := r.width.two_le_card
  obtain ⟨i, hi, -⟩ := mem_iff_exists_lt_size.1 (lower_mem he)
  cases hf : r.isFull with
  | true =>
    rw [size, if_pos hf]
    omega
  | false =>
    rw [isConstant, hf, Bool.not_false, Bool.true_and, beq_eq_false_iff_ne] at hc
    have hl := r.lower_lt
    have hu := r.upper_lt
    have hsize := natCast_size hf
    by_contra hle
    refine hc ?_
    rw [← r.width.wrap_natCast_of_lt hu, Width.wrap_eq_wrap]
    -- The bounds are neighbours, around the end of the circle or not.
    split at hsize
    · have heq : (r.lower : Int) + 1 = r.upper := by omega
      rw [heq]
    · have heq : (r.lower : Int) + 1 = r.upper + r.width.card := by omega
      rw [heq, Int.add_emod_right]

/-- A range with members that is no constant has one besides any given word. -/
theorem exists_mem_ne (he : r.isEmpty = false) (hc : r.isConstant = false) (x : Nat) :
    ∃ y ∈ r, y ≠ x := by
  have hcard := r.width.two_le_card
  have hnext : r.width.wrap ((r.lower : Int) + 1) ∈ r :=
    mem_iff_exists_lt_size.2 ⟨1, one_lt_size he hc, rfl⟩
  have hne : r.width.wrap ((r.lower : Int) + 1) ≠ r.lower := by
    intro heq
    have hwrap := r.width.wrap_natCast_of_lt r.lower_lt
    rw [← hwrap, Width.wrap_eq_wrap, hwrap, Int.emod_eq_emod_iff_emod_sub_eq_zero,
      add_sub_cancel_left, Int.emod_eq_of_lt (by omega) (by omega)] at heq
    omega
  by_cases hx : r.lower = x
  · exact ⟨_, hnext, fun h ↦ hne (h.trans hx.symm)⟩
  · exact ⟨_, lower_mem he, hx⟩

/-! ## Bounds that go around the circle at most once -/

/-- The converse of `wrap_mem_ofBounds`. -/
theorem exists_wrap_eq_of_mem_ofBounds {lo hi : Int} (hle : lo ≤ hi)
    (h : x ∈ ofBounds w lo (hi + 1)) : ∃ v, lo ≤ v ∧ v ≤ hi ∧ w.wrap v = x := by
  rw [← mem_cover hle]
  unfold cover
  split
  · have hx := lt_card_of_mem h
    rw [width_ofBounds] at hx
    exact mem_full.2 hx
  · exact h

/-- Bounds between the least and the greatest word. -/
theorem le_of_mem_ofBounds {lo hi : Int} (hlo : 0 ≤ lo) (hle : lo ≤ hi) (hhi : hi < w.card)
    (h : x ∈ ofBounds w lo (hi + 1)) : lo ≤ x ∧ x ≤ hi := by
  obtain ⟨v, hv, hv', rfl⟩ := exists_wrap_eq_of_mem_ofBounds hle h
  rw [w.natCast_wrap, Int.emod_eq_of_lt (by omega) (by omega)]
  exact ⟨hv, hv'⟩

/-- Bounds between the least and the greatest signed number. -/
theorem le_signed_of_mem_ofBounds {lo hi : Int} (hlo : -(w.half : Int) ≤ lo) (hle : lo ≤ hi)
    (hhi : hi < w.half) (h : x ∈ ofBounds w lo (hi + 1)) : lo ≤ w.signed x ∧ w.signed x ≤ hi := by
  have hc := w.card_eq_half
  obtain ⟨v, hv, hv', rfl⟩ := exists_wrap_eq_of_mem_ofBounds hle h
  rw [w.signed_wrap (by omega) (by omega)]
  exact ⟨hv, hv'⟩

end Range

namespace Comparison

open Range

variable {r : Range} {x y : Nat} {c : Comparison}

/-- A comparison sees the words of its operands only. -/
theorem holds_wrap (w : Width) (a b : Int) :
    c.holds w.bits (w.wrap a) (w.wrap b) = c.holds w.bits a b := by
  have ha : reduce w.bits (w.wrap a) = reduce w.bits a :=
    w.wrap_natCast_of_lt (w.wrap_lt_card a)
  have hb : reduce w.bits (w.wrap b) = reduce w.bits b :=
    w.wrap_natCast_of_lt (w.wrap_lt_card b)
  unfold holds
  rw [ha, hb]

/-- A word that a comparison allows is related to a member. -/
theorem exists_holds_of_mem_allowed (h : x ∈ c.allowed r) :
    ∃ y ∈ r, c.holds r.width.bits x y = true := by
  have hx := lt_card_of_mem h
  rw [width_allowed] at hx
  unfold allowed at h
  dsimp only at h
  split at h
  · rename_i hempty
    rw [eq_empty_of_isEmpty hempty] at h
    exact absurd h not_mem_empty
  · rename_i hempty
    rw [Bool.not_eq_true] at hempty
    have hmin := unsignedMin_mem hempty
    have hmax := unsignedMax_mem hempty
    obtain ⟨least, hleast, hsmin⟩ := exists_signed_eq_signedMin hempty
    obtain ⟨greatest, hgreatest, hsmax⟩ := exists_signed_eq_signedMax hempty
    have hminlt := lt_card_of_mem hmin
    have hmaxlt := lt_card_of_mem hmax
    have hleastlt := lt_card_of_mem hleast
    have hgreatestlt := lt_card_of_mem hgreatest
    have hmask := r.width.mask_add_one
    have hlo := r.width.neg_half_le_signed (x := least)
    have hlo' := r.width.neg_half_le_signed (x := greatest)
    have hhi := r.width.signed_lt_half hleastlt
    have hhi' := r.width.signed_lt_half hgreatestlt
    cases c with
    | eq => exact ⟨x, h, (holds_iff hx hx).2 rfl⟩
    | ne =>
      dsimp only at h
      split at h
      · exact ⟨r.lower, lower_mem hempty, (holds_iff hx r.lower_lt).2 fun heq ↦
          notMem_of_mem_inverse h (heq ▸ lower_mem hempty)⟩
      · rename_i hc
        obtain ⟨y, hy, hne⟩ := exists_mem_ne hempty (Bool.eq_false_iff.2 hc) x
        exact ⟨y, hy, (holds_iff hx (lt_card_of_mem hy)).2 hne.symm⟩
    | ult =>
      dsimp only at h
      split at h
      · exact absurd h not_mem_empty
      · rw [← Int.sub_add_cancel (r.unsignedMax : Int) 1] at h
        have hle := le_of_mem_ofBounds (by omega) (by omega) (by omega) h
        exact ⟨_, hmax, (holds_iff hx hmaxlt).2 (by omega)⟩
    | ule =>
      have hle := le_of_mem_ofBounds (by omega) (by omega) (by omega) h
      exact ⟨_, hmax, (holds_iff hx hmaxlt).2 (by omega)⟩
    | ugt =>
      dsimp only at h
      split at h
      · exact absurd h not_mem_empty
      · rw [ofBounds_zero] at h
        have hle := le_of_mem_ofBounds (by omega) (by omega) (by omega) h
        exact ⟨_, hmin, (holds_iff hx hminlt).2 (by omega)⟩
    | uge =>
      dsimp only at h
      rw [ofBounds_zero] at h
      have hle := le_of_mem_ofBounds (by omega) (by omega) (by omega) h
      exact ⟨_, hmin, (holds_iff hx hminlt).2 (by omega)⟩
    | slt =>
      dsimp only at h
      split at h
      · exact absurd h not_mem_empty
      · rw [← Int.sub_add_cancel r.signedMax 1] at h
        have hle := le_signed_of_mem_ofBounds (by omega) (by omega) (by omega) h
        exact ⟨_, hgreatest, (holds_iff hx hgreatestlt).2 (by omega)⟩
    | sle =>
      have hle := le_signed_of_mem_ofBounds (by omega) (by omega) (by omega) h
      exact ⟨_, hgreatest, (holds_iff hx hgreatestlt).2 (by omega)⟩
    | sgt =>
      dsimp only at h
      split at h
      · exact absurd h not_mem_empty
      · rw [ofBounds_neg_half] at h
        have hle := le_signed_of_mem_ofBounds (by omega) (by omega) (by omega) h
        exact ⟨_, hleast, (holds_iff hx hleastlt).2 (by omega)⟩
    | sge =>
      dsimp only at h
      rw [ofBounds_neg_half] at h
      have hle := le_signed_of_mem_ofBounds (by omega) (by omega) (by omega) h
      exact ⟨_, hleast, (holds_iff hx hleastlt).2 (by omega)⟩

/-- The allowed region is the set of words that compare with some member. -/
theorem mem_allowed_iff (hx : x < r.width.card) :
    x ∈ c.allowed r ↔ ∃ y ∈ r, c.holds r.width.bits x y = true := by
  constructor
  · exact exists_holds_of_mem_allowed
  · rintro ⟨y, hy, h⟩
    exact mem_allowed hx hy h

/-- The satisfying region is the set of words that compare with every member. -/
theorem mem_satisfying_iff (hx : x < r.width.card) :
    x ∈ c.satisfying r ↔ ∀ y ∈ r, c.holds r.width.bits x y = true := by
  constructor
  · intro h y hy
    exact holds_of_mem_satisfying h hy
  · intro h
    refine mem_inverse (by rwa [width_allowed]) fun hmem ↦ ?_
    obtain ⟨y, hy, hnot⟩ := exists_holds_of_mem_allowed hmem
    rw [holds_invert, h y hy] at hnot
    cases hnot

/-- The regions of a comparison with a range hold the integers whose words stand in the relation to
some member, and to every member.  Nothing is asked of the range: it may be empty, full or
wrapped. -/
theorem regions_exact (c : Comparison) (r : Range) (v : Int) :
    ((c.allowed r).contains v = true ↔
      ∃ u : Int, r.contains u = true ∧ c.holds r.width.bits v u = true) ∧
    ((c.satisfying r).contains v = true ↔
      ∀ u : Int, r.contains u = true → c.holds r.width.bits v u = true) := by
  have hv := r.width.wrap_lt_card v
  -- Members are words, and each word is the one of an integer.
  have hword (y : Nat) (hy : y ∈ r) : r.contains y = true ∧ r.width.wrap y = y := by
    have hwrap := r.width.wrap_natCast_of_lt (lt_card_of_mem hy)
    exact ⟨contains_iff.2 (by rwa [hwrap]), hwrap⟩
  constructor
  · rw [contains_iff, width_allowed, mem_allowed_iff hv]
    constructor
    · rintro ⟨y, hy, h⟩
      obtain ⟨hin, hwrap⟩ := hword y hy
      refine ⟨y, hin, ?_⟩
      rwa [← holds_wrap, hwrap]
    · rintro ⟨u, hu, h⟩
      refine ⟨r.width.wrap u, contains_iff.1 hu, ?_⟩
      rwa [holds_wrap]
  · rw [contains_iff, width_satisfying, mem_satisfying_iff hv]
    constructor
    · intro h u hu
      rw [← holds_wrap]
      exact h _ (contains_iff.1 hu)
    · intro h y hy
      obtain ⟨hin, hwrap⟩ := hword y hy
      have hholds := h y hin
      rwa [← holds_wrap, hwrap] at hholds

end Comparison

end RangeFlow
