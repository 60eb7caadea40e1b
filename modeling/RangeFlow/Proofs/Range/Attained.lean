import RangeFlow.Proofs.Range.Arith
import RangeFlow.Proofs.Range.Inhabited
import RangeFlow.Proofs.Range.Queries

/-!
# Bounds that are attained

The range of the quotients covers the integers from the quotient of the least dividend by the
greatest divisor to that of the greatest dividend by the least divisor other than zero, and the
range of the words moved right does the same with shifts.  The operands have these extremes as
members, so both ends are results themselves, and soundness says that no result is outside
(`Spans.of_cover`).

Words moved left are covered in the same way as long as the greatest one leaves the top bit clear.
`Range.shl` gives up already when a digit comes to the top bit, where none is lost yet, and when
zero is moved by the width or more: `shl_bounds_iff` says for which operands its bounds are still
those of the words that are moved.
-/

namespace RangeFlow

/-- A number has at most `k` binary digits iff it is below the power of two with exponent `k`. -/
theorem bitLength_le_iff {n k : Nat} : bitLength n ≤ k ↔ n < 2 ^ k := by
  unfold bitLength
  split
  · rename_i h
    rw [h]
    exact iff_of_true (Nat.zero_le k) (by positivity)
  · rename_i h
    rw [Nat.add_one_le_iff, Nat.log2_lt h]

namespace Range

open Width (byte)

variable {a b : Range} {w : Width} {x : Nat}

/-! ## Covers of words -/

section Cover

variable {lo hi : Nat} (hle : lo ≤ hi) (hlt : hi < w.card)
include hle hlt

/-- A cover that does not come around the circle. -/
theorem mem_cover_natCast : x ∈ cover w lo hi ↔ lo ≤ x ∧ x ≤ hi := by
  rw [mem_cover (by omega)]
  constructor
  · rintro ⟨v, hlo, hhi, rfl⟩
    have hword : (w.wrap v : Int) = v := by
      rw [w.natCast_wrap, Int.emod_eq_of_lt (by omega) (by omega)]
    omega
  · rintro ⟨hlo, hhi⟩
    exact ⟨x, by omega, by omega, w.wrap_natCast_of_lt (by omega)⟩

theorem isEmpty_cover : (cover w lo hi).isEmpty = false :=
  not_isEmpty_of_mem ((mem_cover_natCast hle hlt).2 ⟨le_rfl, hle⟩)

theorem unsignedMin_cover : (cover w lo hi).unsignedMin = lo := by
  have hmem := unsignedMin_mem (isEmpty_cover hle hlt)
  rw [mem_cover_natCast hle hlt] at hmem
  exact le_antisymm (unsignedMin_le_of_mem ((mem_cover_natCast hle hlt).2 ⟨le_rfl, hle⟩)) hmem.1

theorem unsignedMax_cover : (cover w lo hi).unsignedMax = hi := by
  have hmem := unsignedMax_mem (isEmpty_cover hle hlt)
  rw [mem_cover_natCast hle hlt] at hmem
  exact le_antisymm hmem.2 (le_unsignedMax_of_mem ((mem_cover_natCast hle hlt).2 ⟨hle, le_rfl⟩))

/-- Words of the cover with both its ends among them. -/
theorem Spans.of_cover {S : Set Nat} (hsub : ∀ z ∈ S, z ∈ cover w lo hi) (hlo : lo ∈ S)
    (hhi : hi ∈ S) : Spans unsignedMin unsignedMax (cover w lo hi) S := by
  refine .of_ends hsub ?_ ?_
  · rwa [unsignedMin_cover hle hlt]
  · rwa [unsignedMax_cover hle hlt]

end Cover

/-! ## Quotients -/

/-- The quotients by members other than zero. -/
def quotients (a b : Range) : Set Nat := {q | ∃ x ∈ a, ∃ y ∈ b, y ≠ 0 ∧ q = x / y}

/-- A range with a divisor has one that is its greatest member. -/
theorem unsignedMax_ne_zero (h : ∃ y ∈ b, y ≠ 0) : b.unsignedMax ≠ 0 := by
  obtain ⟨y, hy, hne⟩ := h
  have hmax := le_unsignedMax_of_mem hy
  omega

/-- The divisor that gives the greatest quotient is a member. -/
theorem leastDivisor_mem (h : ∃ y ∈ b, y ≠ 0) : b.leastDivisor ∈ b := by
  obtain ⟨y, hy, hne⟩ := h
  have hb := not_isEmpty_of_mem hy
  have hcard := b.width.two_le_card
  obtain ⟨hlt, hmem⟩ := mem_iff.1 hy
  unfold leastDivisor
  split
  · rename_i hzero
    split
    · exact lower_mem hb
    · -- A range with zero and another word has one as well, unless it ends with zero.
      have hmin := unsignedMin_mem hb
      rw [hzero, mem_iff] at hmin
      rw [mem_iff]
      rcases b.cases_bounds with h' | h' | h' | h' <;> grind
  · exact unsignedMin_mem hb

/-- The extremes of a quotient are quotients of members, and no quotient lies outside. -/
theorem spans_udiv (ha : a.isEmpty = false) (h : ∃ y ∈ b, y ≠ 0) :
    Spans unsignedMin unsignedMax (a.udiv b) (quotients a b) := by
  have hdiv := leastDivisor_mem h
  have hb := not_isEmpty_of_mem hdiv
  have hmax := unsignedMax_ne_zero h
  obtain ⟨hpos, hle⟩ := leastDivisor_le (unsignedMax_mem hb) hmax
  have hbounds : a.unsignedMin / b.unsignedMax ≤ a.unsignedMax / b.leastDivisor :=
    Nat.div_le_div (unsignedMin_le_unsignedMax ha) hle hpos.ne'
  have hlt : a.unsignedMax / b.leastDivisor < a.width.card :=
    (Nat.div_le_self _ _).trans_lt (unsignedMax_lt_card ha)
  have hresults : ∀ z ∈ quotients a b, z ∈ a.udiv b := by
    rintro _ ⟨x, hx, y, hy, hne, rfl⟩
    exact div_mem hx hy hne
  rw [udiv_eq_cover ha hb hmax] at hresults ⊢
  exact .of_cover hbounds hlt hresults ⟨_, unsignedMin_mem ha, _, unsignedMax_mem hb, hmax, rfl⟩
    ⟨_, unsignedMax_mem ha, _, hdiv, hpos.ne', rfl⟩

/-! ## Words moved right -/

/-- The words moved right by members; nothing is left of them after the width. -/
def rightShifts (a b : Range) : Set Nat :=
  {z | ∃ x ∈ a, ∃ y ∈ b, z = if a.width.bits ≤ y then 0 else x >>> y}

/-- The extremes of a shift to the right are members moved right, and none lies outside. -/
theorem spans_lshr (ha : a.isEmpty = false) (hb : b.isEmpty = false) :
    Spans unsignedMin unsignedMax (a.lshr b) (rightShifts a b) := by
  have hmax := unsignedMax_lt_card ha
  have hmin := (unsignedMin_le_unsignedMax ha).trans_lt hmax
  have hbounds := shiftRight_le_shiftRight (unsignedMin_le_unsignedMax ha)
    (unsignedMin_le_unsignedMax hb)
  have hlt : a.unsignedMax >>> b.unsignedMin < a.width.card :=
    (Nat.shiftRight_le _ _).trans_lt hmax
  have hresults : ∀ z ∈ rightShifts a b, z ∈ a.lshr b := by
    rintro _ ⟨x, hx, y, hy, rfl⟩
    exact shiftRight_mem hx hy
  rw [lshr_eq_cover ha hb] at hresults ⊢
  exact .of_cover hbounds hlt hresults
    ⟨_, unsignedMin_mem ha, _, unsignedMax_mem hb, (shiftRight_eq hmin _).symm⟩
    ⟨_, unsignedMax_mem ha, _, unsignedMin_mem hb, (shiftRight_eq hmax _).symm⟩

/-- **Attained bounds.**  The bounds of the range of the quotients are the least and the greatest
quotient of a member by a member other than zero, if there is such a divisor; if zero is the only
one, there is no quotient.  The bounds of the range of the words moved right are the least and the
greatest of these. -/
theorem bounds_attained {a b : Range} (hw : a.width = b.width) (ha : a.isEmpty = false)
    (hb : b.isEmpty = false) :
    (∃ q, paired udiv a b = .ok q ∧
      ((∃ y ∈ b, y ≠ 0) → Spans unsignedMin unsignedMax q (quotients a b)) ∧
      ((∀ y ∈ b, y = 0) → q = empty a.width)) ∧
    ∃ q, paired lshr a b = .ok q ∧ Spans unsignedMin unsignedMax q (rightShifts a b) := by
  refine ⟨⟨_, paired_of_width_eq udiv hw, spans_udiv ha, ?_⟩, _, paired_of_width_eq lshr hw,
    spans_lshr ha hb⟩
  intro hzero
  simp [udiv, hzero _ (unsignedMax_mem hb)]

/-- Divisors around zero: 5 and more, and zero, which leaves 5 as the least one.  The same counts
move the words from 100 to 200 right until nothing is left, or not at all.  By zero alone nothing is
divided. -/
theorem bounds_attained_around :
    ((ofBounds byte 100 201).width = (ofBounds byte 5 1).width ∧
      (ofBounds byte 100 201).isEmpty = false ∧ (ofBounds byte 5 1).isEmpty = false ∧
      5 ∈ ofBounds byte 5 1) ∧
    (IsLeast (quotients (ofBounds byte 100 201) (ofBounds byte 5 1)) 0 ∧
      IsGreatest (quotients (ofBounds byte 100 201) (ofBounds byte 5 1)) 40 ∧
      IsGreatest (rightShifts (ofBounds byte 100 201) (ofBounds byte 5 1)) 200) ∧
    (∀ y ∈ singleton byte 0, y = 0) ∧
      (ofBounds byte 100 201).udiv (singleton byte 0) = empty byte := by
  have hw : (ofBounds byte 100 201).width = (ofBounds byte 5 1).width := by decide
  have ha : (ofBounds byte 100 201).isEmpty = false := by decide
  have hb : (ofBounds byte 5 1).isEmpty = false := by decide
  have hmem : 5 ∈ ofBounds byte 5 1 := by decide
  have hzero : ∀ y ∈ singleton byte 0, y = 0 := fun y hy ↦ mem_singleton.1 hy
  obtain ⟨⟨q, hq, hspans, -⟩, q', hq', hspans'⟩ := bounds_attained hw ha hb
  obtain rfl : ofBounds byte 0 41 = q := Except.ok.inj (Eq.trans (by decide) hq)
  obtain rfl : ofBounds byte 0 201 = q' := Except.ok.inj (Eq.trans (by decide) hq')
  obtain ⟨⟨least, hlow, hleast⟩, greatest, hhigh, hgreatest⟩ := hspans ⟨5, hmem, by decide⟩
  obtain ⟨-, greatest', hhigh', hgreatest'⟩ := hspans'
  obtain rfl : 0 = least := Except.ok.inj hlow
  obtain rfl : 40 = greatest := Except.ok.inj hhigh
  obtain rfl : 200 = greatest' := Except.ok.inj hhigh'
  obtain ⟨⟨e, he, -, hempty⟩, -⟩ :=
    bounds_attained (a := ofBounds byte 100 201) (b := singleton byte 0) rfl ha (by decide)
  exact ⟨⟨hw, ha, hb, hmem⟩, ⟨hleast, hgreatest, hgreatest'⟩, hzero,
    (Except.ok.inj he).trans (hempty hzero)⟩

/-! ## Words moved left -/

/-- No member has a digit in the top bit once it is moved left, and none is moved by the width or
more. -/
def LeavesTopClear (a b : Range) : Prop :=
  b.unsignedMax < a.width.bits ∧ a.unsignedMax * 2 ^ (b.unsignedMax + 1) < 2 ^ a.width.bits

instance (a b : Range) : Decidable (LeavesTopClear a b) :=
  inferInstanceAs (Decidable (_ ∧ _))

/-- The test by which words are moved left and not given up. -/
theorem leavesTopClear_iff :
    LeavesTopClear a b ↔ b.unsignedMax < a.width.bits - bitLength a.unsignedMax := by
  have hdigits (h : b.unsignedMax + 1 ≤ a.width.bits) :
      bitLength a.unsignedMax ≤ a.width.bits - (b.unsignedMax + 1) ↔
        a.unsignedMax * 2 ^ (b.unsignedMax + 1) < 2 ^ a.width.bits := by
    rw [bitLength_le_iff, ← Nat.mul_lt_mul_right (a := 2 ^ (b.unsignedMax + 1)) (by positivity),
      ← pow_add, Nat.sub_add_cancel h]
  constructor
  · rintro ⟨hlt, hfew⟩
    have := (hdigits hlt).2 hfew
    omega
  · intro h
    exact ⟨by omega, (hdigits (by omega)).1 (by omega)⟩

/-- A shift that can reach the top bit is given up. -/
theorem shl_eq_full (ha : a.isEmpty = false) (hb : b.isEmpty = false) (h : ¬LeavesTopClear a b) :
    a.shl b = full a.width := by
  rw [leavesTopClear_iff, not_lt] at h
  simp only [shl, ha, hb, Bool.or_self, Bool.false_eq_true, if_false, h, if_true]

/-- A shift that leaves the top bit clear is covered from the least result to the greatest. -/
theorem shl_eq_cover (ha : a.isEmpty = false) (hb : b.isEmpty = false) (h : LeavesTopClear a b) :
    a.shl b = cover a.width (a.unsignedMin <<< b.unsignedMin : Nat)
      (a.unsignedMax <<< b.unsignedMax : Nat) := by
  rw [leavesTopClear_iff, ← not_le] at h
  simp only [shl, ha, hb, Bool.or_self, Bool.false_eq_true, if_false, h]

/-- An odd number is no other number moved left. -/
theorem eq_zero_of_shiftLeft_eq_mask {n s : Nat} (h : n <<< s = w.mask) : s = 0 := by
  by_contra hne
  obtain ⟨t, rfl⟩ := Nat.exists_eq_succ_of_ne_zero hne
  have hmask := w.mask_add_one
  have hhalf := w.card_eq_half
  rw [Nat.shiftLeft_succ] at h
  omega

/-- The bounds of words that leave the top bit clear. -/
theorem extremes_shl (ha : a.isEmpty = false) (hb : b.isEmpty = false) (h : LeavesTopClear a b) :
    extreme unsignedMin (a.shl b) = .ok (a.unsignedMin <<< b.unsignedMin) ∧
      extreme unsignedMax (a.shl b) = .ok (a.unsignedMax <<< b.unsignedMax) := by
  have hle := shiftLeft_le_shiftLeft (unsignedMin_le_unsignedMax ha) (unsignedMin_le_unsignedMax hb)
  have hlt : a.unsignedMax <<< b.unsignedMax < a.width.card := by
    rw [Nat.shiftLeft_eq]
    refine lt_of_le_of_lt ?_ h.2
    exact Nat.mul_le_mul_left _ (Nat.pow_le_pow_right (by decide) (Nat.le_succ _))
  rw [shl_eq_cover ha hb h, extreme_eq_ok _ (isEmpty_cover hle hlt),
    extreme_eq_ok _ (isEmpty_cover hle hlt), unsignedMin_cover hle hlt, unsignedMax_cover hle hlt]
  exact ⟨rfl, rfl⟩

/-- The extremes of the full range are zero and the mask. -/
theorem extremes_full (w : Width) :
    extreme unsignedMin (full w) = .ok 0 ∧ extreme unsignedMax (full w) = .ok w.mask := by
  rw [extreme_eq_ok _ (isEmpty_full w), extreme_eq_ok _ (isEmpty_full w)]
  simp [unsignedMin, unsignedMax]

/-- **Words moved left.**  The least and the greatest member moved by the least and the greatest
count are the bounds of the result if the top bit is left clear.  Otherwise the result is full, and
they are its bounds only if the left operand has the least and the greatest word and the right one
is zero alone. -/
theorem shl_bounds_iff {a b : Range} (hw : a.width = b.width) (ha : a.isEmpty = false)
    (hb : b.isEmpty = false) :
    ∃ q, paired shl a b = .ok q ∧
      (extreme unsignedMin q = .ok (a.unsignedMin <<< b.unsignedMin) ∧
        extreme unsignedMax q = .ok (a.unsignedMax <<< b.unsignedMax) ↔
          LeavesTopClear a b ∨
            a.unsignedMin = 0 ∧ a.unsignedMax = a.width.mask ∧ b.unsignedMax = 0) ∧
      (¬LeavesTopClear a b → q = full a.width) := by
  refine ⟨_, paired_of_width_eq shl hw, ?_, shl_eq_full ha hb⟩
  by_cases hclear : LeavesTopClear a b
  · exact iff_of_true (extremes_shl ha hb hclear) (.inl hclear)
  · obtain ⟨hmin, hmax⟩ := extremes_full a.width
    rw [shl_eq_full ha hb hclear, hmin, hmax, or_iff_right hclear]
    constructor
    · rintro ⟨hlow, hhigh⟩
      have hlow := Except.ok.inj hlow
      have hhigh := Except.ok.inj hhigh
      have hcount := eq_zero_of_shiftLeft_eq_mask hhigh.symm
      rw [hcount, Nat.shiftLeft_zero] at hhigh
      rw [Nat.shiftLeft_eq, eq_comm, Nat.mul_eq_zero] at hlow
      exact ⟨hlow.resolve_right (by positivity), hhigh.symm, hcount⟩
    · rintro ⟨hlow, hhigh, hcount⟩
      rw [hlow, hhigh, hcount, Nat.zero_shiftLeft, Nat.shiftLeft_zero]
      exact ⟨rfl, rfl⟩

/-- The words from 3 to 7 moved left by 2 to 4 places end at 112, below the top bit. -/
theorem shl_bounds_iff_below :
    ((ofBounds byte 3 8).width = (ofBounds byte 2 5).width ∧
      (ofBounds byte 3 8).isEmpty = false ∧ (ofBounds byte 2 5).isEmpty = false) ∧
    ∃ q, paired shl (ofBounds byte 3 8) (ofBounds byte 2 5) = .ok q ∧
      extreme unsignedMin q = .ok 12 ∧ extreme unsignedMax q = .ok 112 := by
  have hw : (ofBounds byte 3 8).width = (ofBounds byte 2 5).width := by decide
  have ha : (ofBounds byte 3 8).isEmpty = false := by decide
  have hb : (ofBounds byte 2 5).isEmpty = false := by decide
  obtain ⟨q, hq, hbounds, -⟩ := shl_bounds_iff hw ha hb
  exact ⟨⟨hw, ha, hb⟩, q, hq, hbounds.2 (.inl (by decide))⟩

/-- The word 1 moved left by 7 places is the greatest power of two of a byte, and nothing is lost;
the range of the result is full all the same. -/
theorem not_shl_bounds_top :
    ¬∀ a b : Range, a.width = b.width → a.isEmpty = false → b.isEmpty = false →
      a.unsignedMax * 2 ^ b.unsignedMax < 2 ^ a.width.bits →
        extreme unsignedMin (a.shl b) = .ok (a.unsignedMin <<< b.unsignedMin) ∧
          extreme unsignedMax (a.shl b) = .ok (a.unsignedMax <<< b.unsignedMax) := by
  intro h
  have hbounds := h (ofBounds byte 1 2) (ofBounds byte 7 8) (by decide) (by decide) (by decide)
    (by decide)
  have hmin : extreme unsignedMin ((ofBounds byte 1 2).shl (ofBounds byte 7 8)) = .ok 0 := by decide
  rw [hmin] at hbounds
  exact absurd (Except.ok.inj hbounds.1) (by decide)

end Range

end RangeFlow
