import RangeFlow.Proofs.Range.Attained
import RangeFlow.Proofs.Range.Exact
import RangeFlow.Proofs.Range.Extend
import RangeFlow.Proofs.Range.Inhabited

/-!
# Operations are monotone

A range with more members gives results with no fewer.  This is at once clear of the operations that
are exact, whose members are the results of members: sums, differences, truncations and the words
that a comparison allows.  The others cover the integers between bounds that are made from the
extremes of the operands.  If the operands grow, their extremes move outwards, and the bounds of the
cover with them (`cover_subset_cover`); an operand that comes to wrap, to hold zero or to be full is
no case of its own, since only its extremes count.  Words that are given up when they are moved left
are given up as well if the operands grow (`LeavesTopClear.of_subset`).
-/

namespace RangeFlow

theorem bitLength_mono {m n : Nat} (h : m ≤ n) : bitLength m ≤ bitLength n :=
  bitLength_le_iff.2 (h.trans_lt (bitLength_le_iff.1 le_rfl))

namespace Range

open Width (byte word)

/-- A range is within another one that has all its members. -/
instance : HasSubset Range := ⟨fun a b ↦ ∀ x ∈ a, x ∈ b⟩

variable {a a' b b' q q' : Range} {v w : Width}

theorem empty_subset : empty w ⊆ q := fun _ hx ↦ absurd hx not_mem_empty

theorem subset_full (h : q.width = w) : q ⊆ full w :=
  fun _ hx ↦ mem_full.2 (h ▸ lt_card_of_mem hx)

/-- An empty range need not be looked at. -/
theorem subset_of_members (h : q.isEmpty = false → q ⊆ q') : q ⊆ q' :=
  fun x hx ↦ h (not_isEmpty_of_mem hx) x hx

/-- The test of inclusion is right about the members. -/
theorem subset_of_containsRange (hw : a.width = b.width) (h : a.containsRange b = true) : b ⊆ a :=
  fun _ hx ↦ mem_of_containsRange hw h hx

/-- Covers of fewer and of more integers. -/
theorem cover_subset_cover {lo hi lo' hi' : Int} (hle : lo ≤ hi) (hlo : lo' ≤ lo) (hhi : hi ≤ hi') :
    cover w lo hi ⊆ cover w lo' hi' := by
  intro x hx
  obtain ⟨u, hu, hu', rfl⟩ := (mem_cover hle).1 hx
  exact wrap_mem_cover (hlo.trans hu) (hu'.trans hhi)

/-! ## Extremes -/

section Extremes

variable (h : a ⊆ a') (he : a.isEmpty = false)
include h he

/-- A range that holds a range with members has members. -/
theorem not_isEmpty_of_subset : a'.isEmpty = false := not_isEmpty_of_mem (h _ (lower_mem he))

theorem unsignedMin_le_of_subset : a'.unsignedMin ≤ a.unsignedMin :=
  unsignedMin_le_of_mem (h _ (unsignedMin_mem he))

theorem unsignedMax_le_of_subset : a.unsignedMax ≤ a'.unsignedMax :=
  le_unsignedMax_of_mem (h _ (unsignedMax_mem he))

/-- A larger range begins no later among the signed values. -/
theorem signedMin_le_of_subset (hw : a'.width = a.width) : a'.signedMin ≤ a.signedMin := by
  obtain ⟨x, hx, hmin⟩ := exists_signed_eq_signedMin he
  rw [← hmin, ← hw]
  exact signedMin_le_of_mem (h _ hx)

/-- A larger range ends no earlier among the signed values. -/
theorem signedMax_le_of_subset (hw : a'.width = a.width) : a.signedMax ≤ a'.signedMax := by
  obtain ⟨x, hx, hmax⟩ := exists_signed_eq_signedMax he
  rw [← hmax, ← hw]
  exact le_signedMax_of_mem (h _ hx)

end Extremes

/-! ## Operators -/

theorem add_subset_add (hab : a.width = b.width) (hab' : a'.width = b'.width)
    (hw : a'.width = a.width) (ha : a ⊆ a') (hb : b ⊆ b') : a.add b ⊆ a'.add b' := by
  intro z hz
  rw [mem_add_iff hab] at hz
  obtain ⟨x, hx, y, hy, heq⟩ := hz
  rw [mem_add_iff hab', hw]
  exact ⟨x, ha x hx, y, hb y hy, heq⟩

theorem sub_subset_sub (hab : a.width = b.width) (hab' : a'.width = b'.width)
    (hw : a'.width = a.width) (ha : a ⊆ a') (hb : b ⊆ b') : a.sub b ⊆ a'.sub b' := by
  intro z hz
  rw [mem_sub_iff hab] at hz
  obtain ⟨x, hx, y, hy, heq⟩ := hz
  rw [mem_sub_iff hab', hw]
  exact ⟨x, ha x hx, y, hb y hy, heq⟩

/-- A quotient with members comes from a divisor that is not zero. -/
theorem exists_divisor (hb : b.isEmpty = false) (h : (a.udiv b).isEmpty = false) :
    ∃ y ∈ b, y ≠ 0 := by
  refine ⟨b.unsignedMax, unsignedMax_mem hb, fun hzero ↦ ?_⟩
  simp [udiv, hzero] at h

section Covers

variable (hw : a'.width = a.width) (ha : a ⊆ a') (hb : b ⊆ b')
variable (hae : a.isEmpty = false) (hbe : b.isEmpty = false)

include ha hb hae hbe in
/-- A cover between the results on the least and on the greatest members, of a function that grows
in both arguments. -/
theorem cover_subset_of_extremes {f : Nat → Nat → Nat}
    (hf : ∀ {m n s t : Nat}, m ≤ n → s ≤ t → f m s ≤ f n t) :
    cover w (f a.unsignedMin b.unsignedMin) (f a.unsignedMax b.unsignedMax) ⊆
      cover w (f a'.unsignedMin b'.unsignedMin) (f a'.unsignedMax b'.unsignedMax) := by
  have hle := hf (unsignedMin_le_unsignedMax hae) (unsignedMin_le_unsignedMax hbe)
  have hlo := hf (unsignedMin_le_of_subset ha hae) (unsignedMin_le_of_subset hb hbe)
  have hhi := hf (unsignedMax_le_of_subset ha hae) (unsignedMax_le_of_subset hb hbe)
  exact cover_subset_cover (by exact_mod_cast hle) (by exact_mod_cast hlo) (by exact_mod_cast hhi)

include hw ha hb hae hbe

theorem multiply_subset_multiply : a.multiply b ⊆ a'.multiply b' := by
  rw [multiply_eq_cover hae hbe,
    multiply_eq_cover (not_isEmpty_of_subset ha hae) (not_isEmpty_of_subset hb hbe), hw]
  exact cover_subset_of_extremes ha hb hae hbe Nat.mul_le_mul

/-- The least divisor of more words is no greater. -/
theorem udiv_subset_udiv (hdiv : ∃ y ∈ b, y ≠ 0) : a.udiv b ⊆ a'.udiv b' := by
  have hmax := unsignedMax_ne_zero hdiv
  have hmax' := unsignedMax_le_of_subset hb hbe
  obtain ⟨hpos, hleast⟩ := leastDivisor_le (unsignedMax_mem hbe) hmax
  obtain ⟨hpos', hleast'⟩ := leastDivisor_le (hb _ (leastDivisor_mem hdiv)) hpos.ne'
  have hle : a.unsignedMin / b.unsignedMax ≤ a.unsignedMax / b.leastDivisor :=
    Nat.div_le_div (unsignedMin_le_unsignedMax hae) hleast hpos.ne'
  have hlo : a'.unsignedMin / b'.unsignedMax ≤ a.unsignedMin / b.unsignedMax :=
    Nat.div_le_div (unsignedMin_le_of_subset ha hae) hmax' hmax
  have hhi : a.unsignedMax / b.leastDivisor ≤ a'.unsignedMax / b'.leastDivisor :=
    Nat.div_le_div (unsignedMax_le_of_subset ha hae) hleast' hpos'.ne'
  rw [udiv_eq_cover hae hbe hmax, udiv_eq_cover (not_isEmpty_of_subset ha hae)
    (not_isEmpty_of_subset hb hbe) (by omega), hw]
  exact cover_subset_cover (by exact_mod_cast hle) (by exact_mod_cast hlo) (by exact_mod_cast hhi)

/-- Words that are given up with fewer digits or smaller counts are so with more. -/
theorem LeavesTopClear.of_subset (h : LeavesTopClear a' b') : LeavesTopClear a b := by
  have hdigits := bitLength_mono (unsignedMax_le_of_subset ha hae)
  have hcount := unsignedMax_le_of_subset hb hbe
  rw [leavesTopClear_iff, hw] at h
  rw [leavesTopClear_iff]
  omega

theorem shl_subset_shl : a.shl b ⊆ a'.shl b' := by
  have hae' := not_isEmpty_of_subset ha hae
  have hbe' := not_isEmpty_of_subset hb hbe
  by_cases hclear : LeavesTopClear a' b'
  · rw [shl_eq_cover hae hbe (.of_subset hw ha hb hae hbe hclear), shl_eq_cover hae' hbe' hclear,
      hw]
    exact cover_subset_of_extremes ha hb hae hbe shiftLeft_le_shiftLeft
  · rw [shl_eq_full hae' hbe' hclear]
    exact subset_full (by rw [width_shl, hw])

/-- Shifts to the right of larger ranges are larger. -/
theorem lshr_subset_lshr : a.lshr b ⊆ a'.lshr b' := by
  have hle := shiftRight_le_shiftRight (unsignedMin_le_unsignedMax hae)
    (unsignedMin_le_unsignedMax hbe)
  have hlo := shiftRight_le_shiftRight (unsignedMin_le_of_subset ha hae)
    (unsignedMax_le_of_subset hb hbe)
  have hhi := shiftRight_le_shiftRight (unsignedMax_le_of_subset ha hae)
    (unsignedMin_le_of_subset hb hbe)
  rw [lshr_eq_cover hae hbe,
    lshr_eq_cover (not_isEmpty_of_subset ha hae) (not_isEmpty_of_subset hb hbe), hw]
  exact cover_subset_cover (by exact_mod_cast hle) (by exact_mod_cast hlo) (by exact_mod_cast hhi)

theorem binaryAnd_subset_binaryAnd : a.binaryAnd b ⊆ a'.binaryAnd b' := by
  have hmax := unsignedMax_le_of_subset ha hae
  have hmax' := unsignedMax_le_of_subset hb hbe
  rw [binaryAnd_eq_cover hae hbe,
    binaryAnd_eq_cover (not_isEmpty_of_subset ha hae) (not_isEmpty_of_subset hb hbe), hw]
  exact cover_subset_cover (by omega) le_rfl (by omega)

theorem binaryOr_subset_binaryOr (hab : a.width = b.width) : a.binaryOr b ⊆ a'.binaryOr b' := by
  have hmin := unsignedMin_le_of_subset ha hae
  have hmin' := unsignedMin_le_of_subset hb hbe
  have hlt := lt_card_of_mem (unsignedMin_mem hae)
  have hlt' := lt_card_of_mem (unsignedMin_mem hbe)
  have hmask := a.width.mask_add_one
  rw [← hab] at hlt'
  rw [binaryOr_eq_cover hae hbe,
    binaryOr_eq_cover (not_isEmpty_of_subset ha hae) (not_isEmpty_of_subset hb hbe), hw]
  exact cover_subset_cover (by omega) (by omega) le_rfl

end Covers

/-- The range of the results grows with those of the operands. -/
theorem range_subset_range (op : BinaryOp) (hab : a.width = b.width) (hw : a'.width = a.width)
    (hw' : b'.width = b.width) (ha : a ⊆ a') (hb : b ⊆ b') :
    op.range a b ⊆ op.range a' b' := by
  have hab' : a'.width = b'.width := by rw [hw, hab, hw']
  refine subset_of_members fun hq ↦ ?_
  have hreads := BinaryOp.isEmpty_of_range hq
  cases op <;>
    simp only [BinaryOp.reads, List.forall_mem_cons, List.not_mem_nil, false_implies, implies_true,
      and_true] at hreads
  case sdiv | ashr | xor => exact ha
  case urem | srem => exact hb
  case add => exact add_subset_add hab hab' hw ha hb
  case sub => exact sub_subset_sub hab hab' hw ha hb
  all_goals obtain ⟨hae, hbe⟩ := hreads
  case mul => exact multiply_subset_multiply hw ha hb hae hbe
  case udiv => exact udiv_subset_udiv hw ha hb hae hbe (exists_divisor hbe hq)
  case shl => exact shl_subset_shl hw ha hb hae hbe
  case lshr => exact lshr_subset_lshr hw ha hb hae hbe
  case and => exact binaryAnd_subset_binaryAnd hw ha hb hae hbe
  case or => exact binaryOr_subset_binaryOr hw ha hb hae hbe hab

/-! ## Other widths -/

section Resize

variable (hw : a'.width = a.width) (h : a ⊆ a')
include hw h

theorem zeroExtend_subset_zeroExtend (hv : a.width.bits ≤ v.bits) :
    a.zeroExtend v ⊆ a'.zeroExtend v := by
  rcases eq_width_or_lt hv with rfl | hlt
  · rw [zeroExtend_self, ← hw, zeroExtend_self]
    exact h
  · cases he : a.isEmpty with
    | true =>
      rw [zeroExtend_of_isEmpty he]
      exact empty_subset
    | false =>
      have hle := unsignedMin_le_unsignedMax he
      have hlo := unsignedMin_le_of_subset h he
      have hhi := unsignedMax_le_of_subset h he
      rw [zeroExtend_eq_cover hlt he, zeroExtend_eq_cover (hw ▸ hlt) (not_isEmpty_of_subset h he)]
      exact cover_subset_cover (by omega) (by omega) (by omega)

theorem signExtend_subset_signExtend (hv : a.width.bits ≤ v.bits) :
    a.signExtend v ⊆ a'.signExtend v := by
  rcases eq_width_or_lt hv with rfl | hlt
  · rw [signExtend_self, ← hw, signExtend_self]
    exact h
  · cases he : a.isEmpty with
    | true =>
      rw [signExtend_of_isEmpty he]
      exact empty_subset
    | false =>
      rw [signExtend_eq_cover hlt he, signExtend_eq_cover (hw ▸ hlt) (not_isEmpty_of_subset h he)]
      exact cover_subset_cover (signedMin_le_signedMax he) (signedMin_le_of_subset h he hw)
        (signedMax_le_of_subset h he hw)

theorem truncate_subset_truncate (hv : v.bits ≤ a.width.bits) : a.truncate v ⊆ a'.truncate v := by
  intro z hz
  rw [mem_truncate_iff hv] at hz
  obtain ⟨x, hx, heq⟩ := hz
  rw [mem_truncate_iff (hw ▸ hv)]
  exact ⟨x, h x hx, heq⟩

end Resize

/-! ## Regions of a comparison -/

section Regions

variable (hw : a'.width = a.width) (h : a ⊆ a') (c : Comparison)
include hw h

/-- More right operands allow more left operands. -/
theorem allowed_subset_allowed : c.allowed a ⊆ c.allowed a' := by
  intro x hx
  have hlt := lt_card_of_mem hx
  rw [Comparison.width_allowed] at hlt
  obtain ⟨y, hy, hholds⟩ := (Comparison.mem_allowed_iff hlt).1 hx
  rw [← hw] at hlt hholds
  exact (Comparison.mem_allowed_iff hlt).2 ⟨y, h y hy, hholds⟩

/-- More members have fewer words that are related to all of them. -/
theorem satisfying_subset_satisfying : c.satisfying a' ⊆ c.satisfying a := by
  intro x hx
  have hlt := lt_card_of_mem hx
  rw [Comparison.width_satisfying] at hlt
  have hall := (Comparison.mem_satisfying_iff hlt).1 hx
  rw [hw] at hlt hall
  exact (Comparison.mem_satisfying_iff hlt).2 fun y hy ↦ hall y (h y hy)

end Regions

/-- **Monotonicity.**  Operands with more members, at the same width, give results with more
members: the range of each operator, extensions and truncations to each width that they allow, and
the words that a comparison allows.  The words that satisfy a comparison with all members become
fewer. -/
theorem operations_monotone :
    (∀ (op : BinaryOp) (a a' b b' : Range), a.width = b.width → a'.width = a.width →
      b'.width = b.width → a ⊆ a' → b ⊆ b' → op.range a b ⊆ op.range a' b') ∧
    ∀ a a' : Range, a'.width = a.width → a ⊆ a' →
      (∀ v : Width, a.width.bits ≤ v.bits →
        a.zeroExtend v ⊆ a'.zeroExtend v ∧ a.signExtend v ⊆ a'.signExtend v) ∧
      (∀ v : Width, v.bits ≤ a.width.bits → a.truncate v ⊆ a'.truncate v) ∧
      ∀ c : Comparison, c.allowed a ⊆ c.allowed a' ∧ c.satisfying a' ⊆ c.satisfying a :=
  ⟨fun op _ _ _ _ hab hw hw' ha hb ↦ range_subset_range op hab hw hw' ha hb,
    fun _ _ hw h ↦ ⟨fun _ hv ↦ ⟨zeroExtend_subset_zeroExtend hw h hv,
      signExtend_subset_signExtend hw h hv⟩, fun _ hv ↦ truncate_subset_truncate hw h hv,
      fun c ↦ ⟨allowed_subset_allowed hw h c, satisfying_subset_satisfying hw h c⟩⟩⟩

/-- The divisors from 5 to 9 grow past the greatest word to zero, and the dividends past the sign
boundary. -/
theorem operations_monotone_around :
    ((ofBounds byte 100 120).width = (ofBounds byte 5 10).width ∧
      (ofBounds byte 100 201).width = (ofBounds byte 100 120).width ∧
      (ofBounds byte 5 1).width = (ofBounds byte 5 10).width ∧
      ofBounds byte 100 120 ⊆ ofBounds byte 100 201 ∧ ofBounds byte 5 10 ⊆ ofBounds byte 5 1) ∧
    (ofBounds byte 100 120).udiv (ofBounds byte 5 10) ⊆
      (ofBounds byte 100 201).udiv (ofBounds byte 5 1) ∧
    (byte.bits ≤ word.bits ∧
      (ofBounds byte 100 120).signExtend word ⊆ (ofBounds byte 100 201).signExtend word) ∧
    (Width.one.bits ≤ byte.bits ∧
      (ofBounds byte 100 120).truncate .one ⊆ (ofBounds byte 100 201).truncate .one) ∧
    Comparison.slt.satisfying (ofBounds byte 100 201) ⊆
      Comparison.slt.satisfying (ofBounds byte 100 120) := by
  obtain ⟨hoperators, hranges⟩ := operations_monotone
  have hab : (ofBounds byte 100 120).width = (ofBounds byte 5 10).width := by decide
  have hw : (ofBounds byte 100 201).width = (ofBounds byte 100 120).width := by decide
  have hw' : (ofBounds byte 5 1).width = (ofBounds byte 5 10).width := by decide
  have ha : ofBounds byte 100 120 ⊆ ofBounds byte 100 201 := subset_of_containsRange hw (by decide)
  have hb : ofBounds byte 5 10 ⊆ ofBounds byte 5 1 := subset_of_containsRange hw' (by decide)
  obtain ⟨hextend, htruncate, hregions⟩ := hranges _ _ hw ha
  exact ⟨⟨hab, hw, hw', ha, hb⟩, hoperators .udiv _ _ _ _ hab hw hw' ha hb,
    ⟨by decide, (hextend word (by decide)).2⟩, ⟨by decide, htruncate .one (by decide)⟩,
    (hregions .slt).2⟩

end Range

end RangeFlow
