import RangeFlow.Proofs.Comparison.Exact
import RangeFlow.Proofs.Range.Smallest

/-!
# Extensions are smallest covers

An extension covers the integers from the least to the greatest member, in unsigned or in signed
order.  They lie in one half of the larger circle, so a range of the larger width that has both ends
has all words between them or goes around the other half, which is no shorter
(`isSmallestCover_cover`).
-/

namespace RangeFlow

namespace Range

open Width (byte word)

variable {c r : Range} {v w : Width} {S : Set Nat} {lo hi : Int}

/-! ## Covers of one half of the circle -/

/-- A cover has no more members than there are numbers between its bounds. -/
theorem size_cover_le (hle : lo ≤ hi) : ((cover w lo hi).size : Int) ≤ hi - lo + 1 := by
  unfold cover
  split
  · rename_i hfull
    have hsize : (full w).size = w.card := size_of_isFull isFull_full
    omega
  · by_cases h : w.wrap lo = w.wrap (hi + 1)
    · -- Fewer integers than words do not come around to the first word.
      rw [Width.wrap_eq_wrap, eq_comm, Int.emod_eq_emod_iff_emod_sub_eq_zero,
        Int.emod_eq_of_lt (by omega) (by omega)] at h
      omega
    · rw [natCast_size_ofBounds h, Int.emod_eq_of_lt (by omega) (by omega)]
      omega

/-- A range that has both ends of a stretch of at most half the circle has no fewer members than
the stretch. -/
theorem lt_size_of_ends (hw : c.width = w) (hle : lo ≤ hi) (hhalf : 2 * (hi - lo) ≤ w.card)
    (hlo : w.wrap lo ∈ c) (hhi : w.wrap hi ∈ c) : hi - lo < c.size := by
  subst hw
  have hcard := c.width.two_le_card
  obtain ⟨i, hi', hstart⟩ := mem_iff_exists_lt_size.1 hlo
  obtain ⟨j, hj', hend⟩ := mem_iff_exists_lt_size.1 hhi
  have hsize := c.size_le_card
  -- The steps between the two ends within the range are those of the stretch.
  have hsteps : ((j : Int) - i) % c.width.card = hi - lo := by
    rw [Width.wrap_eq_wrap] at hstart hend
    rw [← add_sub_add_left_eq_sub (j : Int) i c.lower, Int.sub_emod, ← hstart, ← hend,
      ← Int.sub_emod, Int.emod_eq_of_lt (by omega) (by omega)]
  rcases le_or_gt i j with hij | hij
  · rw [Int.emod_eq_of_lt (by omega) (by omega)] at hsteps
    omega
  · rw [← Int.add_emod_right, Int.emod_eq_of_lt (by omega) (by omega)] at hsteps
    omega

/-- A stretch of at most half the circle is a smallest cover of any words on it, both its ends
among them. -/
theorem isSmallestCover_cover (hle : lo ≤ hi) (hhalf : 2 * (hi - lo) ≤ w.card)
    (hlo : w.wrap lo ∈ S) (hhi : w.wrap hi ∈ S)
    (hbetween : ∀ x ∈ S, ∃ z, lo ≤ z ∧ z ≤ hi ∧ w.wrap z = x) :
    (cover w lo hi).IsSmallestCover S := by
  refine .of_size_le (fun x hx ↦ (mem_cover hle).2 (hbetween x hx)) fun c hw hc ↦ ?_
  have hcover := size_cover_le (w := w) hle
  have hlt := lt_size_of_ends (hw.trans (width_cover w lo hi)) hle hhalf (hc _ hlo) (hc _ hhi)
  omega

/-! ## Extensions -/

/-- A larger width has at least twice as many words. -/
theorem two_mul_card_le (h : w.bits < v.bits) : 2 * w.card ≤ v.card := by
  calc 2 * w.card = wordCount (w.bits + 1) := by rw [wordCount_succ, mul_comm]; rfl
    _ ≤ v.card := Nat.pow_le_pow_right (by decide) h

/-- An extension by zeros covers the members from the least to the greatest. -/
theorem zeroExtend_eq_cover (hv : r.width.bits < v.bits) (he : r.isEmpty = false) :
    r.zeroExtend v = cover v r.unsignedMin r.unsignedMax := by
  have hne : v ≠ r.width := by
    rintro rfl
    exact lt_irrefl _ hv
  have hcard := two_mul_card_le hv
  have hu := r.upper_lt
  unfold zeroExtend unsignedMin unsignedMax
  rw [if_neg hne, he, if_neg Bool.false_ne_true]
  rcases r.cases_bounds with ⟨hf, -, hwrap, -⟩ | ⟨-, he', -⟩ | ⟨hf, -, hwrap, -⟩ |
    ⟨hf, -, hwrap, hlt⟩
  · simp [hf]
  · rw [he] at he'
    cases he'
  · by_cases hzero : r.upper = 0 <;> simp [hf, hwrap, hzero]
  · have hfew : ¬(v.card : Int) ≤ ((r.upper - 1 : Nat) : Int) - r.lower + 1 := by omega
    have hlast : ((r.upper - 1 : Nat) : Int) + 1 = r.upper := by omega
    simp only [hf, hwrap, Bool.false_and, Bool.or_self, Bool.false_eq_true, if_false]
    rw [cover, if_neg hfew, hlast]

theorem signedMin_le_signedMax (he : r.isEmpty = false) : r.signedMin ≤ r.signedMax := by
  obtain ⟨greatest, hgreatest, hmax⟩ := exists_signed_eq_signedMax he
  rw [← hmax]
  exact signedMin_le_of_mem hgreatest

/-- An extension by the sign covers the signed numbers from the least to the greatest. -/
theorem signExtend_eq_cover (hv : r.width.bits < v.bits) (he : r.isEmpty = false) :
    r.signExtend v = cover v r.signedMin r.signedMax := by
  have hne : v ≠ r.width := by
    rintro rfl
    exact lt_irrefl _ hv
  rw [signExtend, if_neg hne, he, if_neg Bool.false_ne_true]

theorem zeroExtend_self (r : Range) : r.zeroExtend r.width = r := by
  rw [zeroExtend, if_pos rfl]

theorem signExtend_self (r : Range) : r.signExtend r.width = r := by
  rw [signExtend, if_pos rfl]

theorem zeroExtend_of_isEmpty (he : r.isEmpty = true) (v : Width) : r.zeroExtend v = empty v := by
  unfold zeroExtend
  split
  · rename_i hv
    rw [hv]
    exact eq_empty_of_isEmpty he
  · rfl

theorem signExtend_of_isEmpty (he : r.isEmpty = true) (v : Width) : r.signExtend v = empty v := by
  unfold signExtend
  split
  · rename_i hv
    rw [hv]
    exact eq_empty_of_isEmpty he
  · rfl

/-- A width of no fewer bits is the same one, or of more bits. -/
theorem eq_width_or_lt (hv : r.width.bits ≤ v.bits) : v = r.width ∨ r.width.bits < v.bits := by
  refine hv.eq_or_lt.imp_left fun heq ↦ ?_
  cases v
  cases hw : r.width
  simp_all

/-- No smaller range of the wider width holds all members. -/
theorem isSmallestCover_zeroExtend (hv : r.width.bits ≤ v.bits) :
    (r.zeroExtend v).IsSmallestCover {x | x ∈ r} := by
  rcases eq_width_or_lt hv with rfl | hlt
  · rw [zeroExtend_self]
    exact .of_forall_iff fun x ↦ Iff.rfl
  cases he : r.isEmpty with
  | true =>
    rw [zeroExtend_of_isEmpty he]
    exact .of_forall_iff fun x ↦ iff_of_false not_mem_empty (isEmpty_iff_forall.1 he x)
  | false =>
    have hcard := two_mul_card_le hlt
    have hmax := unsignedMax_lt_card he
    have hword {x : Nat} (hx : x ∈ r) : v.wrap x = x := by
      have hlt := lt_card_of_mem hx
      exact v.wrap_natCast_of_lt (by omega)
    have hle := unsignedMin_le_unsignedMax he
    rw [zeroExtend_eq_cover hlt he]
    refine isSmallestCover_cover (by omega) (by omega) ?least ?greatest fun x hx ↦ ?between
    case least =>
      rw [hword (unsignedMin_mem he)]
      exact unsignedMin_mem he
    case greatest =>
      rw [hword (unsignedMax_mem he)]
      exact unsignedMax_mem he
    case between =>
      have hmin := unsignedMin_le_of_mem hx
      have hmax := le_unsignedMax_of_mem hx
      exact ⟨x, by omega, by omega, hword hx⟩

/-- No smaller range of the wider width holds the words of all signed members. -/
theorem isSmallestCover_signExtend (hv : r.width.bits ≤ v.bits) :
    (r.signExtend v).IsSmallestCover {y | ∃ x ∈ r, y = v.wrap (r.width.signed x)} := by
  rcases eq_width_or_lt hv with rfl | hlt
  · rw [signExtend_self]
    refine .of_forall_iff fun y ↦ ⟨fun hy ↦ ⟨y, hy, ?_⟩, ?_⟩
    · rw [r.width.wrap_signed (lt_card_of_mem hy)]
    · rintro ⟨x, hx, rfl⟩
      rwa [r.width.wrap_signed (lt_card_of_mem hx)]
  cases he : r.isEmpty with
  | true =>
    rw [signExtend_of_isEmpty he]
    refine .of_forall_iff fun y ↦ iff_of_false not_mem_empty ?_
    rintro ⟨x, hx, -⟩
    exact isEmpty_iff_forall.1 he x hx
  | false =>
    have hcard := two_mul_card_le hlt
    have hhalf := r.width.card_eq_half
    obtain ⟨least, hleast, hmin⟩ := exists_signed_eq_signedMin he
    obtain ⟨greatest, hgreatest, hmax⟩ := exists_signed_eq_signedMax he
    have hlo := neg_half_le_signedMin r
    have hhi := signedMax_lt_half hgreatest
    have hle := signedMin_le_signedMax he
    rw [signExtend_eq_cover hlt he]
    refine isSmallestCover_cover (by omega) (by omega) ⟨least, hleast, ?_⟩
      ⟨greatest, hgreatest, ?_⟩ ?between
    · rw [hmin]
    · rw [hmax]
    case between =>
      rintro _ ⟨x, hx, rfl⟩
      exact ⟨_, signedMin_le_of_mem hx, le_signedMax_of_mem hx, rfl⟩

/-- **Extensions.**  At a width of no fewer bits a range has an extension by zeros, which has all
its members, and an extension by the sign, which has the words of the signed numbers of its members;
no range of that width that has these words has fewer members. -/
theorem extend_smallest {a : Range} {v : Width} (hv : a.width.bits ≤ v.bits) :
    ((a.zeroExtend v).width = v ∧ (a.zeroExtend v).IsSmallestCover {x | x ∈ a}) ∧
    (a.signExtend v).width = v ∧ (a.signExtend v).IsSmallestCover
      {y | ∃ x ∈ a, (y : Int) =
        (if 2 ^ (a.width.bits - 1) ≤ x then (x : Int) - 2 ^ a.width.bits else x) % 2 ^ v.bits} := by
  have hwords : {y : Nat | ∃ x ∈ a, (y : Int) =
      (if 2 ^ (a.width.bits - 1) ≤ x then (x : Int) - 2 ^ a.width.bits else x) % 2 ^ v.bits} =
      {y | ∃ x ∈ a, y = v.wrap (a.width.signed x)} := by
    ext y
    refine exists_congr fun x ↦ and_congr_right fun _ ↦ ?_
    have hcard : (a.width.card : Int) = 2 ^ a.width.bits := Nat.cast_pow 2 _
    have hcard' : (v.card : Int) = 2 ^ v.bits := Nat.cast_pow 2 _
    have hhalf : a.width.half = 2 ^ (a.width.bits - 1) := rfl
    rw [← hcard, ← hcard', ← hhalf, ← Width.signed_eq, ← v.natCast_wrap, Nat.cast_inj]
  rw [hwords]
  exact ⟨⟨width_zeroExtend a v, isSmallestCover_zeroExtend hv⟩, width_signExtend a v,
    isSmallestCover_signExtend hv⟩

/-- Twenty words around 0 become all 256 words when they are extended by zeros, but stay together
when they are extended by the sign. -/
theorem extend_smallest_wrapped :
    (ofBounds byte 246 10).width.bits ≤ word.bits ∧
    (ofBounds byte 246 10).zeroExtend word = ofBounds word 0 256 ∧
    (ofBounds word 0 256).IsSmallestCover {x | x ∈ ofBounds byte 246 10} ∧
    (ofBounds byte 246 10).signExtend word = ofBounds word (-10) 10 ∧
    (ofBounds word (-10) 10).IsSmallestCover {y | ∃ x ∈ ofBounds byte 246 10,
      (y : Int) = (if 2 ^ 7 ≤ x then (x : Int) - 2 ^ 8 else (x : Int)) % 2 ^ 16} := by
  have hv : (ofBounds byte 246 10).width.bits ≤ word.bits := by decide
  have hzero : (ofBounds byte 246 10).zeroExtend word = ofBounds word 0 256 := by decide
  have hsign : (ofBounds byte 246 10).signExtend word = ofBounds word (-10) 10 := by decide
  obtain ⟨⟨-, hcover⟩, -, hcover'⟩ := extend_smallest hv
  rw [hzero] at hcover
  rw [hsign] at hcover'
  exact ⟨hv, hzero, hcover, hsign, hcover'⟩

end Range

end RangeFlow
