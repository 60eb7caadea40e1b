import Mathlib.Tactic
import RangeFlow.Proofs.Width
import RangeFlow.Range.Lattice

/-!
# The members of a range

Every operation on ranges is specified through its members.  A range is a stretch of the circle of
words, so the view used here counts from its lower bound: a word is a member iff its distance from
there is less than the number of members.  For the ranges that `cover` makes this says that the
members are the words of the covered integers.
-/

namespace RangeFlow

/-- The distance between two points of a circle of `c` points. -/
theorem sub_emod_of_lt {x l c : Int} (hx : 0 ≤ x) (hxc : x < c) (hl : 0 ≤ l) (hlc : l < c) :
    (x - l) % c = if l ≤ x then x - l else x - l + c := by
  split
  · exact Int.emod_eq_of_lt (by omega) (by omega)
  · rw [← Int.add_emod_right]
    exact Int.emod_eq_of_lt (by omega) (by omega)

namespace Range

variable {w : Width} {r : Range} {x : Nat}

/-- A word is a member if the range is full, or if it lies between the bounds, on the circle or off
it. -/
theorem mem_iff : x ∈ r ↔ x < r.width.card ∧
    (r.isFull ∨ (r.isWrapped ∧ (r.lower ≤ x ∨ x < r.upper)) ∨ (r.lower ≤ x ∧ x < r.upper)) :=
  Iff.rfl

theorem isFull_iff : r.isFull = true ↔ r.lower = r.upper ∧ r.lower = r.width.mask := by
  simp [isFull]

theorem isEmpty_iff : r.isEmpty = true ↔ r.lower = r.upper ∧ r.lower = 0 := by
  simp [isEmpty]

theorem isWrapped_iff : r.isWrapped = true ↔ r.upper < r.lower := by
  simp [isWrapped]

theorem lt_card_of_mem (h : x ∈ r) : x < r.width.card := h.1

@[simp] theorem mem_full : x ∈ full w ↔ x < w.card := by
  simp [mem_iff, isFull, full]

@[simp] theorem not_mem_empty : x ∉ empty w := by
  have := w.two_le_card
  simp [mem_iff, isFull, isWrapped, empty, Width.mask]
  omega

@[simp] theorem isFull_full : (full w).isFull = true := by simp [isFull, full]

@[simp] theorem isEmpty_empty : (empty w).isEmpty = true := by simp [isEmpty, empty]

/-- There is one full range of a width. -/
theorem eq_full_of_isFull (h : r.isFull = true) : r = full r.width := by
  obtain ⟨h₁, h₂⟩ := isFull_iff.1 h
  cases r
  simp_all [full]

/-- There is one empty range of a width. -/
theorem eq_empty_of_isEmpty (h : r.isEmpty = true) : r = empty r.width := by
  obtain ⟨h₁, h₂⟩ := isEmpty_iff.1 h
  cases r
  simp_all [empty]

theorem not_isEmpty_of_mem (h : x ∈ r) : r.isEmpty = false := by
  by_contra hne
  rw [Bool.not_eq_false] at hne
  rw [eq_empty_of_isEmpty hne] at h
  exact not_mem_empty h

/-- The test for membership reduces its argument first. -/
theorem contains_iff {v : Int} : r.contains v = true ↔ r.width.wrap v ∈ r := by
  have hlt := r.width.wrap_lt_card v
  simp only [contains, mem_iff, hlt, true_and]
  by_cases hf : r.isFull = true
  · simp [hf]
  · by_cases hw : r.isWrapped = true
    · have := isWrapped_iff.1 hw
      simp only [hf, hw, if_true, true_and]
      grind
    · simp [hf, hw]

/-- What the two bounds of a range can be, as a case distinction for arithmetic. -/
theorem cases_bounds (r : Range) :
    (r.isFull = true ∧ r.isEmpty = false ∧ r.isWrapped = false ∧
      r.lower = r.width.card - 1 ∧ r.upper = r.width.card - 1) ∨
    (r.isFull = false ∧ r.isEmpty = true ∧ r.isWrapped = false ∧ r.lower = 0 ∧ r.upper = 0) ∨
    (r.isFull = false ∧ r.isEmpty = false ∧ r.isWrapped = true ∧ r.upper < r.lower) ∨
    (r.isFull = false ∧ r.isEmpty = false ∧ r.isWrapped = false ∧ r.lower < r.upper) := by
  have hc := r.width.two_le_card
  have hs := r.special
  simp only [isFull, isEmpty, isWrapped, Width.mask] at *
  rcases lt_trichotomy r.lower r.upper with h | h | h
  · have : ¬ r.upper < r.lower := by omega
    simp [h, h.ne, this]
  · rcases hs h with h0 | h0
    · simp only [← h, h0]
      simp
      omega
    · simp only [← h, h0]
      simp
      omega
  · simp [h, h.ne']

/-- The size is the distance of the bounds on the circle. -/
theorem natCast_size (hf : r.isFull = false) :
    (r.size : Int) = if r.lower ≤ r.upper then (r.upper : Int) - r.lower
      else (r.upper : Int) - r.lower + r.width.card := by
  have hl := r.lower_lt
  have hu := r.upper_lt
  simp only [size, hf, Bool.false_eq_true, if_false]
  rw [Width.natCast_wrap, sub_emod_of_lt (by omega) (by omega) (by omega) (by omega)]
  split <;> split <;> omega

/-- Membership counted from the lower bound. -/
theorem mem_iff_dist :
    x ∈ r ↔ x < r.width.card ∧ ((x : Int) - r.lower) % r.width.card < r.size := by
  have hl := r.lower_lt
  rw [mem_iff, and_congr_right_iff]
  intro hx
  rw [sub_emod_of_lt (by omega) (by omega) (by omega) (by omega)]
  by_cases hf : r.isFull = true
  · simp only [hf, true_or, size, if_true, true_iff]
    split <;> omega
  · rw [Bool.not_eq_true] at hf
    have hu := r.upper_lt
    rw [natCast_size hf, isWrapped_iff, hf]
    grind

/-- A range has no more members than there are words. -/
theorem size_le_card (r : Range) : r.size ≤ r.width.card := by
  have := r.width.wrap_lt_card ((r.upper : Int) - r.lower)
  unfold size
  split <;> omega

/-- The members of a range follow its lower bound. -/
theorem mem_iff_exists_lt_size : x ∈ r ↔ ∃ i < r.size, x = r.width.wrap ((r.lower : Int) + i) := by
  have hc := r.width.two_le_card
  have hsize := r.size_le_card
  rw [mem_iff_dist]
  constructor
  · rintro ⟨hx, hd⟩
    have hnn : 0 ≤ ((x : Int) - r.lower) % r.width.card := Int.emod_nonneg _ (by omega)
    refine ⟨(((x : Int) - r.lower) % r.width.card).toNat, by omega, ?_⟩
    rw [Int.toNat_of_nonneg hnn, r.width.wrap_add_dist r.lower hx]
  · rintro ⟨i, hi, rfl⟩
    refine ⟨r.width.wrap_lt_card _, ?_⟩
    rw [r.width.natCast_wrap, Int.emod_sub_emod, add_sub_cancel_left,
      Int.emod_eq_of_lt (by omega) (by omega)]
    omega

section Bounds

variable {l u : Int} (h : w.wrap l ≠ w.wrap u)
include h

theorem lower_ofBounds : (ofBounds w l u).lower = w.wrap l := by simp [ofBounds, h]

theorem upper_ofBounds : (ofBounds w l u).upper = w.wrap u := by simp [ofBounds, h]

theorem isFull_ofBounds : (ofBounds w l u).isFull = false := by
  simp [isFull, lower_ofBounds h, upper_ofBounds h, h]

/-- The size of a range between bounds is their distance on the circle. -/
theorem natCast_size_ofBounds : ((ofBounds w l u).size : Int) = (u - l) % w.card := by
  simp only [size, isFull_ofBounds h, lower_ofBounds h, upper_ofBounds h, width_ofBounds,
    Bool.false_eq_true, if_false]
  rw [w.natCast_wrap, w.natCast_wrap, w.natCast_wrap, ← Int.sub_emod]

/-- The members between two bounds that do not coincide, counted from the lower one. -/
theorem mem_ofBounds_iff_dist :
    x ∈ ofBounds w l u ↔ x < w.card ∧ ((x : Int) - l) % w.card < (u - l) % w.card := by
  rw [mem_iff_dist, natCast_size_ofBounds h, lower_ofBounds h, width_ofBounds, w.natCast_wrap,
    Int.sub_emod_emod]

end Bounds

/-- The members of a cover are the words of the integers it covers. -/
theorem mem_cover {lo hi : Int} (h : lo ≤ hi) :
    x ∈ cover w lo hi ↔ ∃ v, lo ≤ v ∧ v ≤ hi ∧ w.wrap v = x := by
  have hc := w.two_le_card
  have hnn : 0 ≤ ((x : Int) - lo) % w.card := Int.emod_nonneg _ (by omega)
  have hlt : ((x : Int) - lo) % w.card < w.card := Int.emod_lt_of_pos _ (by omega)
  unfold cover
  split
  · rename_i hfull
    rw [mem_full]
    constructor
    · intro hx
      exact ⟨_, by omega, by omega, w.wrap_add_dist lo hx⟩
    · rintro ⟨v, -, -, rfl⟩
      exact w.wrap_lt_card v
  · rename_i hfull
    have hsize : (hi + 1 - lo) % w.card = hi + 1 - lo := Int.emod_eq_of_lt (by omega) (by omega)
    have hne : w.wrap lo ≠ w.wrap (hi + 1) := by
      intro e
      have := Int.emod_emod_of_dvd (hi + 1 - lo) (dvd_refl (w.card : Int))
      rw [w.wrap_eq_wrap, eq_comm, Int.emod_eq_emod_iff_emod_sub_eq_zero] at e
      omega
    rw [mem_ofBounds_iff_dist hne, hsize]
    constructor
    · rintro ⟨hx, hd⟩
      exact ⟨_, by omega, by omega, w.wrap_add_dist lo hx⟩
    · rintro ⟨v, hlo, hhi, rfl⟩
      refine ⟨w.wrap_lt_card v, ?_⟩
      rw [w.natCast_wrap, Int.emod_sub_emod, Int.emod_eq_of_lt (by omega) (by omega)]
      omega

/-- A number between the bounds of a cover has its word inside. -/
theorem wrap_mem_cover {lo hi v : Int} (hlo : lo ≤ v) (hhi : v ≤ hi) :
    w.wrap v ∈ cover w lo hi :=
  (mem_cover (hlo.trans hhi)).2 ⟨v, hlo, hhi, rfl⟩

/-- A range of one value has its word as the only member. -/
theorem mem_singleton {v : Int} : x ∈ singleton w v ↔ x = w.wrap v := by
  have hcov : singleton w v = cover w v v := by
    have := w.two_le_card
    unfold singleton cover
    rw [if_neg (by omega)]
  rw [hcov, mem_cover le_rfl]
  constructor
  · rintro ⟨u, h₁, h₂, rfl⟩
    rw [le_antisymm h₂ h₁]
  · rintro rfl
    exact ⟨v, le_rfl, le_rfl, rfl⟩

/-- A range that is not empty starts with its lower bound. -/
theorem lower_mem (h : r.isEmpty = false) : r.lower ∈ r := by
  have hl := r.lower_lt
  have hu := r.upper_lt
  rw [mem_iff]
  rcases r.cases_bounds with h' | h' | h' | h' <;> grind

/-! ## Least and greatest members -/

theorem unsignedMin_le_of_mem (h : x ∈ r) : r.unsignedMin ≤ x := by
  obtain ⟨hx, h⟩ := mem_iff.1 h
  unfold unsignedMin
  rcases r.cases_bounds with h' | h' | h' | h' <;> grind

theorem le_unsignedMax_of_mem (h : x ∈ r) : x ≤ r.unsignedMax := by
  obtain ⟨hx, h⟩ := mem_iff.1 h
  unfold unsignedMax Width.mask
  rcases r.cases_bounds with h' | h' | h' | h' <;> grind

theorem unsignedMax_mem (h : r.isEmpty = false) : r.unsignedMax ∈ r := by
  have hc := r.width.two_le_card
  have hl := r.lower_lt
  have hu := r.upper_lt
  unfold unsignedMax Width.mask
  rw [mem_iff]
  rcases r.cases_bounds with h' | h' | h' | h' <;> grind

theorem unsignedMin_le_unsignedMax (h : r.isEmpty = false) : r.unsignedMin ≤ r.unsignedMax :=
  unsignedMin_le_of_mem (unsignedMax_mem h)

theorem unsignedMax_lt_card (h : r.isEmpty = false) : r.unsignedMax < r.width.card :=
  lt_card_of_mem (unsignedMax_mem h)

/-! ## A range is known by its members -/

/-- A range is empty if and only if it has no member. -/
theorem isEmpty_iff_forall : r.isEmpty = true ↔ ∀ x, x ∉ r := by
  constructor
  · intro he x
    rw [eq_empty_of_isEmpty he]
    exact not_mem_empty
  · intro h
    by_contra he
    exact h r.lower (lower_mem (by simpa using he))

/-- The upper bound lies outside, unless all words are members. -/
theorem upper_notMem (hf : r.isFull = false) : r.upper ∉ r := by
  rw [mem_iff]
  rcases r.cases_bounds with h | h | h | h <;> simp [h] at hf ⊢

/-- A range is full if and only if every word is a member. -/
theorem isFull_iff_forall : r.isFull = true ↔ ∀ x < r.width.card, x ∈ r := by
  constructor
  · intro hf x hx
    rw [eq_full_of_isFull hf]
    exact mem_full.2 hx
  · intro h
    by_contra hf
    exact upper_notMem (by simpa using hf) (h r.upper r.upper_lt)

/-- A range starts where the word before is none of it. -/
theorem eq_lower_iff (hf : r.isFull = false) (he : r.isEmpty = false) :
    x = r.lower ↔ x ∈ r ∧ r.width.before x ∉ r := by
  have hl := r.lower_lt
  have hu := r.upper_lt
  rw [mem_iff, mem_iff, Width.before]
  rcases r.cases_bounds with h | h | h | h <;> simp [h] at hf he ⊢
  · split <;> omega
  · split <;> omega

/-- A range ends where the word before is the last one of it. -/
theorem eq_upper_iff (hf : r.isFull = false) (he : r.isEmpty = false) :
    x = r.upper ↔ x < r.width.card ∧ x ∉ r ∧ r.width.before x ∈ r := by
  have hl := r.lower_lt
  have hu := r.upper_lt
  rw [mem_iff, mem_iff, Width.before]
  rcases r.cases_bounds with h | h | h | h <;> simp [h] at hf he ⊢
  · split <;> omega
  · split <;> omega

/-- Ranges of one width with the same members are the same. -/
theorem eq_of_mem_iff {a b : Range} (hw : a.width = b.width) (h : ∀ x, x ∈ a ↔ x ∈ b) : a = b := by
  have hbounds : a.lower = b.lower ∧ a.upper = b.upper := by
    have hempty : a.isEmpty = b.isEmpty := by
      rw [Bool.eq_iff_iff, isEmpty_iff_forall, isEmpty_iff_forall]
      exact forall_congr' fun x ↦ not_congr (h x)
    have hfull : a.isFull = b.isFull := by
      rw [Bool.eq_iff_iff, isFull_iff_forall, isFull_iff_forall, hw]
      exact forall₂_congr fun x _ ↦ h x
    cases hf : b.isFull with
    | true =>
      obtain ⟨ha, ha'⟩ := isFull_iff.1 (hfull.trans hf)
      obtain ⟨hb, hb'⟩ := isFull_iff.1 hf
      rw [← ha, ← hb, ha', hb', hw]
      exact ⟨rfl, rfl⟩
    | false =>
      cases he : b.isEmpty with
      | true =>
        obtain ⟨ha, ha'⟩ := isEmpty_iff.1 (hempty.trans he)
        obtain ⟨hb, hb'⟩ := isEmpty_iff.1 he
        rw [← ha, ← hb, ha', hb']
        exact ⟨rfl, rfl⟩
      | false =>
        rw [hf] at hfull
        rw [he] at hempty
        constructor
        · rw [eq_lower_iff hf he, ← h, ← h, ← hw]
          exact (eq_lower_iff hfull hempty).1 rfl
        · rw [eq_upper_iff hf he, ← h, ← h, ← hw]
          exact (eq_upper_iff hfull hempty).1 rfl
  cases a
  cases b
  simp_all

end Range

end RangeFlow
