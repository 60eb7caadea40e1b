import RangeFlow.Proofs.Range.Member
import RangeFlow.Range.Conform
import RangeFlow.Range.Lattice

/-!
# Unions and intersections hold what they should

`union` gives a range around the members of both operands, and `intersect` one around the common
members.  Both go by cases on whether the operands wrap (`union_cases`, `intersect_cases`);
membership in an operand, once its case is known, is a matter of its bounds.
-/

namespace RangeFlow

namespace Range

variable {a b r : Range} {x : Nat} {w : Width}

/-- Membership in a range with given bounds that do not coincide. -/
theorem mem_ofBounds_natCast {l u : Nat} (hl : l < w.card) (hu : u < w.card) (hne : l ≠ u) :
    x ∈ ofBounds w l u ↔ x < w.card ∧ ((u < l ∧ (l ≤ x ∨ x < u)) ∨ (l ≤ x ∧ x < u)) := by
  have hbounds : (ofBounds w l u).lower = l ∧ (ofBounds w l u).upper = u := by
    simp [ofBounds, hl, hu, hne]
  have hfull : (ofBounds w l u).isFull = false := by
    simp [isFull, hbounds, hne]
  rw [mem_iff, width_ofBounds, hfull, isWrapped_iff, hbounds.1, hbounds.2]
  simp

/-- A range that has bounds of its own and does not wrap. -/
def IsPlain (r : Range) : Prop := r.isFull = false ∧ r.isEmpty = false ∧ r.isWrapped = false

theorem IsPlain.lower_lt_upper (h : r.IsPlain) : r.lower < r.upper := by
  obtain ⟨hf, he, hw⟩ := h
  rcases r.cases_bounds with h' | h' | h' | h' <;> simp_all

/-- The members of a plain range lie between its bounds. -/
theorem IsPlain.mem_iff (h : r.IsPlain) :
    x ∈ r ↔ x < r.width.card ∧ r.lower ≤ x ∧ x < r.upper := by
  obtain ⟨hf, -, hw⟩ := h
  simp [Range.mem_iff, hf, hw]

/-- The members of a wrapped range lie outside the gap between its bounds. -/
theorem mem_iff_of_isWrapped (h : r.isWrapped = true) :
    x ∈ r ↔ x < r.width.card ∧ (r.lower ≤ x ∨ x < r.upper) := by
  have hlt := isWrapped_iff.1 h
  rw [mem_iff, isFull_iff, h]
  grind

/-- The bounds of two ranges of one width are words of it. -/
theorem bounds_lt (hw : a.width = b.width) : a.lower < a.width.card ∧ a.upper < a.width.card ∧
    b.lower < a.width.card ∧ b.upper < a.width.card := by
  rw [hw]
  exact ⟨hw ▸ a.lower_lt, hw ▸ a.upper_lt, b.lower_lt, b.upper_lt⟩

/-! ## Unions -/

/-- A union is an operand that is full, or whose other one is empty; else it goes by whether the
operands wrap. -/
theorem union_cases {P : Range → Prop} (left : (a.isFull || b.isEmpty) = true → P a)
    (right : (b.isFull || a.isEmpty) = true → P b)
    (plain : a.IsPlain → b.IsPlain → P (unionPlain a b))
    (mixed : a.isWrapped = true → b.IsPlain → P (unionMixed a b))
    (swapped : a.IsPlain → b.isWrapped = true → P (unionMixed b a))
    (wrapped : a.isWrapped = true → b.isWrapped = true → P (unionWrapped a b)) :
    P (a.union b) := by
  unfold union
  split
  · rename_i hc
    exact left hc
  · rename_i hc
    simp only [Bool.or_eq_true, not_or, Bool.not_eq_true] at hc
    split
    · rename_i hc'
      exact right hc'
    · rename_i hc'
      simp only [Bool.or_eq_true, not_or, Bool.not_eq_true] at hc'
      split
      · rename_i ha hb
        exact plain ⟨hc.1, hc'.2, ha⟩ ⟨hc'.1, hc.2, hb⟩
      · rename_i ha hb
        exact mixed ha ⟨hc'.1, hc.2, hb⟩
      · rename_i ha hb
        exact swapped ⟨hc.1, hc'.2, ha⟩ hb
      · rename_i ha hb
        exact wrapped ha hb

/-- A range that is full, or whose other one is empty, has the members of both. -/
theorem mem_of_isFull_or_isEmpty (hw : a.width = b.width) (hc : (a.isFull || b.isEmpty) = true)
    (h : x ∈ a ∨ x ∈ b) : x ∈ a := by
  rw [Bool.or_eq_true] at hc
  rcases hc with hf | he
  · rw [eq_full_of_isFull hf]
    exact mem_full.2 (h.elim lt_card_of_mem fun h ↦ hw ▸ lt_card_of_mem h)
  · refine h.resolve_right fun hb ↦ ?_
    rw [not_isEmpty_of_mem hb] at he
    cases he

/-- A union of plain ranges holds the members of both. -/
theorem mem_unionPlain (hw : a.width = b.width) (ha : a.IsPlain) (hb : b.IsPlain)
    (h : x ∈ a ∨ x ∈ b) : x ∈ unionPlain a b := by
  obtain ⟨h₁, h₂, h₃, h₄⟩ := bounds_lt hw
  have h₅ := ha.lower_lt_upper
  have h₆ := hb.lower_lt_upper
  rw [ha.mem_iff, hb.mem_iff] at h
  rw [← hw] at h
  unfold unionPlain
  dsimp only
  split
  · split
    · rw [mem_ofBounds_natCast h₁ h₄ (by grind)]
      grind
    · rw [mem_ofBounds_natCast h₃ h₂ (by grind)]
      grind
  · rw [← Nat.cast_min, ← Nat.cast_max, mem_ofBounds_natCast (by omega) (by omega) (by omega)]
    omega

/-- A union of a wrapped range with a plain one holds the members of both. -/
theorem mem_unionMixed (hw : a.width = b.width) (ha : a.isWrapped = true) (hb : b.IsPlain)
    (h : x ∈ a ∨ x ∈ b) : x ∈ unionMixed a b := by
  obtain ⟨h₁, h₂, h₃, h₄⟩ := bounds_lt hw
  have h₅ := isWrapped_iff.1 ha
  have h₆ := hb.lower_lt_upper
  rw [mem_iff_of_isWrapped ha, hb.mem_iff] at h
  rw [← hw] at h
  unfold unionMixed
  dsimp only
  split
  · rw [mem_iff_of_isWrapped ha]
    grind
  · split
    · rw [mem_full]
      grind
    · -- The gap that is bridged lies above the upper part of `a` or below its lower part.
      have hleft : a.lower ≤ b.upper ∨ x ∈ ofBounds a.width a.lower b.upper := by
        by_cases hle : a.lower ≤ b.upper
        · exact .inl hle
        · rw [mem_ofBounds_natCast h₁ h₄ (by omega)]
          grind
      have hright : b.lower ≤ a.upper ∨ x ∈ ofBounds a.width b.lower a.upper := by
        by_cases hle : b.lower ≤ a.upper
        · exact .inl hle
        · rw [mem_ofBounds_natCast h₃ h₂ (by omega)]
          grind
      grind

/-- A union of wrapped ranges holds the members of both. -/
theorem mem_unionWrapped (hw : a.width = b.width) (ha : a.isWrapped = true)
    (hb : b.isWrapped = true) (h : x ∈ a ∨ x ∈ b) : x ∈ unionWrapped a b := by
  obtain ⟨h₁, h₂, h₃, h₄⟩ := bounds_lt hw
  rw [mem_iff_of_isWrapped ha, mem_iff_of_isWrapped hb] at h
  rw [← hw] at h
  unfold unionWrapped
  split
  · rw [mem_full]
    omega
  · rw [← Nat.cast_min, ← Nat.cast_max, mem_ofBounds_natCast (by omega) (by omega) (by omega)]
    omega

/-- The union of two ranges of one width holds the members of both. -/
theorem mem_union (hw : a.width = b.width) (h : x ∈ a ∨ x ∈ b) : x ∈ a.union b :=
  union_cases (P := (x ∈ ·)) (fun hc ↦ mem_of_isFull_or_isEmpty hw hc h)
    (fun hc ↦ mem_of_isFull_or_isEmpty hw.symm hc h.symm) (fun ha hb ↦ mem_unionPlain hw ha hb h)
    (fun ha hb ↦ mem_unionMixed hw ha hb h) (fun ha hb ↦ mem_unionMixed hw.symm hb ha h.symm)
    fun ha hb ↦ mem_unionWrapped hw ha hb h

/-! ## Intersections -/

/-- An intersection is an operand that is empty, or whose other one is full; else it goes by whether
the operands wrap. -/
theorem intersect_cases {P : Range → Prop} (left : (a.isEmpty || b.isFull) = true → P a)
    (right : (b.isEmpty || a.isFull) = true → P b)
    (plain : a.IsPlain → b.IsPlain → P (intersectPlain a b))
    (mixed : a.isWrapped = true → b.IsPlain → P (intersectMixed a b))
    (swapped : a.IsPlain → b.isWrapped = true → P (intersectMixed b a))
    (wrapped : a.isWrapped = true → b.isWrapped = true → P (intersectWrapped a b)) :
    P (a.intersect b) := by
  unfold intersect
  split
  · rename_i hc
    exact left hc
  · rename_i hc
    simp only [Bool.or_eq_true, not_or, Bool.not_eq_true] at hc
    split
    · rename_i hc'
      exact right hc'
    · rename_i hc'
      simp only [Bool.or_eq_true, not_or, Bool.not_eq_true] at hc'
      split
      · rename_i ha hb
        exact plain ⟨hc'.2, hc.1, ha⟩ ⟨hc.2, hc'.1, hb⟩
      · rename_i ha hb
        exact mixed ha ⟨hc.2, hc'.1, hb⟩
      · rename_i ha hb
        exact swapped ⟨hc'.2, hc.1, ha⟩ hb
      · rename_i ha hb
        exact wrapped ha hb

/-- The smaller one of two ranges holds their common members. -/
theorem mem_smaller (ha : x ∈ a) (hb : x ∈ b) : x ∈ smaller a b := by
  unfold smaller
  split
  · exact ha
  · exact hb

/-- An intersection of plain ranges holds their common members. -/
theorem mem_intersectPlain (hw : a.width = b.width) (ha : a.IsPlain) (hb : b.IsPlain)
    (hxa : x ∈ a) (hxb : x ∈ b) : x ∈ intersectPlain a b := by
  obtain ⟨h₁, h₂, h₃, h₄⟩ := bounds_lt hw
  rw [ha.mem_iff] at hxa
  rw [hb.mem_iff] at hxb
  unfold intersectPlain
  rw [if_pos (by omega), ← Nat.cast_min, ← Nat.cast_max,
    mem_ofBounds_natCast (by omega) (by omega) (by omega)]
  omega

/-- An intersection of a wrapped range with a plain one holds their common members. -/
theorem mem_intersectMixed (hw : a.width = b.width) (ha : a.isWrapped = true) (hb : b.IsPlain)
    (hxa : x ∈ a) (hxb : x ∈ b) : x ∈ intersectMixed a b := by
  obtain ⟨h₁, h₂, h₃, h₄⟩ := bounds_lt hw
  have h₅ := isWrapped_iff.1 ha
  have hxa' := (mem_iff_of_isWrapped ha).1 hxa
  have hxb' := hb.mem_iff.1 hxb
  unfold intersectMixed
  split
  · exact mem_smaller hxa hxb
  · rename_i hlt hle
    simp only [decide_eq_true_eq, decide_eq_false_iff_not] at hlt hle
    rw [← Nat.cast_min, mem_ofBounds_natCast (by omega) (by omega) (by omega)]
    omega
  · rename_i hlt hle
    simp only [decide_eq_true_eq, decide_eq_false_iff_not] at hlt hle
    rw [← Nat.cast_max, mem_ofBounds_natCast (by omega) (by omega) (by omega)]
    omega
  · rename_i hlt hle
    simp only [decide_eq_false_iff_not] at hlt hle
    omega

/-- An intersection of wrapped ranges holds their common members. -/
theorem mem_intersectWrapped (hw : a.width = b.width) (ha : a.isWrapped = true)
    (hb : b.isWrapped = true) (hxa : x ∈ a) (hxb : x ∈ b) : x ∈ intersectWrapped a b := by
  obtain ⟨h₁, h₂, h₃, h₄⟩ := bounds_lt hw
  have h₅ := isWrapped_iff.1 ha
  have h₆ := isWrapped_iff.1 hb
  have hxa' := (mem_iff_of_isWrapped ha).1 hxa
  have hxb' := (mem_iff_of_isWrapped hb).1 hxb
  unfold intersectWrapped
  split
  · exact mem_smaller hxa hxb
  · rename_i hc
    simp only [Bool.or_eq_true, decide_eq_true_eq, not_or, not_lt] at hc
    rw [← Nat.cast_min, ← Nat.cast_max, mem_ofBounds_natCast (by omega) (by omega) (by omega)]
    omega

/-- The intersection of two ranges of one width holds the common members. -/
theorem mem_intersect (hw : a.width = b.width) (hxa : x ∈ a) (hxb : x ∈ b) :
    x ∈ a.intersect b :=
  intersect_cases (P := (x ∈ ·)) (fun _ ↦ hxa) (fun _ ↦ hxb)
    (fun ha hb ↦ mem_intersectPlain hw ha hb hxa hxb)
    (fun ha hb ↦ mem_intersectMixed hw ha hb hxa hxb)
    (fun ha hb ↦ mem_intersectMixed hw.symm hb ha hxb hxa)
    fun ha hb ↦ mem_intersectWrapped hw ha hb hxa hxb

/-! ## Inclusion -/

/-- What is tested for inclusion is enough for it. -/
theorem mem_of_containsRange (hw : a.width = b.width) (h : a.containsRange b = true) (hx : x ∈ b) :
    x ∈ a := by
  have hlt := lt_card_of_mem hx
  have hau := a.upper_lt
  have hbl := b.lower_lt
  rw [mem_iff] at hx ⊢
  unfold containsRange at h
  rcases a.cases_bounds with ha | ha | ha | ha <;> rcases b.cases_bounds with hb | hb | hb | hb <;>
    grind

end Range

end RangeFlow
