import RangeFlow.Proofs.Range.Lattice

/-!
# Smallest covers

The words of two ranges need not be those of one, and neither need their common words.  Of the
ranges around a set of words one is smallest if none has fewer members (`IsSmallestCover`); there
can be several, of one size.  `union` gives a smallest range around the words of its operands: a
range that has them all leaves out a part of a gap between them at most, and `union` leaves out the
greater gap.  `intersect` gives a smallest range around the common words: if each operand starts
within the other, a range that has the common words has all words of one of them, and the smaller
one is taken.
-/

namespace RangeFlow

namespace Range

open Width (byte)

variable {a b c q r : Range} {w : Width} {S : Set Nat} {x : Nat}

/-! ## The number of members -/

def words (r : Range) : Finset Nat := (Finset.range r.width.card).filter (· ∈ r)

@[simp] theorem mem_words : x ∈ r.words ↔ x ∈ r := by
  rw [words, Finset.mem_filter, Finset.mem_range]
  exact ⟨And.right, fun h ↦ ⟨lt_card_of_mem h, h⟩⟩

theorem words_subset_words : a.words ⊆ b.words ↔ ∀ x ∈ a, x ∈ b := by
  simp only [Finset.subset_iff, mem_words]

/-- The size of a range is the number of its members. -/
theorem card_words (r : Range) : r.words.card = r.size := by
  have hsize := r.size_le_card
  have hinj : Set.InjOn (fun i : Nat ↦ r.width.wrap ((r.lower : Int) + i))
      (Finset.range r.size) := by
    intro i hi j hj h
    rw [Finset.coe_range, Set.mem_Iio] at hi hj
    rw [Width.wrap_eq_wrap, Int.emod_add_cancel_left, Int.emod_eq_of_lt (by omega) (by omega),
      Int.emod_eq_of_lt (by omega) (by omega)] at h
    omega
  have himage : r.words =
      (Finset.range r.size).image fun i : Nat ↦ r.width.wrap ((r.lower : Int) + i) := by
    ext x
    rw [mem_words, mem_iff_exists_lt_size, Finset.mem_image]
    simp only [Finset.mem_range, eq_comm]
  rw [himage, Finset.card_image_of_injOn hinj, Finset.card_range]

theorem size_le_size (h : ∀ x ∈ a, x ∈ b) : a.size ≤ b.size := by
  rw [← card_words, ← card_words]
  exact Finset.card_le_card (words_subset_words.2 h)

@[simp] theorem size_empty (w : Width) : (empty w).size = 0 := by
  rw [← card_words, Finset.card_eq_zero]
  exact Finset.eq_empty_of_forall_notMem fun x hx ↦ not_mem_empty (mem_words.1 hx)

theorem size_of_isFull (hf : r.isFull = true) : r.size = r.width.card := by
  rw [size, hf, if_pos rfl]

/-- The distance between two words, as a case distinction for arithmetic. -/
theorem wrap_sub_cases {x l : Nat} (hx : x < w.card) (hl : l < w.card) :
    (l ≤ x ∧ w.wrap ((x : Int) - l) = x - l) ∨
      (x < l ∧ w.wrap ((x : Int) - l) = w.card - l + x) := by
  have h := w.natCast_wrap ((x : Int) - l)
  rw [sub_emod_of_lt (by omega) (by omega) (by omega) (by omega)] at h
  split at h <;> omega

/-- The size of a range that is not full, with bounds in order and around the end of the circle. -/
theorem size_cases (hf : r.isFull = false) :
    (r.lower ≤ r.upper ∧ r.size = r.upper - r.lower) ∨
      (r.upper < r.lower ∧ r.size = r.width.card - r.lower + r.upper) := by
  have h := wrap_sub_cases r.upper_lt r.lower_lt
  simpa only [size, hf, Bool.false_eq_true, if_false] using h

theorem size_ofBounds_cases {l u : Nat} (hl : l < w.card) (hu : u < w.card) (hne : l ≠ u) :
    (l < u ∧ (ofBounds w l u).size = u - l) ∨
      (u < l ∧ (ofBounds w l u).size = w.card - l + u) := by
  have hbounds : (ofBounds w l u).lower = l ∧ (ofBounds w l u).upper = u := by
    simp [ofBounds, hl, hu, hne]
  have h := size_cases (r := ofBounds w l u) (by simp [isFull, hbounds, hne])
  rw [hbounds.1, hbounds.2, width_ofBounds] at h
  omega

/-! ## Smallest covers of a set -/

/-- A range has all words of a set, and no range of its width that has them has fewer members. -/
structure IsSmallestCover (r : Range) (S : Set Nat) : Prop where
  covers : ∀ x ∈ S, x ∈ r
  card_le : ∀ c : Range, c.width = r.width → (∀ x ∈ S, x ∈ c) → r.words.card ≤ c.words.card

namespace IsSmallestCover

/-- A range with exactly the members of a set is its smallest cover. -/
theorem of_forall_iff (h : ∀ x, x ∈ r ↔ x ∈ S) : r.IsSmallestCover S :=
  ⟨fun x ↦ (h x).2, fun _ _ hc ↦
    Finset.card_le_card (words_subset_words.2 fun x hx ↦ hc x ((h x).1 hx))⟩

/-- A cover that is no larger than any cover is a smallest one. -/
theorem of_size_le (h : ∀ x ∈ S, x ∈ r)
    (hsize : ∀ c : Range, c.width = r.width → (∀ x ∈ S, x ∈ c) → r.size ≤ c.size) :
    r.IsSmallestCover S :=
  ⟨h, fun c hw hc ↦ by rw [card_words, card_words]; exact hsize c hw hc⟩

/-- The words of a range have no other smallest cover. -/
theorem eq_of_forall_iff (h : r.IsSmallestCover S) (hw : c.width = r.width)
    (hc : ∀ x, x ∈ c ↔ x ∈ S) : r = c := by
  have hsub : c.words ⊆ r.words := words_subset_words.2 fun x hx ↦ h.covers x ((hc x).1 hx)
  have hwords := Finset.eq_of_subset_of_card_le hsub (h.card_le c hw fun x ↦ (hc x).2)
  refine eq_of_mem_iff hw.symm fun x ↦ ?_
  rw [← mem_words, ← hwords, mem_words]

theorem size_eq (h : q.IsSmallestCover S) (h' : r.IsSmallestCover S) (hw : q.width = r.width) :
    q.size = r.size := by
  rw [← card_words, ← card_words]
  exact le_antisymm (h.card_le r hw.symm h'.covers) (h'.card_le q hw h.covers)

end IsSmallestCover

/-! ## Unions -/

/-- Where the bounds of a range lie that has the members of a plain one. -/
theorem bounds_of_isPlain (hw : a.width = c.width) (ha : a.IsPlain) (hf : c.isFull = false)
    (h : ∀ x ∈ a, x ∈ c) :
    (c.lower ≤ a.lower ∧ a.upper ≤ c.upper) ∨
      (c.upper < c.lower ∧ (a.upper ≤ c.upper ∨ c.lower ≤ a.lower)) := by
  have hlt := ha.lower_lt_upper
  have hu := a.upper_lt
  have hfirst := h a.lower (ha.mem_iff.2 (by omega))
  have hlast := h (a.upper - 1) (ha.mem_iff.2 (by omega))
  have hend : c.upper ∉ a := fun hc ↦ upper_notMem hf (h _ hc)
  have hcu := c.upper_lt
  rw [← hw] at hcu
  rw [ha.mem_iff] at hend
  rw [mem_iff, isWrapped_iff, hf] at hfirst hlast
  simp only [Bool.false_eq_true, false_or] at hfirst hlast
  omega

/-- Where the bounds of a range lie that has the members of one that wraps. -/
theorem bounds_of_isWrapped (hw : a.width = c.width) (ha : a.isWrapped = true)
    (hf : c.isFull = false) (h : ∀ x ∈ a, x ∈ c) :
    c.upper < c.lower ∧ c.lower ≤ a.lower ∧ a.upper ≤ c.upper := by
  have hlt := isWrapped_iff.1 ha
  have hl := a.lower_lt
  have hfirst := h a.lower ((mem_iff_of_isWrapped ha).2 (by omega))
  have hlast := h (a.width.card - 1) ((mem_iff_of_isWrapped ha).2 (by omega))
  have hend : c.upper ∉ a := fun hc ↦ upper_notMem hf (h _ hc)
  have hcu := c.upper_lt
  rw [← hw] at hcu
  rw [mem_iff_of_isWrapped ha] at hend
  rw [mem_iff, isWrapped_iff, hf] at hfirst hlast
  simp only [Bool.false_eq_true, false_or] at hfirst hlast
  omega

section Unions

variable (hab : a.width = b.width) (hac : a.width = c.width) (h : ∀ x ∈ a, x ∈ c)
variable (h' : ∀ x ∈ b, x ∈ c)
include hab hac h h'

/-- No range that holds two plain ranges is smaller than their union. -/
theorem size_unionPlain_le (ha : a.IsPlain) (hb : b.IsPlain) (hf : c.isFull = false) :
    (unionPlain a b).size ≤ c.size := by
  obtain ⟨h₁, h₂, h₃, h₄⟩ := bounds_lt hab
  have h₅ := ha.lower_lt_upper
  have h₆ := hb.lower_lt_upper
  have hbounds := bounds_of_isPlain hac ha hf h
  have hbounds' := bounds_of_isPlain (hab.symm.trans hac) hb hf h'
  have hsize := size_cases hf
  rw [← hac] at hsize
  unfold unionPlain
  dsimp only
  split
  · rename_i hgap
    simp only [Bool.or_eq_true, decide_eq_true_eq] at hgap
    have hafter := wrap_sub_cases h₃ h₂
    have hbefore := wrap_sub_cases h₁ h₄
    split
    · have := size_ofBounds_cases h₁ h₄ (by omega)
      omega
    · have := size_ofBounds_cases h₃ h₂ (by omega)
      omega
  · rename_i hgap
    simp only [Bool.or_eq_true, decide_eq_true_eq] at hgap
    have := size_ofBounds_cases (w := a.width) (l := min a.lower b.lower)
      (u := max a.upper b.upper) (by omega) (by omega) (by omega)
    rw [← Nat.cast_min, ← Nat.cast_max]
    omega

/-- No range that holds a wrapped range and a plain one is smaller than their union. -/
theorem size_unionMixed_le (ha : a.isWrapped = true) (hb : b.IsPlain) (hf : c.isFull = false) :
    (unionMixed a b).size ≤ c.size := by
  obtain ⟨h₁, h₂, h₃, h₄⟩ := bounds_lt hab
  have h₅ := isWrapped_iff.1 ha
  have h₆ := hb.lower_lt_upper
  have hbounds := bounds_of_isWrapped hac ha hf h
  have hbounds' := bounds_of_isPlain (hab.symm.trans hac) hb hf h'
  have hsize := size_cases hf
  rw [← hac] at hsize
  have hleft (hne : a.lower ≠ b.upper) := size_ofBounds_cases h₁ h₄ hne
  have hright (hne : b.lower ≠ a.upper) := size_ofBounds_cases h₃ h₂ hne
  unfold unionMixed
  dsimp only
  split
  · exact size_le_size h
  · rename_i hout
    simp only [Bool.or_eq_true, decide_eq_true_eq] at hout
    split
    · rename_i hboth
      simp only [Bool.and_eq_true, decide_eq_true_eq] at hboth
      omega
    · rename_i hboth
      simp only [Bool.and_eq_true, decide_eq_true_eq] at hboth
      split
      · have := hleft (by omega)
        omega
      · split
        · have := hright (by omega)
          omega
        · have := hleft (by omega)
          have := hright (by omega)
          split <;> omega

/-- No range that holds two wrapped ranges is smaller than their union. -/
theorem size_unionWrapped_le (ha : a.isWrapped = true) (hb : b.isWrapped = true)
    (hf : c.isFull = false) : (unionWrapped a b).size ≤ c.size := by
  obtain ⟨h₁, h₂, h₃, h₄⟩ := bounds_lt hab
  have hbounds := bounds_of_isWrapped hac ha hf h
  have hbounds' := bounds_of_isWrapped (hab.symm.trans hac) hb hf h'
  have hsize := size_cases hf
  rw [← hac] at hsize
  unfold unionWrapped
  rw [if_neg (by omega), ← Nat.cast_min, ← Nat.cast_max]
  have := size_ofBounds_cases (w := a.width) (l := min a.lower b.lower)
    (u := max a.upper b.upper) (by omega) (by omega) (by omega)
  omega

/-- No range that has the members of two others has fewer members than their union. -/
theorem size_union_le : (a.union b).size ≤ c.size := by
  cases hf : c.isFull with
  | true =>
    have hle := (a.union b).size_le_card
    rwa [width_union hab, hac, ← size_of_isFull hf] at hle
  | false =>
    exact union_cases (P := fun r ↦ r.size ≤ c.size) (fun _ ↦ size_le_size h)
      (fun _ ↦ size_le_size h') (fun ha hb ↦ size_unionPlain_le hab hac h h' ha hb hf)
      (fun ha hb ↦ size_unionMixed_le hab hac h h' ha hb hf)
      (fun ha hb ↦ size_unionMixed_le hab.symm (hab.symm.trans hac) h' h hb ha hf)
      fun ha hb ↦ size_unionWrapped_le hab hac h h' ha hb hf

end Unions

/-- The union is a smallest cover of the members of both. -/
theorem isSmallestCover_union (hw : a.width = b.width) :
    (a.union b).IsSmallestCover {x | x ∈ a ∨ x ∈ b} := by
  refine .of_size_le (fun x hx ↦ mem_union hw hx) fun c hcw hc ↦ ?_
  rw [width_union hw] at hcw
  exact size_union_le hw hcw.symm (fun x hx ↦ hc x (.inl hx)) fun x hx ↦ hc x (.inr hx)

/-- A range takes up one whose members it has. -/
theorem union_eq_left (hw : a.width = b.width) (h : ∀ x ∈ b, x ∈ a) : a.union b = a :=
  (isSmallestCover_union hw).eq_of_forall_iff (width_union hw).symm fun x ↦
    ⟨.inl, fun hx ↦ hx.elim id (h x)⟩

/-- The union of two ranges of one width is a smallest range of that width around the words of both.
It is the first one if that has all of them, so that another union with it adds nothing, and unions
in either order have one size. -/
theorem union_smallest (hw : a.width = b.width) :
    (a.union b).width = a.width ∧ (a.union b).IsSmallestCover {x | x ∈ a ∨ x ∈ b} ∧
      ((∀ x ∈ b, x ∈ a) → a.union b = a) ∧ (a.union b).union a = a.union b ∧
      (a.union b).size = (b.union a).size := by
  have hwidth := width_union hw
  have hcover := isSmallestCover_union hw
  have hswapped : (b.union a).IsSmallestCover {x | x ∈ a ∨ x ∈ b} := by
    simpa only [or_comm] using isSmallestCover_union hw.symm
  refine ⟨hwidth, hcover, union_eq_left hw, ?_, hcover.size_eq hswapped ?_⟩
  · exact union_eq_left hwidth fun x hx ↦ mem_union hw (.inl hx)
  · rw [hwidth, width_union hw.symm, hw]

/-- The smaller gap is bridged, in either order. -/
theorem union_smallest_apart :
    (ofBounds byte 250 4).width = (ofBounds byte 100 200).width ∧
      (ofBounds byte 250 4).union (ofBounds byte 100 200) = ofBounds byte 100 4 ∧
      (ofBounds byte 100 4).IsSmallestCover
        {x | x ∈ ofBounds byte 250 4 ∨ x ∈ ofBounds byte 100 200} ∧
      (ofBounds byte 100 4).union (ofBounds byte 250 4) = ofBounds byte 100 4 ∧
      (ofBounds byte 100 4).size = ((ofBounds byte 100 200).union (ofBounds byte 250 4)).size := by
  have hw : (ofBounds byte 250 4).width = (ofBounds byte 100 200).width := by decide
  have heq : (ofBounds byte 250 4).union (ofBounds byte 100 200) = ofBounds byte 100 4 := by decide
  obtain ⟨-, hcover, -, hagain, hsize⟩ := union_smallest hw
  rw [heq] at hcover hagain hsize
  exact ⟨hw, heq, hcover, hagain, hsize⟩

/-! ## Intersections -/

/-- A range that starts in another one and does not get to its end is a part of it. -/
theorem mem_of_lower_mem (hw : a.width = c.width) (hf : c.isFull = false) (hl : a.lower ∈ c)
    (hu : c.upper ∉ a) (hx : x ∈ a) : x ∈ c := by
  have hcu := c.upper_lt
  rw [mem_iff] at hl hu hx ⊢
  rw [← hw] at hcu hl ⊢
  rcases a.cases_bounds with ha | ha | ha | ha <;> rcases c.cases_bounds with hc | hc | hc | hc <;>
    grind

/-- If two ranges start in each other, a range that has their common words has all words of one. -/
theorem forall_mem_or_forall_mem (hab : a.width = b.width) (hac : a.width = c.width)
    (ha : a.lower ∈ b) (hb : b.lower ∈ a) (h : ∀ x ∈ a, x ∈ b → x ∈ c) :
    (∀ x ∈ a, x ∈ c) ∨ ∀ x ∈ b, x ∈ c := by
  cases hf : c.isFull with
  | true => exact .inl fun x hx ↦ isFull_iff_forall.1 hf x (hac ▸ lt_card_of_mem hx)
  | false =>
    have hla := h _ (lower_mem (not_isEmpty_of_mem hb)) ha
    have hlb := h _ hb (lower_mem (not_isEmpty_of_mem ha))
    -- The word after the last one of `c` is not a common one.
    by_cases hu : c.upper ∈ a
    · have hub : c.upper ∉ b := fun hub ↦ upper_notMem hf (h _ hu hub)
      exact .inr fun x ↦ mem_of_lower_mem (hab.symm.trans hac) hf hlb hub
    · exact .inl fun x ↦ mem_of_lower_mem hac hf hla hu

theorem smaller_cases (a b : Range) :
    (smaller a b = a ∧ a.size ≤ b.size) ∨ (smaller a b = b ∧ b.size ≤ a.size) := by
  unfold smaller
  split
  · exact .inl ⟨rfl, by omega⟩
  · exact .inr ⟨rfl, by omega⟩

/-- A range has the common members of two others and no more, or it is the smaller one of two that
start in each other. -/
def IsMeet (r a b : Range) : Prop :=
  (∀ x, x ∈ r ↔ x ∈ a ∧ x ∈ b) ∨ (a.lower ∈ b ∧ b.lower ∈ a ∧
    ((r = a ∧ a.size ≤ b.size) ∨ (r = b ∧ b.size ≤ a.size)))

theorem IsMeet.symm (h : r.IsMeet a b) : r.IsMeet b a :=
  h.imp (fun h x ↦ (h x).trans and_comm) fun ⟨ha, hb, h⟩ ↦ ⟨hb, ha, h.symm⟩

theorem isMeet_intersectPlain (hw : a.width = b.width) (ha : a.IsPlain) (hb : b.IsPlain) :
    (intersectPlain a b).IsMeet a b := by
  refine .inl fun x ↦ ⟨fun hx ↦ ?_, fun hx ↦ mem_intersectPlain hw ha hb hx.1 hx.2⟩
  obtain ⟨h₁, h₂, h₃, h₄⟩ := bounds_lt hw
  rw [ha.mem_iff, hb.mem_iff, ← hw]
  unfold intersectPlain at hx
  split at hx
  · rw [← Nat.cast_min, ← Nat.cast_max,
      mem_ofBounds_natCast (by omega) (by omega) (by omega)] at hx
    omega
  · exact absurd hx not_mem_empty

/-- The intersection of a wrapped range with a plain one is a meet. -/
theorem isMeet_intersectMixed (hw : a.width = b.width) (ha : a.isWrapped = true) (hb : b.IsPlain) :
    (intersectMixed a b).IsMeet a b := by
  obtain ⟨h₁, h₂, h₃, h₄⟩ := bounds_lt hw
  have h₅ := isWrapped_iff.1 ha
  have h₆ := hb.lower_lt_upper
  have hcard : a.width.card = b.width.card := by rw [hw]
  by_cases htwo : b.lower < a.upper ∧ a.lower < b.upper
  · refine .inr ⟨hb.mem_iff.2 (by omega), (mem_iff_of_isWrapped ha).2 (by omega), ?_⟩
    simp only [intersectMixed, htwo, decide_true]
    exact smaller_cases a b
  · refine .inl fun x ↦ ⟨fun hx ↦ ?_, fun hx ↦ mem_intersectMixed hw ha hb hx.1 hx.2⟩
    rw [mem_iff_of_isWrapped ha, hb.mem_iff, ← hw]
    unfold intersectMixed at hx
    split at hx
    · rename_i hlt hle
      simp only [decide_eq_true_eq] at hlt hle
      exact absurd ⟨hlt, hle⟩ htwo
    · rename_i hlt hle
      simp only [decide_eq_true_eq, decide_eq_false_iff_not] at hlt hle
      rw [← Nat.cast_min, mem_ofBounds_natCast (by omega) (by omega) (by omega)] at hx
      omega
    · rename_i hlt hle
      simp only [decide_eq_true_eq, decide_eq_false_iff_not] at hlt hle
      rw [← Nat.cast_max, mem_ofBounds_natCast (by omega) (by omega) (by omega)] at hx
      omega
    · exact absurd hx not_mem_empty

theorem isMeet_intersectWrapped (hw : a.width = b.width) (ha : a.isWrapped = true)
    (hb : b.isWrapped = true) : (intersectWrapped a b).IsMeet a b := by
  obtain ⟨h₁, h₂, h₃, h₄⟩ := bounds_lt hw
  have h₅ := isWrapped_iff.1 ha
  have h₆ := isWrapped_iff.1 hb
  have hcard : a.width.card = b.width.card := by rw [hw]
  by_cases htwo : b.lower < a.upper ∨ a.lower < b.upper
  · refine .inr ⟨(mem_iff_of_isWrapped hb).2 (by omega), (mem_iff_of_isWrapped ha).2 (by omega), ?_⟩
    rw [intersectWrapped, if_pos (by simpa using htwo)]
    exact smaller_cases a b
  · refine .inl fun x ↦ ⟨fun hx ↦ ?_, fun hx ↦ mem_intersectWrapped hw ha hb hx.1 hx.2⟩
    rw [mem_iff_of_isWrapped ha, mem_iff_of_isWrapped hb]
    rw [intersectWrapped, if_neg (by simpa using htwo), ← Nat.cast_min, ← Nat.cast_max,
      mem_ofBounds_natCast (by omega) (by omega) (by omega)] at hx
    omega

theorem isMeet_of_isFull (h : b.isFull = true) (hw : a.width = b.width) : a.IsMeet a b :=
  .inl fun x ↦
    ⟨fun hx ↦ ⟨hx, isFull_iff_forall.1 h x (hw ▸ lt_card_of_mem hx)⟩, And.left⟩

theorem isMeet_of_isEmpty (h : a.isEmpty = true) : a.IsMeet a b :=
  .inl fun x ↦ ⟨fun hx ↦ absurd hx (isEmpty_iff_forall.1 h x), And.left⟩

/-- The intersection is a meet, whatever the ranges are. -/
theorem isMeet_intersect (hw : a.width = b.width) : (a.intersect b).IsMeet a b := by
  have hoperand {a b : Range} (hw : a.width = b.width) (h : (a.isEmpty || b.isFull) = true) :
      a.IsMeet a b :=
    (Bool.or_eq_true_iff.1 h).elim isMeet_of_isEmpty fun h ↦ isMeet_of_isFull h hw
  exact intersect_cases (P := (IsMeet · a b)) (hoperand hw) (fun h ↦ (hoperand hw.symm h).symm)
    (isMeet_intersectPlain hw) (isMeet_intersectMixed hw)
    (fun ha hb ↦ (isMeet_intersectMixed hw.symm hb ha).symm) (isMeet_intersectWrapped hw)

theorem IsMeet.size_le (h : r.IsMeet a b) : r.size ≤ min a.size b.size := by
  rcases h with h | ⟨-, -, ⟨rfl, hle⟩ | ⟨rfl, hle⟩⟩
  · exact le_min (size_le_size fun x hx ↦ ((h x).1 hx).1) (size_le_size fun x hx ↦ ((h x).1 hx).2)
  · exact le_min le_rfl hle
  · exact le_min hle le_rfl

/-- The intersection is a smallest cover of the common members. -/
theorem isSmallestCover_intersect (hw : a.width = b.width) :
    (a.intersect b).IsSmallestCover {x | x ∈ a ∧ x ∈ b} := by
  have hmeet := isMeet_intersect hw
  rcases isMeet_intersect hw with h | ⟨ha, hb, -⟩
  · exact .of_forall_iff h
  · refine .of_size_le (fun x hx ↦ mem_intersect hw hx.1 hx.2) fun c hcw hc ↦ ?_
    rw [width_intersect hw] at hcw
    refine hmeet.size_le.trans (min_le_iff.2 ?_)
    exact (forall_mem_or_forall_mem hw hcw.symm ha hb fun x hxa hxb ↦ hc x ⟨hxa, hxb⟩).imp
      size_le_size size_le_size

/-- The intersection of two ranges of one width is a smallest range of that width around their
common words.  It is the range of the common words if there is one, it is empty iff there are none,
and it has no more members than either operand. -/
theorem intersect_smallest (hw : a.width = b.width) :
    (a.intersect b).width = a.width ∧ (a.intersect b).IsSmallestCover {x | x ∈ a ∧ x ∈ b} ∧
      (∀ c : Range, c.width = a.width → (∀ x, x ∈ c ↔ x ∈ a ∧ x ∈ b) → a.intersect b = c) ∧
      ((a.intersect b).isEmpty = true ↔ ∀ x ∈ a, x ∉ b) ∧
      (a.intersect b).size ≤ min a.size b.size := by
  have hwidth := width_intersect hw
  have hcover := isSmallestCover_intersect hw
  have hexact (c : Range) (hc : c.width = a.width) (h : ∀ x, x ∈ c ↔ x ∈ a ∧ x ∈ b) :
      a.intersect b = c := hcover.eq_of_forall_iff (hc.trans hwidth.symm) h
  refine ⟨hwidth, hcover, hexact, ⟨fun he x hxa hxb ↦ ?_, fun h ↦ ?_⟩,
    (isMeet_intersect hw).size_le⟩
  · exact isEmpty_iff_forall.1 he x (hcover.covers x ⟨hxa, hxb⟩)
  · rw [hexact (empty a.width) rfl fun x ↦
      ⟨fun hx ↦ absurd hx not_mem_empty, fun hx ↦ absurd hx.2 (h x hx.1)⟩]
    exact isEmpty_empty

/-- The common words are two pieces, and the smaller operand stands for them. -/
theorem intersect_smallest_pieces :
    (ofBounds byte 250 4).width = (ofBounds byte 2 252).width ∧
      (ofBounds byte 250 4).intersect (ofBounds byte 2 252) = ofBounds byte 250 4 ∧
      (ofBounds byte 250 4).IsSmallestCover
        {x | x ∈ ofBounds byte 250 4 ∧ x ∈ ofBounds byte 2 252} ∧
      (ofBounds byte 250 4).size ≤ min (ofBounds byte 250 4).size (ofBounds byte 2 252).size := by
  have hw : (ofBounds byte 250 4).width = (ofBounds byte 2 252).width := by decide
  have heq : (ofBounds byte 250 4).intersect (ofBounds byte 2 252) = ofBounds byte 250 4 := by
    decide
  obtain ⟨-, hcover, -, -, hsize⟩ := intersect_smallest hw
  rw [heq] at hcover hsize
  exact ⟨hw, heq, hcover, hsize⟩

end Range

end RangeFlow
