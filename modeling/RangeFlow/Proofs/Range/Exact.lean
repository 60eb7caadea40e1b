import RangeFlow.Proofs.Range.Arith
import RangeFlow.Proofs.Range.Resize

/-!
# Operations that are exact

Sums, differences and truncations of ranges have no members but the results of members of their
operands.  Each is a stretch of neighbours on the circle, made by `cover` from its first word and
the number of its words, so every member is the word of an integer of the stretch.  Such an integer
is taken apart again: one that is no more than `m + n - 2` steps from the first sum is reached by
less than `m` steps of one operand and less than `n` of the other (`exists_add_eq`).
-/

namespace RangeFlow

namespace Range

open Width (byte word)

variable {a b r : Range} {v w : Width} {z : Nat}

/-- Steps along two stretches add up to every number of steps along their sum. -/
theorem exists_add_eq {d m n : Nat} (hm : 0 < m) (hn : 0 < n) (h : d + 2 ≤ m + n) :
    ∃ i < m, ∃ j < n, i + j = d := by
  by_cases hd : d < m
  · exact ⟨d, hd, 0, hn, Nat.add_zero d⟩
  · exact ⟨m - 1, by omega, d - (m - 1), by omega, by omega⟩

/-- Counting up from the lower bound, less than the size, stays inside. -/
theorem wrap_lower_add_mem {i : Nat} (h : i < r.size) : r.width.wrap ((r.lower : Int) + i) ∈ r :=
  mem_iff_exists_lt_size.2 ⟨i, h, rfl⟩

theorem wrap_mem_of_isFull (h : r.isFull = true) (hw : w = r.width) (u : Int) : w.wrap u ∈ r := by
  subst hw
  exact isFull_iff_forall.1 h _ (r.width.wrap_lt_card u)

/-! ## Sums and differences -/

/-- Every member of a sum is the sum of two members. -/
theorem exists_wrap_add_of_mem (hw : a.width = b.width) (h : z ∈ a.add b) :
    ∃ x ∈ a, ∃ y ∈ b, a.width.wrap (x + y) = z := by
  have hz : a.width.wrap z = z := a.width.wrap_natCast_of_lt (width_add a b ▸ lt_card_of_mem h)
  unfold add at h
  split at h
  · exact absurd h not_mem_empty
  · rename_i hempty
    simp only [Bool.or_eq_true, not_or, Bool.not_eq_true] at hempty
    obtain ⟨ha, hb⟩ := hempty
    split at h
    · rename_i hfull
      rcases Bool.or_eq_true_iff.1 hfull with hfull | hfull
      · refine ⟨_, wrap_mem_of_isFull hfull rfl (z - b.lower), b.lower, lower_mem hb, ?_⟩
        rw [Width.wrap_wrap_add, sub_add_cancel, hz]
      · refine ⟨a.lower, lower_mem ha, _, wrap_mem_of_isFull hfull hw (z - a.lower), ?_⟩
        rw [Width.wrap_add_wrap, add_sub_cancel, hz]
    · dsimp only at h
      have hm := size_pos ha
      have hn := size_pos hb
      obtain ⟨u, hlo, hhi, rfl⟩ := (mem_cover (by omega)).1 h
      obtain ⟨i, hi, j, hj, hij⟩ :=
        exists_add_eq (d := (u - (a.lower + b.lower)).toNat) hm hn (by omega)
      refine ⟨_, wrap_lower_add_mem hi, _, wrap_lower_add_mem hj, ?_⟩
      rw [← hw, Width.wrap_wrap_add, Width.wrap_add_wrap, add_add_add_comm]
      congr 1
      omega

/-- Every member of a difference is the difference of two members. -/
theorem exists_wrap_sub_of_mem (hw : a.width = b.width) (h : z ∈ a.sub b) :
    ∃ x ∈ a, ∃ y ∈ b, a.width.wrap (x - y) = z := by
  have hz : a.width.wrap z = z := a.width.wrap_natCast_of_lt (width_sub a b ▸ lt_card_of_mem h)
  unfold sub at h
  split at h
  · exact absurd h not_mem_empty
  · rename_i hempty
    simp only [Bool.or_eq_true, not_or, Bool.not_eq_true] at hempty
    obtain ⟨ha, hb⟩ := hempty
    split at h
    · rename_i hfull
      rcases Bool.or_eq_true_iff.1 hfull with hfull | hfull
      · refine ⟨_, wrap_mem_of_isFull hfull rfl (z + b.lower), b.lower, lower_mem hb, ?_⟩
        rw [Width.wrap_wrap_sub, add_sub_cancel_right, hz]
      · refine ⟨a.lower, lower_mem ha, _, wrap_mem_of_isFull hfull hw (a.lower - z), ?_⟩
        rw [Width.wrap_sub_wrap, sub_sub_cancel, hz]
    · dsimp only at h
      have hm := size_pos ha
      have hn := size_pos hb
      obtain ⟨u, hlo, hhi, rfl⟩ := (mem_cover (by omega)).1 h
      -- The stretch starts at the difference from the last member of `b`.
      obtain ⟨i, hi, j, hj, hij⟩ :=
        exists_add_eq (d := (u - (a.lower - (b.lower + b.size - 1))).toNat) hm hn (by omega)
      refine ⟨_, wrap_lower_add_mem hi, _, wrap_lower_add_mem (i := b.size - 1 - j) (by omega), ?_⟩
      rw [← hw, Width.wrap_wrap_sub, Width.wrap_sub_wrap, add_sub_add_comm]
      congr 1
      omega

/-! ## Truncation -/

/-- Every member of a truncated range is the word of a member. -/
theorem exists_wrap_of_mem_truncate (hv : v.bits ≤ r.width.bits) (h : z ∈ r.truncate v) :
    ∃ x ∈ r, v.wrap x = z := by
  have hz : v.wrap z = z := v.wrap_natCast_of_lt (width_truncate r v ▸ lt_card_of_mem h)
  unfold truncate at h
  split at h
  · exact ⟨z, h, hz⟩
  · split at h
    · exact absurd h not_mem_empty
    · rename_i hempty
      have hm := size_pos (Bool.eq_false_iff.2 hempty)
      -- All words of the smaller width are a stretch, too, if there are enough members.
      have hcover : z ∈ cover v r.lower ((r.lower : Int) + r.size - 1) := by
        split at h
        · rename_i hle
          unfold cover
          rwa [if_pos (by omega)]
        · exact h
      obtain ⟨u, hlo, hhi, rfl⟩ := (mem_cover (by omega)).1 hcover
      refine ⟨_, wrap_lower_add_mem (i := (u - r.lower).toNat) (by omega), ?_⟩
      rw [Width.wrap_wrap hv]
      congr 1
      omega

/-! ## Members in numbers -/

theorem wrap_eq_iff {u : Int} : w.wrap u = z ↔ (z : Int) = u % 2 ^ w.bits := by
  have hcard : (w.card : Int) = 2 ^ w.bits := Nat.cast_pow 2 w.bits
  rw [← hcard, ← w.natCast_wrap, Nat.cast_inj, eq_comm]

/-- A sum has the sums of members as its members, and no others. -/
theorem mem_add_iff (hw : a.width = b.width) :
    z ∈ a.add b ↔ ∃ x ∈ a, ∃ y ∈ b, (z : Int) = (x + y) % 2 ^ a.width.bits := by
  simp only [← wrap_eq_iff]
  constructor
  · exact exists_wrap_add_of_mem hw
  · rintro ⟨x, hx, y, hy, rfl⟩
    exact wrap_add_mem hw hx hy

/-- A difference has the differences of members as its members, and no others. -/
theorem mem_sub_iff (hw : a.width = b.width) :
    z ∈ a.sub b ↔ ∃ x ∈ a, ∃ y ∈ b, (z : Int) = (x - y) % 2 ^ a.width.bits := by
  simp only [← wrap_eq_iff]
  constructor
  · exact exists_wrap_sub_of_mem hw
  · rintro ⟨x, hx, y, hy, rfl⟩
    exact wrap_sub_mem hw hx hy

/-- A truncated range has the members modulo the smaller number of words, and no others. -/
theorem mem_truncate_iff (hv : v.bits ≤ r.width.bits) :
    z ∈ r.truncate v ↔ ∃ x ∈ r, (z : Int) = x % 2 ^ v.bits := by
  simp only [← wrap_eq_iff]
  constructor
  · exact exists_wrap_of_mem_truncate hv
  · rintro ⟨x, hx, rfl⟩
    exact wrap_mem_truncate hv hx

/-- A cover has the words of the numbers between its bounds as its members, and no others. -/
theorem mem_cover_iff {lo hi : Int} (h : lo ≤ hi) :
    z ∈ cover w lo hi ↔ ∃ u, lo ≤ u ∧ u ≤ hi ∧ (z : Int) = u % 2 ^ w.bits := by
  simp only [← wrap_eq_iff]
  exact mem_cover h

/-- **Exactness.**  Ranges of one width have a sum and a difference of that width, whose members are
the sums and the differences of members and nothing else; the members of a range truncated to a
width that is no greater are the words of its members there; and those of a cover are the words of
the covered integers. -/
theorem members_exact :
    (∀ a b : Range, a.width = b.width →
      ((a.add b).width = a.width ∧
        ∀ z, z ∈ a.add b ↔ ∃ x ∈ a, ∃ y ∈ b, (z : Int) = (x + y) % 2 ^ a.width.bits) ∧
      ((a.sub b).width = a.width ∧
        ∀ z, z ∈ a.sub b ↔ ∃ x ∈ a, ∃ y ∈ b, (z : Int) = (x - y) % 2 ^ a.width.bits)) ∧
    (∀ (a : Range) (k : Width), k.bits ≤ a.width.bits → (a.truncate k).width = k ∧
      ∀ z, z ∈ a.truncate k ↔ ∃ x ∈ a, (z : Int) = x % 2 ^ k.bits) ∧
    ∀ (w : Width) (lo hi : Int), lo ≤ hi → (cover w lo hi).width = w ∧
      ∀ z, z ∈ cover w lo hi ↔ ∃ u, lo ≤ u ∧ u ≤ hi ∧ (z : Int) = u % 2 ^ w.bits :=
  ⟨fun a b hw ↦ ⟨⟨width_add a b, fun _ ↦ mem_add_iff hw⟩, ⟨width_sub a b, fun _ ↦ mem_sub_iff hw⟩⟩,
    fun a k hk ↦ ⟨width_truncate a k, fun _ ↦ mem_truncate_iff hk⟩,
    fun w lo hi h ↦ ⟨width_cover w lo hi, fun _ ↦ mem_cover_iff h⟩⟩

/-- The sums of 10 words from 250 on, past the greatest word, with 100 others are 109 words, and 20
words around a multiple of 256 stay together when they lose a byte. -/
theorem members_exact_wrapped :
    ((ofBounds byte 250 4).width = (ofBounds byte 100 200).width ∧
      (ofBounds byte 250 4).add (ofBounds byte 100 200) = ofBounds byte 94 203 ∧
      ∀ z, z ∈ ofBounds byte 94 203 ↔
        ∃ x ∈ ofBounds byte 250 4, ∃ y ∈ ofBounds byte 100 200, (z : Int) = (x + y) % 2 ^ 8) ∧
    (byte.bits ≤ (ofBounds word 502 522).width.bits ∧
      (ofBounds word 502 522).truncate byte = ofBounds byte 246 10 ∧
      ∀ z, z ∈ ofBounds byte 246 10 ↔ ∃ x ∈ ofBounds word 502 522, (z : Int) = x % 2 ^ 8) ∧
    ((-3 : Int) ≤ 300 ∧ ∀ z, z ∈ cover byte (-3) 300 ↔
      ∃ u, -3 ≤ u ∧ u ≤ 300 ∧ (z : Int) = u % 2 ^ 8) := by
  obtain ⟨hpairs, htruncate, hcover⟩ := members_exact
  have hw : (ofBounds byte 250 4).width = (ofBounds byte 100 200).width := by decide
  have hsum : (ofBounds byte 250 4).add (ofBounds byte 100 200) = ofBounds byte 94 203 := by decide
  have hbits : byte.bits ≤ (ofBounds word 502 522).width.bits := by decide
  have hlow : (ofBounds word 502 522).truncate byte = ofBounds byte 246 10 := by decide
  have hmem := (hpairs _ _ hw).1.2
  have hmem' := (htruncate _ _ hbits).2
  rw [hsum] at hmem
  rw [hlow] at hmem'
  exact ⟨⟨hw, hsum, hmem⟩, ⟨hbits, hlow, hmem'⟩, by decide, (hcover byte (-3) 300 (by decide)).2⟩

end Range

end RangeFlow
