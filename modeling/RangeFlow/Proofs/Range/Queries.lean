import Mathlib.Order.Bounds.Basic
import RangeFlow.Proofs.Comparison.Exact
import RangeFlow.Proofs.Range.Smallest
import RangeFlow.Range.Checked

/-!
# Queries on ranges

A range answers questions about its members from its two bounds.  Inclusion compares the bounds by
whether the ranges wrap; the converse of `mem_of_containsRange` is that a range with the members of
another one has its bounds around those of the other (`bounds_of_isPlain`, `bounds_of_isWrapped`).
The least and the greatest member exist unless the range is empty, in the unsigned and in the signed
order; a pair of such bounds is described by the set that it spans (`Spans`).
-/

namespace RangeFlow

/-- The signed number of a word is its residue next to zero. -/
theorem Width.signed_eq_bmod (w : Width) {x : Nat} (h : x < w.card) :
    w.signed x = (x : Int).bmod (2 ^ w.bits) := by
  have hc := w.card_eq_half
  have hcard : (2 ^ w.bits : Nat) = w.card := rfl
  rw [Width.signed_eq, Int.bmod_def, hcard, Int.emod_eq_of_lt (by omega) (by omega)]
  split <;> split <;> omega

namespace Range

open Width (byte)

variable {a b r : Range} {x : Nat}

/-! ## Inclusion -/

theorem containsRange_of_forall_mem (hw : a.width = b.width) (h : ∀ x ∈ b, x ∈ a) :
    a.containsRange b = true := by
  unfold containsRange
  split
  · rfl
  · rename_i hleft
    simp only [Bool.or_eq_true, not_or, Bool.not_eq_true] at hleft
    obtain ⟨haf, hbe⟩ := hleft
    have hae : a.isEmpty = false := not_isEmpty_of_mem (h _ (lower_mem hbe))
    have hbf : b.isFull = false := by
      by_contra hf
      rw [Bool.not_eq_false, isFull_iff_forall, ← hw] at hf
      rw [Bool.eq_false_iff, ne_eq, isFull_iff_forall] at haf
      exact haf fun x hx ↦ h x (hf x hx)
    rw [hae, hbf]
    simp only [Bool.or_self, Bool.false_eq_true, if_false]
    cases hbw : b.isWrapped with
    | false =>
      have hbounds := bounds_of_isPlain hw.symm ⟨hbf, hbe, hbw⟩ haf h
      cases haw : a.isWrapped with
      | false =>
        rw [Bool.eq_false_iff, ne_eq, isWrapped_iff] at haw
        simp only [Bool.and_eq_true, decide_eq_true_eq]
        omega
      | true =>
        rw [isWrapped_iff] at haw
        simp only [Bool.or_eq_true, decide_eq_true_eq]
        omega
    | true =>
      obtain ⟨haw, hlower, hupper⟩ := bounds_of_isWrapped hw.symm hbw haf h
      rw [← isWrapped_iff] at haw
      rw [haw]
      simp only [Bool.and_eq_true, decide_eq_true_eq]
      exact ⟨hlower, hupper⟩

/-- The test of inclusion is inclusion of the members. -/
theorem containsRange_iff (hw : a.width = b.width) :
    a.containsRange b = true ↔ ∀ x ∈ b, x ∈ a :=
  ⟨fun h _ hx ↦ mem_of_containsRange hw h hx, containsRange_of_forall_mem hw⟩

/-! ## Complements and single members -/

/-- The inverse has all other words as its members. -/
theorem mem_inverse_iff : x ∈ r.inverse ↔ x < r.width.card ∧ x ∉ r :=
  ⟨fun h ↦ ⟨width_inverse r ▸ lt_card_of_mem h, notMem_of_mem_inverse h⟩,
    fun ⟨hx, h⟩ ↦ mem_inverse hx h⟩

theorem not_isEmpty_of_isConstant (h : r.isConstant = true) : r.isEmpty = false := by
  by_contra he
  rw [Bool.not_eq_false, isEmpty_iff] at he
  have hcard := r.width.two_le_card
  have hone : r.width.wrap 1 = 1 := r.width.wrap_natCast_of_lt hcard
  simp only [isConstant, Bool.and_eq_true, beq_iff_eq, he.2, he.1.symm.trans he.2, Nat.cast_zero,
    zero_add, hone, one_ne_zero, and_false] at h

/-- A range is constant if and only if it has exactly one member. -/
theorem isConstant_iff : r.isConstant = true ↔ ∃! x, x ∈ r := by
  constructor
  · intro h
    exact ⟨r.lower, lower_mem (not_isEmpty_of_isConstant h), fun x hx ↦ eq_lower_of_isConstant h hx⟩
  · rintro ⟨x, hx, hunique⟩
    by_contra hc
    rw [Bool.not_eq_true] at hc
    obtain ⟨y, hy, hne⟩ := exists_mem_ne (not_isEmpty_of_mem hx) hc x
    exact hne (hunique y hy)

/-! ## Least and greatest members -/

/-- The two bounds that are read off a range are the least and the greatest element of a set. -/
structure Spans {α : Type} [LE α] (low high : Range → α) (r : Range) (S : Set α) : Prop where
  least : ∃ m, extreme low r = .ok m ∧ IsLeast S m
  greatest : ∃ m, extreme high r = .ok m ∧ IsGreatest S m

theorem extreme_eq_ok {α : Type} (bound : Range → α) (h : r.isEmpty = false) :
    extreme bound r = .ok (bound r) := by
  simp [extreme, h]

/-- Bounds around a set that are elements of it. -/
theorem Spans.of_mem {α : Type} [LE α] {low high : Range → α} {S : Set α} (he : r.isEmpty = false)
    (hlow : low r ∈ S) (hhigh : high r ∈ S) (hbetween : ∀ z ∈ S, low r ≤ z ∧ z ≤ high r) :
    Spans low high r S where
  least := ⟨low r, extreme_eq_ok low he, hlow, fun z hz ↦ (hbetween z hz).1⟩
  greatest := ⟨high r, extreme_eq_ok high he, hhigh, fun z hz ↦ (hbetween z hz).2⟩

/-- A set of members that has both ends of the range. -/
theorem Spans.of_ends {S : Set Nat} (hsub : ∀ x ∈ S, x ∈ r) (hlow : r.unsignedMin ∈ S)
    (hhigh : r.unsignedMax ∈ S) : Spans unsignedMin unsignedMax r S :=
  .of_mem (not_isEmpty_of_mem (hsub _ hlow)) hlow hhigh fun x hx ↦
    ⟨unsignedMin_le_of_mem (hsub x hx), le_unsignedMax_of_mem (hsub x hx)⟩

/-- The extremes are the least and the greatest member. -/
theorem spans_members (he : r.isEmpty = false) : Spans unsignedMin unsignedMax r {x | x ∈ r} :=
  .of_ends (fun _ hx ↦ hx) (unsignedMin_mem he) (unsignedMax_mem he)

/-- The signed extremes are the least and the greatest signed value of a member. -/
theorem spans_signed (he : r.isEmpty = false) :
    Spans signedMin signedMax r {z | ∃ x ∈ r, z = (x : Int).bmod (2 ^ r.width.bits)} := by
  have hsigned {x : Nat} (hx : x ∈ r) := r.width.signed_eq_bmod (lt_card_of_mem hx)
  obtain ⟨least, hleast, hmin⟩ := exists_signed_eq_signedMin he
  obtain ⟨greatest, hgreatest, hmax⟩ := exists_signed_eq_signedMax he
  refine .of_mem he ⟨least, hleast, ?_⟩ ⟨greatest, hgreatest, ?_⟩ ?between
  · rw [← hmin, hsigned hleast]
  · rw [← hmax, hsigned hgreatest]
  case between =>
    rintro _ ⟨x, hx, rfl⟩
    rw [← hsigned hx]
    exact ⟨signedMin_le_of_mem hx, le_signedMax_of_mem hx⟩

/-- **Queries.**  Of two ranges of one width, one is said to contain the other exactly if it has its
members, and they are equal exactly if they have the same members.  Every range is tested for the
word of an integer by membership, has as many members as its size says, a complement of its width
with all other words, and is a constant exactly if it has one member; if it has members, its bounds
in the unsigned and in the signed order are the least and the greatest of them. -/
theorem queries_exact :
    (∀ a b : Range, a.width = b.width →
      (∃ answer, paired containsRange a b = .ok answer ∧ (answer = true ↔ ∀ x ∈ b, x ∈ a)) ∧
      (a = b ↔ ∀ x, x ∈ a ↔ x ∈ b)) ∧
    ∀ a : Range,
      (∀ v : Int, a.contains v = true ↔ a.width.wrap v ∈ a) ∧
      a.size = a.words.card ∧
      (a.inverse.width = a.width ∧ ∀ x, x ∈ a.inverse ↔ x < 2 ^ a.width.bits ∧ x ∉ a) ∧
      (a.isConstant = true ↔ ∃! x, x ∈ a) ∧
      ((∃ x, x ∈ a) → Spans unsignedMin unsignedMax a {x | x ∈ a} ∧
        Spans signedMin signedMax a {z | ∃ x ∈ a, z = (x : Int).bmod (2 ^ a.width.bits)}) := by
  constructor
  · intro a b hw
    refine ⟨⟨_, paired_of_width_eq containsRange hw, containsRange_iff hw⟩, ?_⟩
    constructor
    · rintro rfl x
      rfl
    · exact eq_of_mem_iff hw
  · intro a
    refine ⟨fun v ↦ contains_iff, (card_words a).symm, ⟨width_inverse a, fun x ↦ mem_inverse_iff⟩,
      isConstant_iff, ?_⟩
    rintro ⟨x, hx⟩
    have he := not_isEmpty_of_mem hx
    exact ⟨spans_members he, spans_signed he⟩

/-- The words from 100 to 199 lie on both sides of the sign boundary, so they have the least and the
greatest signed number of a byte; all words from 120 to 129 are among them. -/
theorem queries_exact_straddling :
    ((ofBounds byte 100 200).width = (ofBounds byte 120 130).width ∧
      ∀ x ∈ ofBounds byte 120 130, x ∈ ofBounds byte 100 200) ∧
    100 ∈ ofBounds byte 100 200 ∧
      IsLeast {z | ∃ x ∈ ofBounds byte 100 200, z = (x : Int).bmod (2 ^ 8)} (-128) ∧
      IsGreatest {z | ∃ x ∈ ofBounds byte 100 200, z = (x : Int).bmod (2 ^ 8)} 127 := by
  obtain ⟨hpairs, hqueries⟩ := queries_exact
  have hw : (ofBounds byte 100 200).width = (ofBounds byte 120 130).width := by decide
  obtain ⟨⟨answer, hanswer, hcontains⟩, -⟩ := hpairs _ _ hw
  obtain rfl : true = answer := Except.ok.inj (Eq.trans (by decide) hanswer)
  have hmem : 100 ∈ ofBounds byte 100 200 := by decide
  obtain ⟨-, -, -, -, hspans⟩ := hqueries (ofBounds byte 100 200)
  obtain ⟨-, ⟨least, hlow, hleast⟩, greatest, hhigh, hgreatest⟩ := hspans ⟨100, hmem⟩
  obtain rfl : -128 = least := Except.ok.inj hlow
  obtain rfl : 127 = greatest := Except.ok.inj hhigh
  exact ⟨⟨hw, hcontains.1 rfl⟩, hmem, hleast, hgreatest⟩

end Range

end RangeFlow
