import Mathlib.Tactic
import RangeFlow.Proofs.Machine
import RangeFlow.Proofs.Range.Member
import RangeFlow.Range.Checked
import RangeFlow.Sweep.Transfer

/-!
# Arithmetic on ranges is sound

The range of a result holds the result of the operator on any members of its operands.  All rules
but those for full operands end in a `cover`, so for each operator it is enough to find an integer
between the covered bounds that has the word of the result.

The rules rely on their operands having one width, on least and greatest members of operands that
have members, and on bounds that are in order.  `BinaryOp.guardedRange` tests all of this on its
way, and the main statement says that no test fails.
-/

namespace RangeFlow

namespace Range

variable {a b : Range} {x y : Nat}

theorem size_pos (h : a.isEmpty = false) : 0 < a.size := by
  obtain ⟨i, hi, -⟩ := mem_iff_exists_lt_size.1 (lower_mem h)
  omega

/-! ## Covers of the results -/

section Covers

variable (ha : a.isEmpty = false) (hb : b.isEmpty = false)
include ha hb

/-- A product reaches from the product of the least members to that of the greatest. -/
theorem multiply_eq_cover : a.multiply b =
    cover a.width (a.unsignedMin * b.unsignedMin : Nat) (a.unsignedMax * b.unsignedMax : Nat) := by
  simp only [multiply, ha, hb, Bool.or_self, Bool.false_eq_true, if_false]

/-- A quotient reaches from the least dividend over the greatest divisor to the greatest dividend
over the least divisor. -/
theorem udiv_eq_cover (h : b.unsignedMax ≠ 0) : a.udiv b =
    cover a.width (a.unsignedMin / b.unsignedMax : Nat) (a.unsignedMax / b.leastDivisor : Nat) := by
  simp only [udiv, ha, hb, beq_eq_false_iff_ne.2 h, Bool.or_self, Bool.false_eq_true, if_false]

/-- A conjunction is at most the smaller one of the greatest members. -/
theorem binaryAnd_eq_cover :
    a.binaryAnd b = cover a.width 0 (min a.unsignedMax b.unsignedMax : Nat) := by
  simp only [binaryAnd, ha, hb, Bool.or_self, Bool.false_eq_true, if_false]

/-- A disjunction is at least the larger one of the least members. -/
theorem binaryOr_eq_cover :
    a.binaryOr b = cover a.width (max a.unsignedMin b.unsignedMin : Nat) a.width.mask := by
  simp only [binaryOr, ha, hb, Bool.or_self, Bool.false_eq_true, if_false]

end Covers

/-! ## Members of the results -/

/-- Sums of members are members of the sum. -/
theorem wrap_add_mem (hw : a.width = b.width) (hx : x ∈ a) (hy : y ∈ b) :
    a.width.wrap (x + y) ∈ a.add b := by
  have hxe := not_isEmpty_of_mem hx
  have hye := not_isEmpty_of_mem hy
  obtain ⟨i, hi, rfl⟩ := mem_iff_exists_lt_size.1 hx
  obtain ⟨j, hj, rfl⟩ := mem_iff_exists_lt_size.1 hy
  simp only [add, hxe, hye, Bool.or_self, Bool.false_eq_true, if_false]
  split
  · exact mem_full.2 (a.width.wrap_lt_card _)
  · rw [← hw, Width.wrap_wrap_add, Width.wrap_add_wrap, add_add_add_comm]
    exact wrap_mem_cover (by omega) (by omega)

/-- Differences of members are members of the difference. -/
theorem wrap_sub_mem (hw : a.width = b.width) (hx : x ∈ a) (hy : y ∈ b) :
    a.width.wrap (x - y) ∈ a.sub b := by
  have hxe := not_isEmpty_of_mem hx
  have hye := not_isEmpty_of_mem hy
  obtain ⟨i, hi, rfl⟩ := mem_iff_exists_lt_size.1 hx
  obtain ⟨j, hj, rfl⟩ := mem_iff_exists_lt_size.1 hy
  simp only [sub, hxe, hye, Bool.or_self, Bool.false_eq_true, if_false]
  split
  · exact mem_full.2 (a.width.wrap_lt_card _)
  · rw [← hw, Width.wrap_wrap_sub, Width.wrap_sub_wrap, add_sub_add_comm]
    exact wrap_mem_cover (by omega) (by omega)

theorem wrap_mul_mem (hx : x ∈ a) (hy : y ∈ b) : a.width.wrap (x * y) ∈ a.multiply b := by
  have hlo := Nat.mul_le_mul (unsignedMin_le_of_mem hx) (unsignedMin_le_of_mem hy)
  have hhi := Nat.mul_le_mul (le_unsignedMax_of_mem hx) (le_unsignedMax_of_mem hy)
  rw [multiply_eq_cover (not_isEmpty_of_mem hx) (not_isEmpty_of_mem hy), ← Nat.cast_mul]
  exact wrap_mem_cover (by omega) (by omega)

/-- The divisor that gives the greatest quotient is positive and no greater than any other. -/
theorem leastDivisor_le (hy : y ∈ b) (h : y ≠ 0) : 0 < b.leastDivisor ∧ b.leastDivisor ≤ y := by
  have hmin := unsignedMin_le_of_mem hy
  have hc := b.width.two_le_card
  obtain ⟨hlt, hmem⟩ := mem_iff.1 hy
  unfold leastDivisor
  split
  · split
    · rcases b.cases_bounds with h' | h' | h' | h' <;> grind
    · omega
  · omega

/-- Quotients of members are members of the quotient. -/
theorem div_mem (hx : x ∈ a) (hy : y ∈ b) (h : y ≠ 0) : x / y ∈ a.udiv b := by
  have hmax := le_unsignedMax_of_mem hy
  obtain ⟨hpos, hle⟩ := leastDivisor_le hy h
  have hlo : a.unsignedMin / b.unsignedMax ≤ x / y :=
    Nat.div_le_div (unsignedMin_le_of_mem hx) hmax h
  have hhi : x / y ≤ a.unsignedMax / b.leastDivisor :=
    Nat.div_le_div (le_unsignedMax_of_mem hx) hle hpos.ne'
  have hword : a.width.wrap (x / y : Nat) = x / y :=
    a.width.wrap_natCast_of_lt ((Nat.div_le_self x y).trans_lt (lt_card_of_mem hx))
  rw [udiv_eq_cover (not_isEmpty_of_mem hx) (not_isEmpty_of_mem hy) (by omega), ← hword]
  exact wrap_mem_cover (by omega) (by omega)

theorem shiftLeft_le_shiftLeft {m n s t : Nat} (h : m ≤ n) (hs : s ≤ t) : m <<< s ≤ n <<< t := by
  rw [Nat.shiftLeft_eq, Nat.shiftLeft_eq]
  exact Nat.mul_le_mul h (Nat.pow_le_pow_right (by decide) hs)

/-- A member moved left by a member is a member of the shifted range; a shift by the width or more
leaves nothing. -/
theorem wrap_shiftLeft_mem (hx : x ∈ a) (hy : y ∈ b) :
    (if a.width.bits ≤ y then 0 else a.width.wrap (x <<< y : Nat)) ∈ a.shl b := by
  have hmax := le_unsignedMax_of_mem hy
  have hlo := shiftLeft_le_shiftLeft (unsignedMin_le_of_mem hx) (unsignedMin_le_of_mem hy)
  have hhi := shiftLeft_le_shiftLeft (le_unsignedMax_of_mem hx) hmax
  simp only [shl, not_isEmpty_of_mem hx, not_isEmpty_of_mem hy, Bool.or_self,
    Bool.false_eq_true, if_false]
  split
  · rw [mem_full]
    split
    · exact a.width.card_pos
    · exact a.width.wrap_lt_card _
  · rw [if_neg (by omega)]
    exact wrap_mem_cover (by omega) (by omega)

/-- A word has no digits beyond its width, so a shift need not look at the width. -/
theorem shiftRight_eq {w : Width} (h : x < w.card) (s : Nat) : shiftRight w x s = x >>> s := by
  unfold shiftRight
  split
  · rename_i hs
    have : w.card ≤ 2 ^ s := Nat.pow_le_pow_right (by decide) hs
    rw [Nat.shiftRight_eq_div_pow, Nat.div_eq_of_lt (by omega)]
  · rfl

theorem shiftRight_le_shiftRight {m n s t : Nat} (h : m ≤ n) (hs : s ≤ t) : m >>> t ≤ n >>> s := by
  rw [Nat.shiftRight_eq_div_pow, Nat.shiftRight_eq_div_pow]
  exact Nat.div_le_div h (Nat.pow_le_pow_right (by decide) hs) (by positivity)

/-- A shift to the right reaches from the least member moved furthest to the greatest moved least.
-/
theorem lshr_eq_cover (ha : a.isEmpty = false) (hb : b.isEmpty = false) : a.lshr b =
    cover a.width (a.unsignedMin >>> b.unsignedMax : Nat)
      (a.unsignedMax >>> b.unsignedMin : Nat) := by
  have hmax := unsignedMax_lt_card ha
  have hmin := (unsignedMin_le_unsignedMax ha).trans_lt hmax
  simp only [lshr, ha, hb, shiftRight_eq hmin, shiftRight_eq hmax, Bool.or_self,
    Bool.false_eq_true, if_false]

/-- A member moved right by a member is a member of the shifted range. -/
theorem shiftRight_mem (hx : x ∈ a) (hy : y ∈ b) :
    (if a.width.bits ≤ y then 0 else x >>> y) ∈ a.lshr b := by
  have hlt := lt_card_of_mem hx
  have hlo := shiftRight_le_shiftRight (unsignedMin_le_of_mem hx) (le_unsignedMax_of_mem hy)
  have hhi := shiftRight_le_shiftRight (le_unsignedMax_of_mem hx) (unsignedMin_le_of_mem hy)
  have hword : a.width.wrap (x >>> y : Nat) = x >>> y :=
    a.width.wrap_natCast_of_lt ((Nat.shiftRight_le x y).trans_lt hlt)
  have heq : (if a.width.bits ≤ y then 0 else x >>> y) = x >>> y := shiftRight_eq hlt y
  rw [lshr_eq_cover (not_isEmpty_of_mem hx) (not_isEmpty_of_mem hy), heq, ← hword]
  exact wrap_mem_cover (by omega) (by omega)

/-- Conjunctions of members are members of the conjunction. -/
theorem and_mem (hx : x ∈ a) (hy : y ∈ b) : x &&& y ∈ a.binaryAnd b := by
  have hl := Nat.and_le_left (n := x) (m := y)
  have hr := Nat.and_le_right (n := x) (m := y)
  have hxm := le_unsignedMax_of_mem hx
  have hym := le_unsignedMax_of_mem hy
  have hword : a.width.wrap (x &&& y : Nat) = x &&& y :=
    a.width.wrap_natCast_of_lt (hl.trans_lt (lt_card_of_mem hx))
  rw [binaryAnd_eq_cover (not_isEmpty_of_mem hx) (not_isEmpty_of_mem hy), ← hword]
  exact wrap_mem_cover (by omega) (by omega)

/-- Disjunctions of members are members of the disjunction. -/
theorem or_mem (hw : a.width = b.width) (hx : x ∈ a) (hy : y ∈ b) :
    x ||| y ∈ a.binaryOr b := by
  have hl := Nat.left_le_or (n := x) (m := y)
  have hr := Nat.right_le_or (n := x) (m := y)
  have hxm := unsignedMin_le_of_mem hx
  have hym := unsignedMin_le_of_mem hy
  have hlt : x ||| y < a.width.card :=
    Nat.or_lt_two_pow (lt_card_of_mem hx) (hw ▸ lt_card_of_mem hy)
  have hmask := a.width.mask_add_one
  rw [binaryOr_eq_cover (not_isEmpty_of_mem hx) (not_isEmpty_of_mem hy),
    ← a.width.wrap_natCast_of_lt hlt]
  exact wrap_mem_cover (by omega) (by omega)

/-! ## The tests on the way -/

/-- `cover` for bounds that are in order. -/
def cover? (w : Width) (lo hi : Int) : Option Range :=
  if lo ≤ hi then some (cover w lo hi) else none

def least? (r : Range) : Option Nat := if r.isEmpty then none else some r.unsignedMin

def greatest? (r : Range) : Option Nat := if r.isEmpty then none else some r.unsignedMax

def quotient? (x y : Nat) : Option Nat := if y = 0 then none else some (x / y)

/-- A rule for operands of one width that have members. -/
def onMembers? (a b : Range) (rule : Option Range) : Option Range :=
  if a.width ≠ b.width then none
  else if a.isEmpty || b.isEmpty then some (empty a.width)
  else rule

theorem cover?_eq {w : Width} {lo hi : Int} (h : lo ≤ hi) : cover? w lo hi = some (cover w lo hi) :=
  if_pos h

theorem least?_eq {r : Range} (h : r.isEmpty = false) : r.least? = some r.unsignedMin := by
  simp [least?, h]

theorem greatest?_eq {r : Range} (h : r.isEmpty = false) : r.greatest? = some r.unsignedMax := by
  simp [greatest?, h]

/-- No test fails for operands of one width if none fails for operands with members. -/
theorem onMembers?_eq {a b r : Range} {rule : Option Range} (hw : a.width = b.width)
    (he : (a.isEmpty || b.isEmpty) = true → r = empty a.width)
    (hr : a.isEmpty = false → b.isEmpty = false → rule = some r) :
    onMembers? a b rule = some r := by
  unfold onMembers?
  rw [if_neg (not_not.2 hw)]
  split
  · rename_i h
    rw [he h]
  · rename_i h
    simp only [Bool.or_eq_true, not_or, Bool.not_eq_true] at h
    exact hr h.1 h.2

end Range

namespace BinaryOp

open Range

/-- The range of a result with every assumption of the rules tested: `none` if a test fails. -/
def guardedRange? (op : BinaryOp) (a b : Range) : Option Range :=
  match op with
  | .add => onMembers? a b <|
    if a.isFull || b.isFull then some (full a.width)
    else
      let start : Int := a.lower + b.lower
      cover? a.width start (start + (a.size + b.size - 1) - 1)
  | .sub => onMembers? a b <|
    if a.isFull || b.isFull then some (full a.width)
    else
      let start : Int := a.lower - (b.lower + b.size - 1)
      cover? a.width start (start + (a.size + b.size - 1) - 1)
  | .mul => onMembers? a b do
    let lo := (← a.least?) * (← b.least?)
    let hi := (← a.greatest?) * (← b.greatest?)
    cover? a.width lo hi
  | .udiv => onMembers? a b do
    if (← b.greatest?) = 0 then return empty a.width
    let lo ← quotient? (← a.least?) (← b.greatest?)
    let least ← b.least?
    let divisor := if least = 0 then (if b.upper = 1 then b.lower else 1) else least
    let hi ← quotient? (← a.greatest?) divisor
    cover? a.width lo hi
  | .shl => onMembers? a b do
    if a.width.bits - bitLength (← a.greatest?) ≤ (← b.greatest?) then return full a.width
    let lo := (← a.least?) <<< (← b.least?)
    let hi := (← a.greatest?) <<< (← b.greatest?)
    cover? a.width lo hi
  | .lshr => onMembers? a b do
    let lo := shiftRight a.width (← a.least?) (← b.greatest?)
    let hi := shiftRight a.width (← a.greatest?) (← b.least?)
    cover? a.width lo hi
  | .and => onMembers? a b do
    cover? a.width 0 (min (← a.greatest?) (← b.greatest?) : Nat)
  | .or => onMembers? a b do
    cover? a.width (max (← a.least?) (← b.least?) : Nat) a.width.mask
  | .sdiv | .ashr | .xor => some a
  | .urem | .srem => some b

/-- No test fails for operands of one width, and the tests change nothing. -/
theorem guardedRange?_eq (op : BinaryOp) {a b : Range} (hw : a.width = b.width) :
    op.guardedRange? a b = some (op.range a b) := by
  cases op with
  | add =>
    refine onMembers?_eq hw (fun h ↦ by simp only [range, Range.add, h, if_true]) fun ha hb ↦ ?_
    have := size_pos ha
    have := size_pos hb
    simp only [range, Range.add, ha, hb, Bool.or_self, Bool.false_eq_true, if_false]
    split
    · rfl
    · exact cover?_eq (by omega)
  | sub =>
    refine onMembers?_eq hw (fun h ↦ by simp only [range, Range.sub, h, if_true]) fun ha hb ↦ ?_
    have := size_pos ha
    have := size_pos hb
    simp only [range, Range.sub, ha, hb, Bool.or_self, Bool.false_eq_true, if_false]
    split
    · rfl
    · exact cover?_eq (by omega)
  | mul =>
    refine onMembers?_eq hw (fun h ↦ by simp only [range, multiply, h, if_true]) fun ha hb ↦ ?_
    have hle := Nat.mul_le_mul (unsignedMin_le_unsignedMax ha) (unsignedMin_le_unsignedMax hb)
    simp only [range, multiply, ha, hb, Bool.or_self, Bool.false_eq_true, if_false, least?_eq,
      greatest?_eq, Option.bind_eq_bind, Option.bind_some]
    exact cover?_eq (by exact_mod_cast hle)
  | udiv =>
    refine onMembers?_eq hw (fun h ↦ by simp only [range, Range.udiv, h, Bool.true_or, if_true])
      fun ha hb ↦ ?_
    simp only [range, Range.udiv, ha, hb, Bool.or_self, Bool.false_or, least?_eq, greatest?_eq,
      Option.bind_eq_bind, Option.bind_some, beq_iff_eq]
    split
    · rfl
    · rename_i h0
      obtain ⟨hpos, hle⟩ := leastDivisor_le (unsignedMax_mem hb) h0
      have hdiv : a.unsignedMin / b.unsignedMax ≤ a.unsignedMax / b.leastDivisor :=
        Nat.div_le_div (unsignedMin_le_unsignedMax ha) hle hpos.ne'
      simp only [leastDivisor] at hpos hdiv ⊢
      simp only [quotient?, h0, hpos.ne', if_false, Option.bind_some]
      exact cover?_eq (by exact_mod_cast hdiv)
  | shl =>
    refine onMembers?_eq hw (fun h ↦ by simp only [range, Range.shl, h, if_true]) fun ha hb ↦ ?_
    have hle := shiftLeft_le_shiftLeft (unsignedMin_le_unsignedMax ha)
      (unsignedMin_le_unsignedMax hb)
    simp only [range, Range.shl, ha, hb, Bool.or_self, Bool.false_eq_true, if_false, least?_eq,
      greatest?_eq, Option.bind_eq_bind, Option.bind_some]
    split
    · rfl
    · exact cover?_eq (by exact_mod_cast hle)
  | lshr =>
    refine onMembers?_eq hw (fun h ↦ by simp only [range, Range.lshr, h, if_true]) fun ha hb ↦ ?_
    have hmax := unsignedMax_lt_card ha
    have hle := shiftRight_le_shiftRight (unsignedMin_le_unsignedMax ha)
      (unsignedMin_le_unsignedMax hb)
    rw [← shiftRight_eq hmax,
      ← shiftRight_eq ((unsignedMin_le_unsignedMax ha).trans_lt hmax)] at hle
    simp only [range, Range.lshr, ha, hb, Bool.or_self, Bool.false_eq_true, if_false, least?_eq,
      greatest?_eq, Option.bind_eq_bind, Option.bind_some]
    exact cover?_eq (by exact_mod_cast hle)
  | and =>
    refine onMembers?_eq hw (fun h ↦ by simp only [range, binaryAnd, h, if_true]) fun ha hb ↦ ?_
    simp only [range, binaryAnd, ha, hb, Bool.or_self, Bool.false_eq_true, if_false,
      greatest?_eq, Option.bind_eq_bind, Option.bind_some]
    exact cover?_eq (by omega)
  | or =>
    refine onMembers?_eq hw (fun h ↦ by simp only [range, binaryOr, h, if_true]) fun ha hb ↦ ?_
    have hmax := a.width.mask_add_one
    have := (unsignedMin_le_unsignedMax ha).trans_lt (unsignedMax_lt_card ha)
    have := (unsignedMin_le_unsignedMax hb).trans_lt (unsignedMax_lt_card hb)
    simp only [range, binaryOr, ha, hb, Bool.or_self, Bool.false_eq_true, if_false, least?_eq,
      Option.bind_eq_bind, Option.bind_some]
    exact cover?_eq (by rw [← hw] at *; omega)
  | sdiv | ashr | xor | urem | srem => rfl

/-- The result of an operator has the width of its operands. -/
theorem width_range (op : BinaryOp) {a b : Range} (hw : a.width = b.width) :
    (op.range a b).width = a.width := by
  cases op <;> simp [range, hw]

/-- The result of an operator on members is a member of the range of the results. -/
theorem eval?_mem {op : BinaryOp} {a b : Range} {x y z : Nat} (hw : a.width = b.width)
    (hx : x ∈ a) (hy : y ∈ b) (h : op.eval? a.width x y = some z) : z ∈ op.range a b := by
  cases op with
  | udiv =>
    simp only [eval?] at h
    split at h
    · contradiction
    · rename_i hne
      cases h
      exact div_mem hx hy hne
  | add => cases h; exact wrap_add_mem hw hx hy
  | sub => cases h; exact wrap_sub_mem hw hx hy
  | mul => cases h; exact wrap_mul_mem hx hy
  | shl => cases h; exact wrap_shiftLeft_mem hx hy
  | lshr => cases h; exact shiftRight_mem hx hy
  | and => cases h; exact and_mem hx hy
  | or => cases h; exact or_mem hw hx hy
  | sdiv | ashr | xor | urem | srem => cases h

/-- **Soundness of the arithmetic on ranges.**  On ranges of one width no test of a rule fails, the
result is a range of that width, and it holds the result of the operator on any two members. -/
theorem range_sound (op : BinaryOp) {a b : Range} (hw : a.width = b.width) :
    ∃ r, op.guardedRange? a b = some r ∧ r = op.range a b ∧ r.width = a.width ∧
      ∀ x ∈ a, ∀ y ∈ b, ∀ z, op.eval? a.width x y = some z → z ∈ r :=
  ⟨op.range a b, guardedRange?_eq op hw, rfl, width_range op hw,
    fun _ hx _ hy _ h ↦ eval?_mem hw hx hy h⟩

/-- A dividend and a divisor that wrap, the divisors from 5 on and past the greatest word to 0. -/
theorem range_sound_wrapped :
    (ofBounds ⟨8, by decide⟩ 250 4).width = (ofBounds ⟨8, by decide⟩ 5 1).width ∧
      ∃ r, udiv.guardedRange? (ofBounds ⟨8, by decide⟩ 250 4) (ofBounds ⟨8, by decide⟩ 5 1) = some r ∧
        255 / 5 ∈ r := by
  refine ⟨rfl, ?_⟩
  obtain ⟨r, hr, -, -, hmem⟩ := range_sound udiv
    (a := ofBounds ⟨8, by decide⟩ 250 4) (b := ofBounds ⟨8, by decide⟩ 5 1) rfl
  exact ⟨r, hr, hmem 255 (by decide) 5 (by decide) _ (by decide)⟩

end BinaryOp

end RangeFlow
