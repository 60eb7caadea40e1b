import RangeFlow.Proofs.Range.Arith
import RangeFlow.Proofs.Range.Lattice
import RangeFlow.Proofs.Range.Resize
import RangeFlow.Sweep.Transfer

/-!
# Ranges with members

Whether the result of an operation has members depends only on whether its operands have, with two
exceptions: an intersection may be empty of any two ranges, and a quotient is if the divisor holds
nothing but zero.
-/

namespace RangeFlow

namespace Range

variable {a b r : Range} {v w : Width}

@[simp] theorem isEmpty_singleton (w : Width) (v : Int) : (singleton w v).isEmpty = false :=
  not_isEmpty_of_mem (mem_singleton.2 rfl)

@[simp] theorem isEmpty_full (w : Width) : (full w).isEmpty = false :=
  not_isEmpty_of_mem (mem_full.2 w.card_pos)

@[simp] theorem isEmpty_resize (r : Range) (v : Width) : (r.resize v).isEmpty = r.isEmpty := by
  cases h : r.isEmpty with
  | true =>
    unfold resize zeroExtend truncate
    repeat' split
    all_goals simp_all
  | false => exact not_isEmpty_of_mem (wrap_mem_resize (lower_mem h))

@[simp] theorem isEmpty_conform (a b : Range) : (a.conform b).isEmpty = b.isEmpty := by
  unfold conform
  split
  · rfl
  · exact isEmpty_resize b a.width

@[simp] theorem isEmpty_signExtend (r : Range) (v : Width) :
    (r.signExtend v).isEmpty = r.isEmpty := by
  cases h : r.isEmpty with
  | true =>
    unfold signExtend
    split
    · exact h
    · simp
  | false => exact not_isEmpty_of_mem (wrap_signed_mem_signExtend (lower_mem h))

/-- A union has the members of both. -/
theorem isEmpty_union (hw : a.width = b.width) :
    (a.union b).isEmpty = (a.isEmpty && b.isEmpty) := by
  cases ha : a.isEmpty with
  | false => exact not_isEmpty_of_mem (mem_union hw (.inl (lower_mem ha)))
  | true =>
    cases hb : b.isEmpty with
    | false => exact not_isEmpty_of_mem (mem_union hw (.inr (lower_mem hb)))
    | true =>
      unfold union
      simp [ha, hb]

/-- A range with a member that does not consist of zero alone has another one. -/
theorem exists_mem_ne_zero (h : r.isEmpty = false) (hzero : r.constant? ≠ some 0) :
    ∃ x ∈ r, x ≠ 0 := by
  by_cases hlower : r.lower = 0
  · have hcard := r.width.two_le_card
    have hmask : r.width.mask ≠ 0 := by
      unfold Width.mask
      omega
    have hfull : r.isFull = false := by
      rw [Bool.eq_false_iff, ne_eq, isFull_iff, hlower]
      exact fun ⟨_, h⟩ ↦ hmask h.symm
    have hupper : r.upper ≠ 0 := by
      intro hupper
      rw [Bool.eq_false_iff, ne_eq, isEmpty_iff, hlower, hupper] at h
      exact h ⟨rfl, rfl⟩
    have hone : r.upper ≠ 1 := by
      intro hone
      refine hzero ?_
      have hwrap : r.width.wrap 1 = 1 := r.width.wrap_natCast_of_lt hcard
      simp [constant?, isConstant, hfull, hlower, hone, hwrap]
    refine ⟨1, ?_, one_ne_zero⟩
    rw [mem_iff]
    exact ⟨hcard, .inr (.inr ⟨by omega, by omega⟩)⟩
  · exact ⟨r.lower, lower_mem h, hlower⟩

theorem isEmpty_of_intersect (h : (a.intersect b).isEmpty = false) : a.isEmpty = false := by
  unfold intersect at h
  cases ha : a.isEmpty with
  | false => rfl
  | true => simp [ha] at h

end Range

namespace BinaryOp

variable {op : BinaryOp} {a b : Range}

/-- What the range of the results depends on, of something given for each operand. -/
def reads {α : Type} (op : BinaryOp) (a b : α) : List α :=
  match op with
  | .sdiv | .ashr | .xor => [a]
  | .urem | .srem => [b]
  | _ => [a, b]

/-- A property of what the result depends on is carried over operand by operand. -/
theorem forall_reads {α β : Type} {P : α → Prop} {Q : β → Prop} {x y : α} {u v : β}
    (hl : P x → Q u) (hr : P y → Q v) (h : ∀ c ∈ op.reads x y, P c) : ∀ c ∈ op.reads u v, Q c := by
  cases op <;>
    simp only [reads, List.forall_mem_cons, List.not_mem_nil, false_implies, implies_true,
      and_true] at h ⊢
  case sdiv | ashr | xor => exact hl h
  case urem | srem => exact hr h
  all_goals exact ⟨hl h.1, hr h.2⟩

/-- A result with members comes from operands with members, as far as it depends on them. -/
theorem isEmpty_of_range (h : (op.range a b).isEmpty = false) :
    ∀ r ∈ op.reads a b, r.isEmpty = false := by
  intro r hr
  by_contra hempty
  rw [Bool.not_eq_false] at hempty
  have hboth : op.range a b = .empty a.width ∨ op.range a b = r := by
    cases op <;> simp only [reads, List.mem_cons, List.not_mem_nil, or_false] at hr
    case sdiv | ashr | xor | urem | srem => exact .inr hr.symm
    all_goals
      refine .inl ?_
      rcases hr with rfl | rfl <;>
        simp [range, Range.add, Range.sub, Range.multiply, Range.udiv, Range.shl, Range.lshr,
          Range.binaryAnd, Range.binaryOr, hempty]
  rcases hboth with heq | heq
  · simp [heq] at h
  · rw [heq, hempty] at h
    cases h

/-- Operands with members have a result, unless all of them are divided by zero. -/
theorem isEmpty_range (hw : a.width = b.width) (h : ∀ r ∈ op.reads a b, r.isEmpty = false)
    (hdiv : op = .udiv → b.constant? ≠ some 0) : (op.range a b).isEmpty = false := by
  cases op <;> simp only [reads, List.forall_mem_cons, List.not_mem_nil, false_implies,
    implies_true, and_true] at h
  case sdiv | ashr | xor | urem | srem => exact h
  all_goals
    obtain ⟨ha, hb⟩ := h
    have hx := Range.lower_mem ha
    have hy := Range.lower_mem hb
  case add => exact Range.not_isEmpty_of_mem (Range.wrap_add_mem hw hx hy)
  case sub => exact Range.not_isEmpty_of_mem (Range.wrap_sub_mem hw hx hy)
  case mul => exact Range.not_isEmpty_of_mem (Range.wrap_mul_mem hx hy)
  case shl => exact Range.not_isEmpty_of_mem (Range.wrap_shiftLeft_mem hx hy)
  case lshr => exact Range.not_isEmpty_of_mem (Range.shiftRight_mem hx hy)
  case and => exact Range.not_isEmpty_of_mem (Range.and_mem hx hy)
  case or => exact Range.not_isEmpty_of_mem (Range.or_mem hw hx hy)
  case udiv =>
    obtain ⟨y, hy, hne⟩ := Range.exists_mem_ne_zero hb (hdiv rfl)
    exact Range.not_isEmpty_of_mem (Range.div_mem hx hy hne)

end BinaryOp

end RangeFlow
