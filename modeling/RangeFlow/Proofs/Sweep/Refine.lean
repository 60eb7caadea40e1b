import RangeFlow.Proofs.Comparison.Region
import RangeFlow.Proofs.Machine
import RangeFlow.Proofs.Ordered.Map
import RangeFlow.Proofs.Range.Avoid
import RangeFlow.Sweep.Refine

/-!
# What branches and switches tell

A run that takes an edge has values that the facts on the edge allow: the operands of a comparison
stand in its relation, and the condition of a switch has the value of a case, or none of them.
-/

namespace RangeFlow

/-- A word is a member of a range of its width. -/
def Range.Holds (r : Range) (v : Word) : Prop := v.width = r.width ∧ v.val ∈ r

/-! ## Comparisons -/

namespace Comparison

variable {c : Comparison} {a b : Operand} {lhs rhs r : Range} {x y : String}

theorem get?_singleFact {r₀ : Range}
    (h : OrderedMap.get? (.ofList [(Subject.var x, r₀)] : Facts) (.var y) = some r) :
    y = x ∧ r = r₀ := by
  rw [OrderedMap.ofList, OrderedMap.insertAll_cons, OrderedMap.insertAll_nil,
    OrderedMap.get?_insert] at h
  split at h
  · rename_i heq
    exact ⟨Subject.var.inj heq, (Option.some.inj h).symm⟩
  · cases h

/-- A fact is kept of the left side only if it is a variable. -/
theorem get?_leftFact {r₀ : Range} (h : OrderedMap.get? (match a with
      | .var x _ => .ofList [(Subject.var x, r₀)]
      | _ => (∅ : Facts)) (.var x) = some r) : ∃ t, a = .var x t ∧ r = r₀ := by
  cases a with
  | literal n w => cases h
  | symbol name => cases h
  | var z t =>
    obtain ⟨rfl, rfl⟩ := get?_singleFact h
    exact ⟨t, rfl, rfl⟩

/-- The facts that a comparison tells are about its operands. -/
theorem get?_refine (h : (c.refine a b lhs rhs).get? (.var x) = some r) :
    (∃ t, a = .var x t ∧ r = lhs.intersect (c.allowed rhs)) ∨
      ∃ w, b = .var x (.int w) ∧ r = (rhs.intersect (c.swap.allowed lhs)).resize w := by
  unfold refine at h
  dsimp only at h
  split at h
  · rename_i z w
    rw [OrderedMap.get?_insert] at h
    split at h
    · rename_i heq
      rw [← Subject.var.inj heq]
      exact .inr ⟨w, rfl, (Option.some.inj h).symm⟩
    · exact .inl (get?_leftFact h)
  · exact .inl (get?_leftFact h)

theorem get?_refine_symbol (z : String) : (c.refine a b lhs rhs).get? (.symbol z) = none := by
  unfold refine
  cases a <;> dsimp only <;> split <;> simp [OrderedMap.get?_insert, OrderedMap.ofList] <;> rfl

/-- Operands that stand in a relation are members of what it tells. -/
theorem holds_of_refine {ρ : Values} {y z v : Word} (ha : a.read? ρ = some y)
    (hb : b.read? ρ = some z) (hy : lhs.Holds y) (hz : rhs.Holds z) (hw : lhs.width = rhs.width)
    (hc : c.holds lhs.width.bits y.val z.val = true) (hx : ρ x = some v)
    (h : (c.refine a b lhs rhs).get? (.var x) = some r) : r.Holds v := by
  rcases get?_refine h with ⟨t, rfl, rfl⟩ | ⟨w, rfl, rfl⟩
  · obtain rfl : y = v := by
      rw [Operand.read?_var ha] at hx
      exact Option.some.inj hx
    have hallowed : y.val ∈ c.allowed rhs := by
      refine mem_allowed ?_ hz.2 (by rw [← hw]; exact hc)
      rw [← hw]
      exact Range.lt_card_of_mem hy.2
    have hwidth : lhs.width = (c.allowed rhs).width := by rw [hw, width_allowed]
    exact ⟨by rw [Range.width_intersect hwidth, hy.1], Range.mem_intersect hwidth hy.2 hallowed⟩
  · obtain rfl : z = v := by
      rw [Operand.read?_var hb] at hx
      exact Option.some.inj hx
    have hallowed : z.val ∈ c.swap.allowed lhs := by
      refine mem_allowed ?_ hy.2 (by rw [holds_swap]; exact hc)
      rw [hw]
      exact Range.lt_card_of_mem hz.2
    have hwidth : rhs.width = (c.swap.allowed lhs).width := by rw [width_allowed, hw]
    have hmem := Range.mem_intersect hwidth hz.2 hallowed
    have heq : w = (rhs.intersect (c.swap.allowed lhs)).width := by
      have hty := Operand.ty_of_read? hb
      cases hty
      rw [Range.width_intersect hwidth, hz.1]
    rw [heq, Range.resize_width]
    exact ⟨by rw [← heq]; exact (Ty.int.inj (Operand.ty_of_read? hb)).symm, hmem⟩

/-- On the edge that a branch takes holds the comparison that counts there. -/
theorem holds_of_taken {ifTrue ifFalse : String} (h : ifTrue ≠ ifFalse) (bits : Nat) (u v : Int) :
    (if (if c.holds bits u v then ifTrue else ifFalse) = ifTrue then c else c.invert).holds
      bits u v = true := by
  cases hc : c.holds bits u v with
  | true => simpa using hc
  | false => simp [h.symm, holds_invert, hc]

end Comparison

/-! ## Switches -/

theorem width_foldl_union {α : Type} {w : Width} (g : α → Range) (hg : ∀ k, (g k).width = w)
    (ks : List α) (r : Range) (hr : r.width = w) :
    (ks.foldl (fun r k ↦ r.union (g k)) r).width = w := by
  induction ks generalizing r with
  | nil => exact hr
  | cons k ks ih => exact ih _ (by rw [Range.width_union (by rw [hr, hg]), hr])

theorem mem_foldl_union {α : Type} {w : Width} (g : α → Range) (hg : ∀ k, (g k).width = w)
    {ks : List α} {r : Range} (hr : r.width = w) {x : Nat}
    (h : x ∈ r ∨ ∃ k ∈ ks, x ∈ g k) : x ∈ ks.foldl (fun r k ↦ r.union (g k)) r := by
  induction ks generalizing r with
  | nil => simpa using h
  | cons k ks ih =>
    have hw : r.width = (g k).width := by rw [hr, hg]
    refine ih (by rw [Range.width_union hw, hr]) ?_
    rcases h with h | ⟨j, hj, hx⟩
    · exact .inl (Range.mem_union hw (.inl h))
    · rcases List.mem_cons.1 hj with rfl | hj
      · exact .inl (Range.mem_union hw (.inr hx))
      · exact .inr ⟨j, hj, hx⟩

/-- The values of the cases for a block. -/
theorem width_casesRegion (w : Width) (ks : List SwitchCase) :
    (ks.foldl (fun (r : Range) k ↦ r.union (.singleton w k.value)) (.empty w)).width = w :=
  width_foldl_union (fun k : SwitchCase ↦ Range.singleton w k.value)
    (fun k ↦ Range.width_singleton w k.value) ks (.empty w) rfl

/-- The region of some cases contains the word of each. -/
theorem mem_casesRegion {w : Width} {ks : List SwitchCase} {k : SwitchCase} (hk : k ∈ ks) :
    w.wrap k.value ∈
      ks.foldl (fun (r : Range) k ↦ r.union (.singleton w k.value)) (.empty w) :=
  mem_foldl_union (fun k : SwitchCase ↦ Range.singleton w k.value)
    (fun k ↦ Range.width_singleton w k.value) rfl (.inr ⟨k, hk, Range.mem_singleton.2 rfl⟩)

/-- The region of a switch has the width of its condition. -/
theorem width_switchRegion (w : Width) (default : String) (cases : List SwitchCase)
    (label : String) : (switchRegion w default cases label).width = w := by
  have hwidth := width_casesRegion w (cases.filter fun k ↦ k.label == label)
  unfold switchRegion
  dsimp only
  split
  · rw [Range.width_union (by rw [hwidth, Range.width_avoid]), hwidth]
  · exact hwidth

/-- A switch on a word can go to a block: by a case with the word, or by default if no case has
it. -/
def SwitchGoes (v : Word) (default : String) (cases : List SwitchCase) (label : String) : Prop :=
  (∃ k ∈ cases, v.width.wrap k.value = v.val ∧ k.label = label) ∨
    (default = label ∧ ∀ k ∈ cases, v.width.wrap k.value ≠ v.val)

theorem switchGoes_switchTarget (v : Word) (default : String) (cases : List SwitchCase) :
    SwitchGoes v default cases (switchTarget v default cases) := by
  unfold switchTarget
  cases hfind : cases.find? fun k ↦ v.width.wrap k.value == v.val with
  | some k =>
    refine .inl ⟨k, List.mem_of_find?_eq_some hfind, ?_, rfl⟩
    simpa using List.find?_some hfind
  | none =>
    refine .inr ⟨rfl, fun k hk ↦ ?_⟩
    simpa using List.find?_eq_none.1 hfind k hk

/-- Words for which a switch can go to a block are in the region of the block. -/
theorem SwitchGoes.mem_switchRegion {v : Word} {default label : String} {cases : List SwitchCase}
    (h : SwitchGoes v default cases label) :
    v.val ∈ switchRegion v.width default cases label := by
  have hwidth := width_casesRegion v.width (cases.filter fun k ↦ k.label == label)
  unfold switchRegion
  dsimp only
  rcases h with ⟨k, hk, hkv, hkl⟩ | ⟨hdefault, hnone⟩
  · have hown : k ∈ cases.filter fun k ↦ k.label == label :=
      List.mem_filter.2 ⟨hk, by simpa using hkl⟩
    have hmem := mem_casesRegion (w := v.width) hown
    rw [hkv] at hmem
    split
    · exact Range.mem_union (by rw [hwidth, Range.width_avoid]) (.inl hmem)
    · exact hmem
  · rw [if_pos hdefault]
    refine Range.mem_union (by rw [hwidth, Range.width_avoid]) (.inr ?_)
    refine Range.mem_avoid ?_ v.val_lt ?_
    · intro n hn
      obtain ⟨k, -, rfl⟩ := List.mem_map.1 hn
      have := v.width.wrap_lt_card k.value
      omega
    · intro hmem
      obtain ⟨k, hk, hkv⟩ := List.mem_map.1 hmem
      exact hnone k (List.mem_filter.1 hk).1 (Int.natCast_inj.1 hkv)

/-- The condition of a switch that goes to a block is in the region of the block. -/
theorem mem_switchRegion (v : Word) (default : String) (cases : List SwitchCase) :
    v.val ∈ switchRegion v.width default cases (switchTarget v default cases) :=
  (switchGoes_switchTarget v default cases).mem_switchRegion

end RangeFlow
