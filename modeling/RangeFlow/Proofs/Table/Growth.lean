import Mathlib.Data.Finset.Card
import Mathlib.Data.Finset.Dedup
import RangeFlow.Proofs.Ordered.Map
import RangeFlow.Proofs.Range.Member
import RangeFlow.Table.Basic

/-!
# How a table grows

`Grows ids t b u` says that `u` comes from `t` by joining ranges to some of the given ids, and that
`b` tells whether one of them grew.  A full range cannot grow, so an id that has been widened stays
as it is, and the widened ids count the rounds in which something changes.
-/

namespace RangeFlow

namespace RangeTable

variable {ι : Type} [DecidableEq ι]

/-- What joining a range to that of an id can do. -/
theorem union_cases (t : RangeTable ι) (id : ι) (r : Range) :
    (t.union id r = (t, false) ∧ (r.isEmpty = true ∨ t.get? id = some (t.joined id r))) ∨
    (t.union id r = ({ t with
        ranges := t.ranges.insert id (t.joined id r)
        changes := t.changes.insert id }, true) ∧
      r.isEmpty = false ∧ t.get? id ≠ some (t.joined id r)) := by
  unfold union
  split
  · rename_i h
    simp only [Bool.or_eq_true, decide_eq_true_eq] at h
    exact .inl ⟨rfl, h⟩
  · rename_i h
    simp only [Bool.or_eq_true, decide_eq_true_eq, not_or, Bool.not_eq_true] at h
    exact .inr ⟨rfl, h⟩

/-- A full range does not grow. -/
theorem union_of_isFull {t : RangeTable ι} {id : ι} {old : Range} (h : t.get? id = some old)
    (hf : old.isFull = true) (r : Range) : t.union id r = (t, false) := by
  have hj : t.joined id r = old := by simp [joined, Range.joinInto, h, Range.union, hf]
  rcases t.union_cases id r with ⟨hu, -⟩ | ⟨-, -, hne⟩
  · exact hu
  · exact absurd (by rw [h, hj]) hne

/-- A table that comes from another one by joining ranges to some ids, and whether one grew. -/
inductive Grows (ids : ι → Prop) : RangeTable ι → Bool → RangeTable ι → Prop
  | refl (t : RangeTable ι) : Grows ids t false t
  | offer {t u : RangeTable ι} {b : Bool} {id : ι} (r : Range) : Grows ids t b u → ids id →
    Grows ids t (b || (u.union id r).2) (u.union id r).1

namespace Grows

variable {ids : ι → Prop} {t u v : RangeTable ι} {b c : Bool} {id : ι}

theorem trans (h : Grows ids t b u) (h' : Grows ids u c v) : Grows ids t (b || c) v := by
  induction h' with
  | refl => simpa using h
  | offer r _ hid ih =>
    rw [← Bool.or_assoc]
    exact .offer r ih hid

/-- If no id can grow, nothing changed. -/
theorem eq_of_no_ids (h : Grows ids t b u) (hn : ∀ id, ¬ids id) : u = t := by
  cases h with
  | refl => rfl
  | offer _ _ hid => exact absurd hid (hn _)

/-- If nothing grew, nothing changed. -/
theorem eq_of_false (h : Grows ids t b u) (hb : b = false) : u = t := by
  induction h with
  | refl => rfl
  | @offer w _ id r _ _ ih =>
    rw [Bool.or_eq_false_iff] at hb
    rcases w.union_cases id r with ⟨hu, -⟩ | ⟨hu, -⟩
    · rw [hu]
      exact ih hb.1
    · rw [hu] at hb
      exact absurd hb.2 (by simp)

/-- A full range stays. -/
theorem get?_of_isFull (h : Grows ids t b u) {r : Range} (hr : t.get? id = some r)
    (hf : r.isFull = true) : u.get? id = some r := by
  induction h with
  | refl => exact hr
  | @offer w _ id' r' _ _ ih =>
    rcases w.union_cases id' r' with ⟨hu, -⟩ | ⟨hu, -, hne⟩
    · rw [hu]
      exact ih
    · by_cases hid : id = id'
      · subst hid
        rw [union_of_isFull ih hf]
        exact ih
      · rw [hu]
        simpa [get?, OrderedMap.get?_insert, hid] using ih

/-- A new change is one of an id whose range was not full. -/
theorem mem_changes (h : Grows ids t b u) (hid : id ∈ u.changes) :
    id ∈ t.changes ∨ ∀ r, t.get? id = some r → r.isFull = false := by
  induction h with
  | refl => exact .inl hid
  | @offer w _ id' r' hw _ ih =>
    rcases w.union_cases id' r' with ⟨hu, -⟩ | ⟨hu, -, hne⟩
    · rw [hu] at hid
      exact ih hid
    · rw [hu] at hid
      rcases OrderedSet.mem_insert.1 hid with hid | rfl
      · exact ih hid
      · refine .inr fun r hr ↦ ?_
        by_contra hf
        rw [Bool.not_eq_false] at hf
        have := union_of_isFull (hw.get?_of_isFull hr hf) hf r'
        rw [hu] at this
        exact absurd (congrArg Prod.snd this) (by simp)

theorem changes_mono (h : Grows ids t b u) (hid : id ∈ t.changes) : id ∈ u.changes := by
  induction h with
  | refl => exact hid
  | @offer w _ id' r' _ _ ih =>
    rcases w.union_cases id' r' with ⟨hu, -⟩ | ⟨hu, -⟩
    · rw [hu]
      exact ih
    · rw [hu]
      exact OrderedSet.mem_insert.2 (.inl ih)

/-- If something grew, the changes tell what. -/
theorem exists_mem_changes (h : Grows ids t b u) (hb : b = true) : ∃ id, id ∈ u.changes := by
  induction h with
  | refl => cases hb
  | @offer w c id' r' hw hid' ih =>
    rw [Bool.or_eq_true] at hb
    rcases hb with hb | hb
    · obtain ⟨id, hid⟩ := ih hb
      exact ⟨id, changes_mono (.offer r' (.refl w) hid') hid⟩
    · rcases w.union_cases id' r' with ⟨hu, -⟩ | ⟨hu, -⟩
      · rw [hu] at hb
        cases hb
      · rw [hu]
        exact ⟨id', OrderedSet.mem_insert.2 (.inr rfl)⟩

/-- What is not listed as a change has not changed. -/
theorem get?_of_notMem_changes (h : Grows ids t b u) (hid : id ∉ u.changes) :
    u.get? id = t.get? id := by
  induction h with
  | refl => rfl
  | @offer w _ id' r' _ _ ih =>
    rcases w.union_cases id' r' with ⟨hu, -⟩ | ⟨hu, -⟩
    · rw [hu] at hid ⊢
      exact ih hid
    · rw [hu] at hid ⊢
      rw [OrderedSet.mem_insert, not_or] at hid
      rw [← ih hid.1]
      exact OrderedMap.get?_insert_of_ne _ _ hid.2

/-- New ids are among those that ranges are joined to. -/
theorem mem_ids (h : Grows ids t b u) (hid : id ∈ u.ids) : id ∈ t.ids ∨ ids id := by
  induction h with
  | refl => exact .inl hid
  | @offer w _ id' r' _ hid' ih =>
    rcases w.union_cases id' r' with ⟨hu, -⟩ | ⟨hu, -⟩
    · rw [hu] at hid
      exact ih hid
    · rw [hu] at hid
      rcases OrderedMap.mem_keys_insert.1 hid with hid | rfl
      · exact ih hid
      · exact .inr hid'

/-- An id that changed is in the table. -/
theorem mem_ids_of_mem_changes (h : Grows ids t b u) (hid : id ∈ u.changes) :
    id ∈ t.changes ∨ id ∈ u.ids := by
  induction h with
  | refl => exact .inl hid
  | @offer w _ id' r' _ _ ih =>
    rcases w.union_cases id' r' with ⟨hu, -⟩ | ⟨hu, -⟩
    · rw [hu] at hid ⊢
      exact ih hid
    · rw [hu] at hid ⊢
      rcases OrderedSet.mem_insert.1 hid with hid | rfl
      · exact (ih hid).imp_right fun h ↦ OrderedMap.mem_keys_insert.2 (.inl h)
      · exact .inr (OrderedMap.mem_keys_insert.2 (.inr rfl))

end Grows

/-! ## Widening -/

/-- The ids of a table are those with a range. -/
theorem mem_ids_iff {t : RangeTable ι} {id : ι} : id ∈ t.ids ↔ ∃ r, t.get? id = some r := by
  rw [ids, get?, ← OrderedMap.get?_isSome_iff, Option.isSome_iff_exists]

theorem ids_getD_setFull? (t : RangeTable ι) (id : ι) : ((t.setFull? id).getD t).ids = t.ids := by
  cases h : t.get? id with
  | none => simp [setFull?, h]
  | some r =>
    have hid : id ∈ t.ranges.keys := mem_ids_iff.2 ⟨r, h⟩
    simp [setFull?, h, ids, OrderedMap.keys_insert, hid]

/-- Widening makes one range full and leaves the others. -/
theorem get?_getD_setFull? (t : RangeTable ι) (id id' : ι) :
    ((t.setFull? id).getD t).get? id' =
      if id' = id then (t.get? id).map fun r ↦ .full r.width else t.get? id' := by
  cases h : t.get? id with
  | none =>
    simp only [setFull?, h, Option.map_none, Option.getD_none]
    split
    · rename_i heq
      rw [heq, h]
    · rfl
  | some r =>
    simp only [setFull?, h, Option.map_some, Option.getD_some]
    exact OrderedMap.get?_insert t.ranges id id' _

@[simp] theorem ids_widen (t : RangeTable ι) (l : List ι) : (t.widen l).ids = t.ids := by
  induction l generalizing t with
  | nil => rfl
  | cons id l ih =>
    rw [widen, List.foldl_cons, ← widen, ih, ids_getD_setFull?]

theorem changes_widen (t : RangeTable ι) (l : List ι) : (t.widen l).changes = t.changes := by
  induction l generalizing t with
  | nil => rfl
  | cons id l ih =>
    rw [widen, List.foldl_cons, ← widen, ih]
    cases h : t.get? id <;> simp [setFull?, h]

/-- Widening gives the listed ids every word of their width. -/
theorem get?_widen (t : RangeTable ι) (l : List ι) (id : ι) :
    (t.widen l).get? id = if id ∈ l then (t.get? id).map fun r ↦ .full r.width else t.get? id := by
  induction l generalizing t with
  | nil => simp [widen]
  | cons id' l ih =>
    rw [widen, List.foldl_cons, ← widen, ih, get?_getD_setFull?]
    by_cases h : id = id'
    · subst h
      cases t.get? id <;> simp
    · simp [h]

/-! ## Counting widened ids -/

def fullIds (t : RangeTable ι) : Finset ι :=
  t.ids.toFinset.filter fun id ↦ (t.get? id).any Range.isFull

theorem mem_fullIds {t : RangeTable ι} {id : ι} :
    id ∈ t.fullIds ↔ ∃ r, t.get? id = some r ∧ r.isFull = true := by
  simp only [fullIds, Finset.mem_filter, List.mem_toFinset, mem_ids_iff, Option.any_eq_true]
  constructor
  · rintro ⟨-, h⟩
    exact h
  · rintro ⟨r, hr, hf⟩
    exact ⟨⟨r, hr⟩, r, hr, hf⟩

theorem card_fullIds_le (t : RangeTable ι) : t.fullIds.card ≤ t.size := by
  have h : t.ids.length = t.size := List.length_map _
  exact (Finset.card_filter_le _ _).trans (h ▸ List.toFinset_card_le t.ids)

end RangeTable

end RangeFlow
