import Mathlib.Data.List.Basic
import Mathlib.Data.List.Induction
import RangeFlow.Ordered.Map

/-!
# Ordered maps by their view

A map is determined by the order of its keys and by their values, so that equations between maps
are equations about `keys` and `get?`.
-/

namespace RangeFlow

/-! ## Lists in the order of first occurrence -/

section

variable {ι : Type} [DecidableEq ι]

/-- A last element is kept if it has not occurred before. -/
theorem eraseDups_append_singleton (xs : List ι) (x : ι) :
    (xs ++ [x]).eraseDups = if x ∈ xs.eraseDups then xs.eraseDups else xs.eraseDups ++ [x] := by
  rw [List.eraseDups_append]
  by_cases hx : x ∈ xs
  · simp [List.removeAll, hx]
  · simp [List.removeAll, hx, List.eraseDups_cons]

theorem eraseDups_of_nodup {xs : List ι} (h : xs.Nodup) : xs.eraseDups = xs := by
  induction xs using List.reverseRecOn with
  | nil => rfl
  | append_singleton xs x ih =>
    obtain ⟨hxs, -, hx⟩ := List.nodup_append.1 h
    have hnew : x ∉ xs := fun hmem ↦ hx x hmem x (List.mem_singleton_self x) rfl
    rw [eraseDups_append_singleton, ih hxs, if_neg hnew]

end

namespace OrderedMap

variable {κ α : Type} [DecidableEq κ]

/-! ## Views -/

/-- The keys are listed in the order in which they were first inserted. -/
theorem keys_insert_of_eraseDups {m : OrderedMap κ α} {ks : List κ} (h : m.keys = ks.eraseDups)
    (k : κ) (a : α) : (m.insert k a).keys = (ks ++ [k]).eraseDups := by
  rw [keys_insert, eraseDups_append_singleton, h]

theorem get?_of_mem {m : OrderedMap κ α} {e : κ × α} (h : e ∈ m.entries) :
    m.get? e.1 = some e.2 := by
  obtain ⟨es, hn⟩ := m
  simp only [get?] at *
  induction es with
  | nil => cases h
  | cons d es ih =>
    rw [List.map_cons, List.nodup_cons] at hn
    rcases List.mem_cons.1 h with rfl | h
    · simp
    · have hne : d.1 ≠ e.1 := fun c ↦ hn.1 (c ▸ List.mem_map_of_mem h)
      simpa [hne] using ih hn.2 h

theorem mem_of_get? {m : OrderedMap κ α} {k : κ} {a : α} (h : m.get? k = some a) :
    (k, a) ∈ m.entries := by
  obtain ⟨e, he, rfl⟩ := Option.map_eq_some_iff.1 h
  have hk := List.find?_some he
  rw [decide_eq_true_eq] at hk
  exact hk ▸ List.mem_of_find?_eq_some he

theorem get?_eq_some_iff {m : OrderedMap κ α} {k : κ} {a : α} :
    m.get? k = some a ↔ (k, a) ∈ m.entries := ⟨mem_of_get?, get?_of_mem⟩

/-- The entries can be read off the view. -/
theorem entries_eq (m : OrderedMap κ α) :
    m.entries = m.keys.filterMap fun k ↦ (m.get? k).map fun a ↦ (k, a) := by
  rw [keys, List.filterMap_map]
  have h : m.entries.filterMap ((fun k ↦ (m.get? k).map fun a ↦ (k, a)) ∘ Prod.fst) =
      m.entries.filterMap some := by
    refine List.filterMap_congr fun e he ↦ ?_
    rw [Function.comp_apply, get?_of_mem he, Option.map_some]
  rw [h, List.filterMap_some]

/-- Maps with the same keys in the same order and the same values are equal. -/
theorem ext_view {m n : OrderedMap κ α} (hk : m.keys = n.keys) (hg : ∀ k, m.get? k = n.get? k) :
    m = n := by
  have h : m.entries = n.entries := by rw [entries_eq, entries_eq, hk, funext hg]
  cases m
  cases n
  simp_all

/-- A modification changes the value of one key that is present. -/
theorem get?_modify (m : OrderedMap κ α) (k j : κ) (g : α → α) :
    (m.modify k g).get? j = if j = k then (m.get? j).map g else m.get? j := by
  unfold modify
  cases h : m.get? k with
  | none =>
    dsimp only
    split
    · rename_i hj
      rw [hj, h]
      rfl
    · rfl
  | some a =>
    dsimp only
    rw [get?_insert]
    split
    · rename_i hj
      rw [hj, h]
      rfl
    · rfl

theorem get?_modify_of_ne (m : OrderedMap κ α) {k j : κ} (g : α → α) (h : j ≠ k) :
    (m.modify k g).get? j = m.get? j := by
  rw [get?_modify, if_neg h]

@[simp] theorem keys_modify (m : OrderedMap κ α) (k : κ) (g : α → α) :
    (m.modify k g).keys = m.keys := by
  unfold modify
  cases h : m.get? k with
  | none => rfl
  | some a =>
    have hk : k ∈ m.keys := get?_isSome_iff.1 (by simp [h])
    dsimp only
    rw [keys_insert, if_pos hk]

/-! ## Insertion of a list -/

/-- New keys go to the end, in their order. -/
theorem entries_insertAll {m : OrderedMap κ α} {es : List (κ × α)}
    (h : (m.keys ++ es.map Prod.fst).Nodup) : (m.insertAll es).entries = m.entries ++ es := by
  induction es generalizing m with
  | nil => simp
  | cons e es ih =>
    rw [List.map_cons, ← List.singleton_append, ← List.append_assoc] at h
    have hk : e.1 ∉ m.keys := fun hmem ↦
      (List.nodup_append.1 (List.nodup_append.1 h).1).2.2 _ hmem _ (List.mem_singleton_self _) rfl
    have hentries : (m.insert e.1 e.2).entries = m.entries ++ [e] := by
      rw [insert, dif_neg hk]
    rw [insertAll_cons, ih (by rwa [keys_insert, if_neg hk]), hentries, List.append_assoc,
      List.singleton_append]

theorem find?_eq_none_of_notMem {es : List (κ × α)} {k : κ} (h : k ∉ es.map Prod.fst) :
    (es.find? fun e ↦ decide (e.1 = k)) = none := by
  rw [List.find?_eq_none]
  intro e he hk
  rw [decide_eq_true_eq] at hk
  exact h (List.mem_map.2 ⟨e, he, hk⟩)

/-- Of two maps joined in this way the second one counts. -/
theorem get?_insertAll_entries (m n : OrderedMap κ α) (k : κ) :
    (m.insertAll n.entries).get? k = (n.get? k).or (m.get? k) := by
  have h (es : List (κ × α)) (hn : (es.map Prod.fst).Nodup) (m : OrderedMap κ α) :
      (m.insertAll es).get? k =
        ((es.find? fun e ↦ decide (e.1 = k)).map Prod.snd).or (m.get? k) := by
    induction es generalizing m with
    | nil => rfl
    | cons e es ih =>
      rw [List.map_cons, List.nodup_cons] at hn
      rw [insertAll_cons, ih hn.2, get?_insert, List.find?_cons]
      by_cases hk : e.1 = k
      · subst hk
        simp [find?_eq_none_of_notMem hn.1]
      · have hk' : ¬k = e.1 := fun c ↦ hk c.symm
        simp [hk, hk']
  exact h n.entries n.nodup m

/-- A filter keeps the values that satisfy the test. -/
theorem get?_filter (p : κ × α → Bool) (m : OrderedMap κ α) (k : κ) :
    (m.filter p).get? k = (m.get? k).filter fun a ↦ p (k, a) := by
  ext a
  rw [get?_eq_some_iff, Option.filter_eq_some_iff, get?_eq_some_iff]
  exact List.mem_filter

end OrderedMap

end RangeFlow
