import Mathlib.Data.Int.Interval
import RangeFlow.Proofs.Range.Member
import RangeFlow.Range.Avoid

/-!
# Ranges that avoid listed words

The range is the complement of one run of neighbours on the circle of words.  All words of a run
are listed, so a word that is not listed is in the complement.
-/

namespace RangeFlow

namespace Range

variable {w : Width} {values : List Int}

/-- The elements of a run of neighbours are in the list. -/
theorem mem_of_mem_runs {p : Int × Int} (h : p ∈ runs values) :
    p.1 ≤ p.2 ∧ ∀ v, p.1 ≤ v → v ≤ p.2 → v ∈ values := by
  induction values generalizing p with
  | nil => cases h
  | cons a values ih =>
    have hself : a ≤ a ∧ ∀ v, a ≤ v → v ≤ a → v ∈ a :: values := by
      refine ⟨le_rfl, fun v hlo hhi ↦ ?_⟩
      rw [le_antisymm hhi hlo]
      exact List.mem_cons_self
    have hrest {q : Int × Int} (hq : q ∈ runs values) :
        q.1 ≤ q.2 ∧ ∀ v, q.1 ≤ v → v ≤ q.2 → v ∈ a :: values :=
      ⟨(ih hq).1, fun v hlo hhi ↦ List.mem_cons_of_mem a ((ih hq).2 v hlo hhi)⟩
    unfold runs at h
    split at h
    · rw [List.mem_singleton] at h
      rw [h]
      exact hself
    · rename_i s e more heq
      have hfirst : (s, e) ∈ runs values := heq ▸ List.mem_cons_self
      have hmore {q : Int × Int} (hq : q ∈ more) : q ∈ runs values :=
        heq ▸ List.mem_cons_of_mem _ hq
      split at h
      · rename_i hs
        rcases List.mem_cons.1 h with rfl | h
        · have hse := (ih hfirst).1
          dsimp only at hse ⊢
          refine ⟨by omega, fun v hlo hhi ↦ ?_⟩
          rcases hlo.eq_or_lt with rfl | hlt
          · exact List.mem_cons_self
          · exact List.mem_cons_of_mem a ((ih hfirst).2 v (by dsimp only; omega) hhi)
        · exact hrest (hmore h)
      · rcases List.mem_cons.1 h with rfl | h
        · exact hself
        · rw [← heq] at h
          exact hrest h

/-- The words from the first to the second of a pair, around the circle, are all listed. -/
def IsListed (w : Width) (values : List Int) (p : Int × Int) : Prop :=
  ∀ x : Nat, x < w.card → ((x : Int) - p.1) % w.card ≤ (p.2 - p.1) % w.card → (x : Int) ∈ values

/-- A stretch of words with its ends in order is listed if all its words are. -/
theorem isListed_of_le {p : Int × Int} (hlo : 0 ≤ p.1) (hhi : p.2 < w.card) (hle : p.1 ≤ p.2)
    (h : ∀ v, p.1 ≤ v → v ≤ p.2 → v ∈ values) : IsListed w values p := by
  intro x hx hdist
  rw [sub_emod_of_lt (by omega) (by omega) hlo (by omega),
    Int.emod_eq_of_lt (by omega) (by omega)] at hdist
  split at hdist
  · exact h x (by omega) (by omega)
  · omega

/-- A run that ends at the greatest word and one that starts at zero make one run. -/
theorem isListed_join {s e s' e' : Int} (hs : s = 0) (he' : e' = w.mask) (hs' : 0 ≤ s')
    (hse' : s' ≤ e') (hse : s ≤ e) (he : e < w.card) (h : ∀ v, s ≤ v → v ≤ e → v ∈ values)
    (h' : ∀ v, s' ≤ v → v ≤ e' → v ∈ values) : IsListed w values (s', e) := by
  have hmask := w.mask_add_one
  intro x hx hdist
  dsimp only at hdist
  rw [sub_emod_of_lt (by omega) (by omega) hs' (by omega),
    sub_emod_of_lt (by omega) (by omega) hs' (by omega)] at hdist
  by_cases hx' : s' ≤ x
  · exact h' x hx' (by omega)
  · rw [if_neg hx'] at hdist
    refine h x (by omega) ?_
    split at hdist <;> omega

/-- Joining the last run with the first one gives runs of listed words only. -/
theorem isListed_of_mem_joinEnds (hbound : ∀ v ∈ values, 0 ≤ v ∧ v < w.card) {rs : List (Int × Int)}
    (hrs : ∀ p ∈ rs, p.1 ≤ p.2 ∧ ∀ v, p.1 ≤ v → v ≤ p.2 → v ∈ values) {p : Int × Int}
    (h : p ∈ joinEnds w.mask rs) : IsListed w values p := by
  have hplain {q : Int × Int} (hq : q ∈ rs) : IsListed w values q := by
    obtain ⟨hle, hmem⟩ := hrs q hq
    exact isListed_of_le (hbound _ (hmem _ le_rfl hle)).1 (hbound _ (hmem _ hle le_rfl)).2 hle hmem
  unfold joinEnds at h
  split at h
  · cases h
  · rename_i s e more
    split at h
    · rename_i s' e' hlast
      split at h
      · rename_i hends
        rcases List.mem_cons.1 h with rfl | h
        · obtain ⟨hle, hmem⟩ := hrs (s, e) List.mem_cons_self
          obtain ⟨hle', hmem'⟩ := hrs (s', e') (List.mem_cons_of_mem _ (List.mem_of_getLast? hlast))
          exact isListed_join hends.2 hends.1 (hbound _ (hmem' _ le_rfl hle')).1 hle' hle
            (hbound _ (hmem _ hle le_rfl)).2 hmem hmem'
        · exact hplain (List.mem_cons_of_mem _ (List.dropLast_subset more h))
      · exact hplain h
    · rename_i hlast
      rw [List.getLast?_eq_none_iff] at hlast
      rw [hlast] at hplain
      exact hplain h

theorem longestRun_mem (card : Int) (first : Int × Int) (more : List (Int × Int)) :
    longestRun card first more ∈ first :: more := by
  induction more generalizing first with
  | nil => exact List.mem_cons_self
  | cons run more ih =>
    unfold longestRun
    split
    · exact List.mem_cons_of_mem first (ih run)
    · rcases List.mem_cons.1 (ih first) with h | h
      · rw [h]
        exact List.mem_cons_self
      · exact List.mem_cons_of_mem first (List.mem_cons_of_mem run h)

/-- The way around the circle from after the end of a run to its start. -/
theorem sub_add_one_emod (w : Width) (p : Int × Int) :
    (p.1 - (p.2 + 1)) % w.card = w.card - (p.2 - p.1) % w.card - 1 := by
  have hc := w.two_le_card
  have hnn : 0 ≤ (p.2 - p.1) % w.card := Int.emod_nonneg _ (by omega)
  have hlt : (p.2 - p.1) % w.card < w.card := Int.emod_lt_of_pos _ (by omega)
  have hdiv := Int.emod_add_mul_ediv (p.2 - p.1) w.card
  have heq : p.1 - (p.2 + 1) = (w.card - (p.2 - p.1) % w.card - 1) +
      w.card * (-((p.2 - p.1) / w.card) - 1) := by
    rw [Int.mul_sub, Int.mul_neg, Int.mul_one]
    omega
  rw [heq, Int.add_mul_emod_self_left]
  exact Int.emod_eq_of_lt (by omega) (by omega)

/-- A word that is not listed is outside every listed run. -/
theorem mem_ofBounds_of_isListed {p : Int × Int} (hp : IsListed w values p) {x : Nat}
    (hx : x < w.card) (hnot : (x : Int) ∉ values) : x ∈ ofBounds w (p.2 + 1) p.1 := by
  have hc := w.two_le_card
  have hdist : (p.2 - p.1) % w.card < ((x : Int) - p.1) % w.card := by
    by_contra hle
    exact hnot (hp x hx (by omega))
  have hnn : 0 ≤ (p.2 - p.1) % w.card := Int.emod_nonneg _ (by omega)
  have hlt : ((x : Int) - p.1) % w.card < w.card := Int.emod_lt_of_pos _ (by omega)
  by_cases hwrap : w.wrap (p.2 + 1) = w.wrap p.1
  · rw [ofBounds, dif_pos hwrap]
    exact mem_full.2 hx
  · rw [mem_ofBounds_iff_dist hwrap]
    have h₁ : ((x : Int) - (p.2 + 1)) % w.card =
        ((x : Int) - p.1) % w.card - (p.2 - p.1) % w.card - 1 := by
      have heq : (x : Int) - (p.2 + 1) = (x - p.1) - (p.2 - p.1) - 1 := by omega
      rw [heq, Int.sub_emod, Int.sub_emod ((x : Int) - p.1), Int.emod_sub_emod, Int.sub_emod_emod]
      exact Int.emod_eq_of_lt (by omega) (by omega)
    rw [h₁, sub_add_one_emod]
    omega

/-! ## All words listed -/

theorem nodup_eraseDups (l : List Int) : l.eraseDups.Nodup := by
  induction hn : l.length using Nat.strong_induction_on generalizing l with
  | _ n ih =>
    cases l with
    | nil => exact List.nodup_nil
    | cons a l =>
      rw [List.eraseDups_cons, List.nodup_cons, List.mem_eraseDups]
      have hlt : (l.filter fun b ↦ !b == a).length < n := by
        have := List.length_filter_le (fun b ↦ !b == a) l
        rw [List.length_cons] at hn
        omega
      exact ⟨by simp, ih _ hlt _ rfl⟩

theorem mem_ascending {v : Int} : v ∈ ascending values ↔ v ∈ values := by
  rw [ascending, List.mem_eraseDups, List.mem_mergeSort]

/-- As many different words as there are leave none out. -/
theorem mem_of_length_ascending (hbound : ∀ v ∈ values, 0 ≤ v ∧ v < w.card)
    (hlen : (ascending values).length = w.card) {x : Nat} (hx : x < w.card) :
    (x : Int) ∈ values := by
  by_contra hnot
  have hnodup : ((x : Int) :: ascending values).Nodup :=
    List.nodup_cons.2 ⟨fun h ↦ hnot (mem_ascending.1 h), nodup_eraseDups _⟩
  have hsub : ((x : Int) :: ascending values).toFinset ⊆ Finset.Ico 0 (w.card : Int) := by
    intro v hv
    rw [List.mem_toFinset, List.mem_cons] at hv
    rw [Finset.mem_Ico]
    rcases hv with rfl | hv
    · omega
    · exact hbound v (mem_ascending.1 hv)
  have hle := Finset.card_le_card hsub
  rw [List.toFinset_card_of_nodup hnodup, List.length_cons, hlen, Int.card_Ico] at hle
  omega

/-- Every run of the sorted words lists words to be avoided. -/
theorem isListed_of_mem_runs (hbound : ∀ v ∈ values, 0 ≤ v ∧ v < w.card) {p : Int × Int}
    (hp : p ∈ joinEnds w.mask (runs (ascending values))) : IsListed w values p := by
  refine isListed_of_mem_joinEnds hbound (fun q hq ↦ ?_) hp
  obtain ⟨hle, hmem⟩ := mem_of_mem_runs hq
  exact ⟨hle, fun v hlo hhi ↦ mem_ascending.1 (hmem v hlo hhi)⟩

/-- A word that is not listed is in the range that avoids the listed ones. -/
theorem mem_avoid (hbound : ∀ v ∈ values, 0 ≤ v ∧ v < w.card) {x : Nat} (hx : x < w.card)
    (hnot : (x : Int) ∉ values) : x ∈ avoid w values := by
  unfold avoid
  dsimp only
  split
  · rename_i hlen
    exact absurd (mem_of_length_ascending hbound hlen hx) hnot
  · split
    · exact mem_full.2 hx
    · rename_i run more heq
      exact mem_ofBounds_of_isListed
        (isListed_of_mem_runs hbound (heq ▸ longestRun_mem w.card run more)) hx hnot

end Range

end RangeFlow
