import RangeFlow.Proofs.Ordered.Map
import RangeFlow.Proofs.Range.Avoid
import RangeFlow.Proofs.Range.Smallest

/-!
# The range that avoids listed words is a smallest one

The words that a range leaves out are neighbours on the circle.  If it has all words that are not
listed, those that it leaves out are listed, and lie within one run of `joinEnds`: a run of the
sorted list, or the one that goes past the greatest word.  So no range leaves out more words than
the longest run has, which is what `avoid` leaves out.
-/

namespace RangeFlow

namespace Range

open Width (byte)

variable {w : Width} {values : List Int} {rs : List (Int × Int)} {p q : Int × Int} {l u v : Int}

/-! ## Sorted words -/

theorem eraseDups_sublist (xs : List Int) : xs.eraseDups.Sublist xs := by
  induction xs using List.reverseRecOn with
  | nil => exact List.Sublist.refl _
  | append_singleton xs x ih =>
    rw [eraseDups_append_singleton]
    split
    · exact ih.trans (List.sublist_append_left xs [x])
    · exact ih.append_right [x]

/-- Sorted words without repetitions ascend strictly. -/
theorem pairwise_ascending (values : List Int) : (ascending values).Pairwise (· < ·) := by
  have hsorted : (values.mergeSort (· ≤ ·)).Pairwise (· ≤ ·) := by
    refine (List.pairwise_mergeSort ?_ ?_ values).imp of_decide_eq_true
    · intro a b c hab hbc
      exact decide_eq_true ((of_decide_eq_true hab).trans (of_decide_eq_true hbc))
    · intro a b
      simpa using le_total a b
  have hle : (ascending values).Pairwise (· ≤ ·) := hsorted.sublist (eraseDups_sublist _)
  have hne : (ascending values).Pairwise (· ≠ ·) := nodup_eraseDups _
  exact (hle.and hne).imp fun h ↦ lt_of_le_of_ne h.1 h.2

/-- All words are as many as there are. -/
theorem length_ascending (hbound : ∀ v ∈ values, 0 ≤ v ∧ v < w.card)
    (hall : ∀ x < w.card, (x : Int) ∈ values) : (ascending values).length = w.card := by
  have hwords : (ascending values).toFinset = Finset.Ico 0 (w.card : Int) := by
    ext v
    rw [List.mem_toFinset, mem_ascending, Finset.mem_Ico]
    refine ⟨hbound v, fun hv ↦ ?_⟩
    have hmem := hall v.toNat (by omega)
    rwa [Int.toNat_of_nonneg hv.1] at hmem
  have hcard := congrArg Finset.card hwords
  rw [ascending, List.toFinset_card_of_nodup (nodup_eraseDups _), Int.card_Ico] at hcard
  rw [ascending, hcard]
  omega

/-! ## Runs -/

/-- Every word is in a run. -/
theorem exists_mem_runs (h : v ∈ values) : ∃ p ∈ runs values, p.1 ≤ v ∧ v ≤ p.2 := by
  induction values with
  | nil => exact absurd h List.not_mem_nil
  | cons a values ih =>
    unfold runs
    split
    · rename_i hnil
      rcases List.mem_cons.1 h with rfl | h
      · exact ⟨_, List.mem_singleton_self _, le_rfl, le_rfl⟩
      · obtain ⟨p, hp, -⟩ := ih h
        exact absurd (hnil ▸ hp) List.not_mem_nil
    · rename_i s e more heq
      have hse := (mem_of_mem_runs (heq ▸ List.mem_cons_self : (s, e) ∈ runs values)).1
      dsimp only at hse
      split
      · rename_i hs
        rcases List.mem_cons.1 h with rfl | h
        · exact ⟨_, List.mem_cons_self, le_rfl, by dsimp only; omega⟩
        · obtain ⟨p, hp, hlo, hhi⟩ := ih h
          rw [heq] at hp
          rcases List.mem_cons.1 hp with rfl | hp
          · exact ⟨_, List.mem_cons_self, by dsimp only at hlo ⊢; omega, hhi⟩
          · exact ⟨p, List.mem_cons_of_mem _ hp, hlo, hhi⟩
      · rcases List.mem_cons.1 h with rfl | h
        · exact ⟨_, List.mem_cons_self, le_rfl, le_rfl⟩
        · obtain ⟨p, hp, hbounds⟩ := ih h
          exact ⟨p, List.mem_cons_of_mem _ (heq ▸ hp), hbounds⟩

/-- There is a gap between each run of a sorted list and the next one. -/
theorem pairwise_runs (h : values.Pairwise (· < ·)) :
    (runs values).Pairwise fun p q ↦ p.2 + 1 < q.1 := by
  induction values with
  | nil => exact List.Pairwise.nil
  | cons a values ih =>
    obtain ⟨ha, hvalues⟩ := List.pairwise_cons.1 h
    have hgaps := ih hvalues
    unfold runs
    split
    · exact List.pairwise_singleton _ _
    · rename_i s e more heq
      obtain ⟨hse, hmem⟩ := mem_of_mem_runs (heq ▸ List.mem_cons_self : (s, e) ∈ runs values)
      have has := ha s (hmem s le_rfl hse)
      rw [heq] at hgaps
      obtain ⟨hnext, hmore⟩ := List.pairwise_cons.1 hgaps
      split
      · exact List.pairwise_cons.2 ⟨hnext, hmore⟩
      · refine List.pairwise_cons.2 ⟨fun q hq ↦ ?_, hgaps⟩
        dsimp only at hse hnext ⊢
        rcases List.mem_cons.1 hq with rfl | hq
        · dsimp only
          omega
        · have := hnext q hq
          omega

/-- A run goes on as long as there are neighbours. -/
theorem notMem_of_mem_runs (h : values.Pairwise (· < ·)) (hp : p ∈ runs values) :
    p.2 + 1 ∉ values := by
  intro hmem
  obtain ⟨q, hq, hlo, hhi⟩ := exists_mem_runs hmem
  have hne : p ≠ q := by
    rintro rfl
    omega
  let Apart (p q : Int × Int) : Prop := p.2 + 1 < q.1 ∨ q.2 + 1 < p.1
  have : Std.Symm Apart := ⟨fun _ _ ↦ Or.symm⟩
  have hgaps : (runs values).Pairwise Apart := (pairwise_runs h).imp .inl
  have hgap : Apart p q := hgaps.forall hp hq hne
  have hle := (mem_of_mem_runs hp).1
  unfold Apart at hgap
  omega

/-- Neighbours that are all listed lie within one run. -/
theorem exists_run (h : values.Pairwise (· < ·)) (hlu : l ≤ u)
    (hmem : ∀ v, l ≤ v → v ≤ u → v ∈ values) : ∃ p ∈ runs values, p.1 ≤ l ∧ u ≤ p.2 := by
  obtain ⟨p, hp, hlo, hhi⟩ := exists_mem_runs (hmem l le_rfl hlu)
  refine ⟨p, hp, hlo, ?_⟩
  by_contra hlt
  exact notMem_of_mem_runs h hp (hmem _ (by omega) (by omega))

/-! ## Runs on the circle -/

/-- The number of steps around the circle from the first to the last word of a run. -/
def steps (w : Width) (p : Int × Int) : Int := (p.2 - p.1) % w.card

theorem le_steps_longestRun {first : Int × Int} {more : List (Int × Int)} (h : p ∈ first :: more) :
    steps w p ≤ steps w (longestRun w.card first more) := by
  induction more generalizing p first with
  | nil => rw [List.mem_singleton.1 h, longestRun]
  | cons run more ih =>
    unfold longestRun
    split
    · rename_i hlt
      rcases List.mem_cons.1 h with rfl | h
      · exact hlt.le.trans (ih List.mem_cons_self)
      · exact ih h
    · rename_i hge
      rcases List.mem_cons.1 h with rfl | h
      · exact ih List.mem_cons_self
      · rcases List.mem_cons.1 h with rfl | h
        · exact (not_lt.1 hge).trans (ih List.mem_cons_self)
        · exact ih (List.mem_cons_of_mem first h)

/-- The last run is joined with the first if they meet at the end of the circle. -/
theorem joinEnds_concat (mask : Int) (first last : Int × Int) (init : List (Int × Int)) :
    joinEnds mask (first :: (init ++ [last])) =
      if last.2 = mask ∧ first.1 = 0 then (last.1, first.2) :: init
      else first :: (init ++ [last]) := by
  simp [joinEnds]

/-- Runs within the words of a width, with a gap after each one. -/
structure AreRuns (w : Width) (rs : List (Int × Int)) : Prop where
  nonneg : ∀ p ∈ rs, 0 ≤ p.1
  le : ∀ p ∈ rs, p.1 ≤ p.2
  lt : ∀ p ∈ rs, p.2 < w.card
  gaps : rs.Pairwise fun p q ↦ p.2 + 1 < q.1

/-- The runs of ascending words are the longest stretches of them, in order. -/
theorem areRuns_runs (hbound : ∀ v ∈ values, 0 ≤ v ∧ v < w.card) (h : values.Pairwise (· < ·)) :
    AreRuns w (runs values) where
  nonneg _ hp := (hbound _ ((mem_of_mem_runs hp).2 _ le_rfl (mem_of_mem_runs hp).1)).1
  le _ hp := (mem_of_mem_runs hp).1
  lt _ hp := (hbound _ ((mem_of_mem_runs hp).2 _ (mem_of_mem_runs hp).1 le_rfl)).2
  gaps := pairwise_runs h

namespace AreRuns

theorem steps_eq (h : AreRuns w rs) (hp : p ∈ rs) : steps w p = p.2 - p.1 := by
  have h₁ := h.nonneg p hp
  have h₂ := h.le p hp
  have h₃ := h.lt p hp
  exact Int.emod_eq_of_lt (by omega) (by omega)

/-- The steps of a run that goes on from zero. -/
theorem steps_join (h : AreRuns w rs) (hp : p ∈ rs) (hq : q ∈ rs) (hlt : q.2 < p.1) :
    steps w (p.1, q.2) = q.2 - p.1 + w.card := by
  have h₁ := h.nonneg q hq
  have h₂ := h.le q hq
  have h₃ := h.le p hp
  have h₄ := h.lt p hp
  unfold steps
  rw [sub_emod_of_lt (by omega) (by omega) (by omega) (by omega), if_neg (by omega)]

/-- Joining makes no run shorter. -/
theorem exists_mem_joinEnds (h : AreRuns w rs) (hp : p ∈ rs) :
    ∃ q ∈ joinEnds w.mask rs, steps w p ≤ steps w q := by
  have hmask := w.mask_add_one
  cases rs with
  | nil => exact absurd hp List.not_mem_nil
  | cons first more =>
    rcases List.eq_nil_or_concat' more with rfl | ⟨init, last, rfl⟩
    · exact ⟨p, hp, le_rfl⟩
    · rw [joinEnds_concat]
      split
      · rename_i hends
        have hfirst : first ∈ first :: (init ++ [last]) := List.mem_cons_self
        have hlast : last ∈ first :: (init ++ [last]) := by simp
        have hgap := (List.pairwise_cons.1 h.gaps).1 last (by simp)
        have hjoin := h.steps_join hlast hfirst (by omega)
        have h₁ := h.le first hfirst
        have h₂ := h.le last hlast
        rcases List.mem_cons.1 hp with rfl | hp
        · refine ⟨_, List.mem_cons_self, ?_⟩
          rw [hjoin, h.steps_eq hfirst]
          omega
        · rcases List.mem_append.1 hp with hp | hp
          · exact ⟨p, List.mem_cons_of_mem _ hp, le_rfl⟩
          · rw [List.mem_singleton.1 hp]
            refine ⟨_, List.mem_cons_self, ?_⟩
            rw [hjoin, h.steps_eq hlast]
            omega
      · exact ⟨p, hp, le_rfl⟩

/-- The run that ends at the greatest word goes on in the one that starts at zero. -/
theorem join_mem (h : AreRuns w rs) (hp : p ∈ rs) (hq : q ∈ rs) (hne : p ≠ q) (hend : p.2 = w.mask)
    (hstart : q.1 = 0) : q.2 < p.1 ∧ (p.1, q.2) ∈ joinEnds w.mask rs := by
  have hmask := w.mask_add_one
  cases rs with
  | nil => exact absurd hp List.not_mem_nil
  | cons first more =>
    -- No other run starts at zero, and none but the last one ends at the greatest word.
    obtain rfl : q = first := by
      rcases List.mem_cons.1 hq with rfl | hq'
      · rfl
      · have h₁ := (List.pairwise_cons.1 h.gaps).1 q hq'
        have h₂ := h.nonneg first List.mem_cons_self
        have h₃ := h.le first List.mem_cons_self
        omega
    have hp := (List.mem_cons.1 hp).resolve_left hne
    have hgap := (List.pairwise_cons.1 h.gaps).1 p hp
    rcases List.eq_nil_or_concat' more with rfl | ⟨init, last, rfl⟩
    · exact absurd hp List.not_mem_nil
    · obtain rfl : p = last := by
        rcases List.mem_append.1 hp with hp | hp
        · have hlast : last ∈ q :: (init ++ [last]) := by simp
          have h₁ :=
            (List.pairwise_append.1 h.gaps.of_cons).2.2 p hp last (List.mem_singleton_self _)
          have h₂ := h.le last hlast
          have h₃ := h.lt last hlast
          omega
        · exact List.mem_singleton.1 hp
      refine ⟨by omega, ?_⟩
      rw [joinEnds_concat, if_pos ⟨hend, hstart⟩]
      exact List.mem_cons_self

end AreRuns

/-! ## What a range can leave out -/

/-- The complement of a run that is not all has the words that are not of the run. -/
theorem natCast_size_of_steps (hp : IsListed w values p) {x : Nat} (hx : x < w.card)
    (hnot : (x : Int) ∉ values) :
    ((ofBounds w (p.2 + 1) p.1).size : Int) = w.card - steps w p - 1 := by
  have hc := w.two_le_card
  have hnn : 0 ≤ steps w p := Int.emod_nonneg _ (by omega)
  have hsub : (p.1 - (p.2 + 1)) % w.card = w.card - steps w p - 1 := sub_add_one_emod w p
  have hpart : steps w p ≠ w.card - 1 := by
    intro hall
    have hlt : ((x : Int) - p.1) % w.card < w.card := Int.emod_lt_of_pos _ (by omega)
    unfold steps at hall
    exact hnot (hp x hx (by omega))
  have hne : w.wrap (p.2 + 1) ≠ w.wrap p.1 := by
    intro heq
    rw [Width.wrap_eq_wrap, eq_comm, Int.emod_eq_emod_iff_emod_sub_eq_zero, hsub] at heq
    omega
  rw [natCast_size_ofBounds hne, hsub]

section Avoid

variable (hbound : ∀ v ∈ values, 0 ≤ v ∧ v < w.card)
include hbound

/-- The runs of the words to be avoided are the longest stretches of them, in order. -/
theorem areRuns_ascending : AreRuns w (runs (ascending values)) :=
  areRuns_runs (fun v hv ↦ hbound v (mem_ascending.1 hv)) (pairwise_ascending values)

/-- Listed neighbours lie within a run on the circle. -/
theorem exists_steps_of_listed (hlu : l ≤ u) (hmem : ∀ v, l ≤ v → v ≤ u → v ∈ values) :
    ∃ q ∈ joinEnds w.mask (runs (ascending values)), u - l ≤ steps w q := by
  have hruns := areRuns_ascending hbound
  obtain ⟨p, hp, hlo, hhi⟩ := exists_run (pairwise_ascending values) hlu
    fun v h₁ h₂ ↦ mem_ascending.2 (hmem v h₁ h₂)
  obtain ⟨q, hq, hle⟩ := hruns.exists_mem_joinEnds hp
  rw [hruns.steps_eq hp] at hle
  exact ⟨q, hq, by omega⟩

/-- So do listed neighbours on both sides of zero, if not all words are listed. -/
theorem exists_steps_of_listed_around (hu : 0 ≤ u) (hl : l < w.card)
    (hhigh : ∀ v, l ≤ v → v < w.card → v ∈ values) (hlow : ∀ v, 0 ≤ v → v ≤ u → v ∈ values)
    {x : Nat} (hx : x < w.card) (hnot : (x : Int) ∉ values) :
    ∃ q ∈ joinEnds w.mask (runs (ascending values)), u - l + w.card ≤ steps w q := by
  have hmask := w.mask_add_one
  have hruns := areRuns_ascending hbound
  obtain ⟨p, hp, hpl, hpm⟩ := exists_run (l := l) (u := w.mask) (pairwise_ascending values)
    (by omega) fun v h₁ h₂ ↦ mem_ascending.2 (hhigh v h₁ (by omega))
  obtain ⟨q, hq, hq0, huq⟩ := exists_run (pairwise_ascending values) hu
    fun v h₁ h₂ ↦ mem_ascending.2 (hlow v h₁ h₂)
  have hpend : p.2 = w.mask := by
    have := hruns.lt p hp
    omega
  have hqstart : q.1 = 0 := le_antisymm hq0 (hruns.nonneg q hq)
  have hne : p ≠ q := by
    rintro rfl
    exact hnot (mem_ascending.1 ((mem_of_mem_runs hp).2 x (by omega) (by omega)))
  obtain ⟨hlt, hjoin⟩ := hruns.join_mem hp hq hne hpend hqstart
  refine ⟨_, hjoin, ?_⟩
  rw [hruns.steps_join hp hq hlt]
  omega

/-- What a range leaves out lies within a run, if it has all words that are not listed. -/
theorem exists_steps_of_cover {c : Range} (hw : c.width = w) (hf : c.isFull = false)
    (hc : ∀ x < w.card, (x : Int) ∉ values → x ∈ c) {x : Nat} (hx : x < w.card)
    (hnot : (x : Int) ∉ values) :
    ∃ q ∈ joinEnds w.mask (runs (ascending values)), (w.card : Int) ≤ c.size + steps w q + 1 := by
  have hlisted (v : Int) (h₀ : 0 ≤ v) (hv : v < w.card) (hvc : v.toNat ∉ c) : v ∈ values := by
    by_contra hmem
    refine hvc (hc v.toNat (by omega) ?_)
    rwa [Int.toNat_of_nonneg h₀]
  have hl := c.lower_lt
  have hu := c.upper_lt
  have hsize := size_cases hf
  rw [hw] at hl hu hsize
  have he := not_isEmpty_of_mem (hc x hx hnot)
  by_cases hwrap : c.isWrapped = true
  · have hlt := isWrapped_iff.1 hwrap
    obtain ⟨q, hq, hle⟩ := exists_steps_of_listed hbound (l := c.upper) (u := (c.lower : Int) - 1)
      (by omega) fun v h₁ h₂ ↦ hlisted v (by omega) (by omega) (by
        rw [mem_iff_of_isWrapped hwrap]
        omega)
    exact ⟨q, hq, by omega⟩
  · have hplain : c.IsPlain := ⟨hf, he, by simpa using hwrap⟩
    have hlt := hplain.lower_lt_upper
    have hhigh (v : Int) (h₁ : c.upper ≤ v) (h₂ : v < w.card) : v ∈ values :=
      hlisted v (by omega) h₂ (by
        rw [hplain.mem_iff]
        omega)
    by_cases hzero : c.lower = 0
    · obtain ⟨q, hq, hle⟩ := exists_steps_of_listed hbound (l := c.upper) (u := (w.card : Int) - 1)
        (by omega) fun v h₁ h₂ ↦ hhigh v h₁ (by omega)
      exact ⟨q, hq, by omega⟩
    · obtain ⟨q, hq, hle⟩ := exists_steps_of_listed_around hbound (l := c.upper)
        (u := (c.lower : Int) - 1) (by omega) (by omega) hhigh
        (fun v h₁ h₂ ↦ hlisted v h₁ (by omega) (by
          rw [hplain.mem_iff]
          omega)) hx hnot
      exact ⟨q, hq, by omega⟩

/-- If every word is listed, nothing is left. -/
theorem avoid_eq_empty (hall : ∀ x < w.card, (x : Int) ∈ values) : avoid w values = empty w := by
  unfold avoid
  dsimp only
  rw [if_pos (length_ascending hbound hall)]

/-- No range that has all words that are not listed has fewer members. -/
theorem size_avoid_le {c : Range} (hw : c.width = w)
    (hc : ∀ x < w.card, (x : Int) ∉ values → x ∈ c) : (avoid w values).size ≤ c.size := by
  by_cases hall : ∀ x < w.card, (x : Int) ∈ values
  · rw [avoid_eq_empty hbound hall, size_empty]
    exact Nat.zero_le _
  · push Not at hall
    obtain ⟨x, hx, hnot⟩ := hall
    cases hf : c.isFull with
    | true =>
      have hle := (avoid w values).size_le_card
      rw [width_avoid] at hle
      rwa [size_of_isFull hf, hw]
    | false =>
      obtain ⟨q, hq, hsize⟩ := exists_steps_of_cover hbound hw hf hc hx hnot
      have hlen : (ascending values).length ≠ w.card := fun hlen ↦
        hnot (mem_of_length_ascending hbound hlen hx)
      unfold avoid
      dsimp only
      rw [if_neg hlen]
      cases hjoin : joinEnds w.mask (runs (ascending values)) with
      | nil => exact absurd (hjoin ▸ hq) List.not_mem_nil
      | cons run more =>
        dsimp only
        have hlongest := le_steps_longestRun (w := w) (hjoin ▸ hq)
        have hlisted := isListed_of_mem_runs hbound (hjoin ▸ longestRun_mem w.card run more)
        have heq := natCast_size_of_steps hlisted hx hnot
        omega

/-- No smaller range holds all words that are not listed. -/
theorem isSmallestCover_avoid :
    (avoid w values).IsSmallestCover {x | x < w.card ∧ (x : Int) ∉ values} := by
  refine .of_size_le (fun x hx ↦ mem_avoid hbound hx.1 hx.2) fun c hw hc ↦ ?_
  rw [width_avoid] at hw
  exact size_avoid_le hbound hw fun x hx hnot ↦ hc x ⟨hx, hnot⟩

/-- The range that avoids listed words of a width is a smallest range of that width around the
words that are not listed, and it is the empty range iff all words are listed. -/
theorem avoid_smallest :
    (avoid w values).width = w ∧
      (avoid w values).IsSmallestCover {x | x < w.card ∧ (x : Int) ∉ values} ∧
      (avoid w values = empty w ↔ ∀ x < w.card, (x : Int) ∈ values) := by
  refine ⟨width_avoid w values, isSmallestCover_avoid hbound, fun h x hx ↦ ?_,
    avoid_eq_empty hbound⟩
  by_contra hnot
  have hmem := mem_avoid hbound hx hnot
  rw [h] at hmem
  exact not_mem_empty hmem

end Avoid

/-- Two runs of three words, of which one goes past the greatest word; the first one found is that
of 254, 255 and 0, so that all but these are kept. -/
theorem avoid_smallest_around :
    (∀ v ∈ [255, 0, 9, 254, 7, 8, 0], (0 : Int) ≤ v ∧ v < byte.card) ∧
      (ofBounds byte 1 254).IsSmallestCover
        {x | x < byte.card ∧ (x : Int) ∉ ([255, 0, 9, 254, 7, 8, 0] : List Int)} := by
  have hbound : ∀ v ∈ ([255, 0, 9, 254, 7, 8, 0] : List Int), 0 ≤ v ∧ v < byte.card := by decide
  have heq : avoid byte [255, 0, 9, 254, 7, 8, 0] = ofBounds byte 1 254 := by cbv
  have hcover := (avoid_smallest hbound).2.1
  rw [heq] at hcover
  exact ⟨hbound, hcover⟩

end Range

end RangeFlow
