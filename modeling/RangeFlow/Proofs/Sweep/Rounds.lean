import Mathlib.Data.Finset.Card
import RangeFlow.Proofs.Sweep.Report
import Std.Internal.Do.WP.Lemmas

/-!
# Rounds come to an end

Once the permitted rounds have run, a round that changes something makes the range of one more id
full, and a full range stays.  So the full ranges at the start of a round bound the number of
rounds begun, and every range that grows from then on ends up full.
-/

namespace RangeFlow

namespace Sweep

variable {e : Env} {s t u : State} {b : Bool} {id : String}

/-- A round that reports a change. -/
def Changing (e : Env) (s t : State) : Prop := (round e).run s = .ok true t

/-- Some rounds, all of which report a change. -/
def Reaches (e : Env) : State → State → Prop := Relation.ReflTransGen (Changing e)

/-- A round ends in one way only. -/
theorem changing_unique (h : Changing e s t) (h' : Changing e s u) : t = u := by
  unfold Changing at h h'
  rw [h] at h'
  cases h'
  rfl

/-! ## One round -/

/-- A round sweeps over the functions with a body in their order. -/
theorem round_eq_ok :
    (round e).run s = .ok b t ↔
      (anyOf (sweepFunction e) e.defined).run (beginRound e s) = .ok b t := by
  simp only [round, run_bind_eq_ok, run_modify_eq_ok]
  constructor
  · rintro ⟨_, _, rfl, h⟩
    exact h
  · exact fun h ↦ ⟨⟨⟩, _, rfl, h⟩

/-- No range of the table loses a member in a round. -/
theorem round_grows (h : (round e).run s = .ok b t) :
    (beginRound e s).table.Grows (fun _ ↦ True) b t.table :=
  Reports.anyOf (fun f _ ↦ .sweepFunction e f) _ _ _ (round_eq_ok.1 h)

theorem round_frame (h : (round e).run s = .ok b t) :
    Frame (fun g ↦ ∃ f ∈ e.defined, f.name = g) (· ∈ e.updatedIds) (beginRound e s) t :=
  anyOf_frame (fun f hf _ _ _ hrun ↦
    (sweepFunction_frame (mem_functions_of_mem_defined hf) hrun).mono fun _ hg ↦ ⟨f, hf, hg.symm⟩)
    (round_eq_ok.1 h)

theorem iterations_of_round (h : (round e).run s = .ok b t) : t.iterations = s.iterations + 1 :=
  (round_frame h).iterations

/-- A round that reports no change leaves the table as it was at its start. -/
theorem table_of_round_false (h : (round e).run s = .ok false t) :
    t.table = (beginRound e s).table := (round_grows h).eq_of_false rfl

@[simp] theorem changes_beginRound (e : Env) (s : State) : (beginRound e s).table.changes = ∅ := rfl

@[simp] theorem ids_beginRound (e : Env) (s : State) :
    (beginRound e s).table.ids = s.table.ids := by
  unfold beginRound
  dsimp only
  split
  · exact RangeTable.ids_widen _ _
  · rfl

/-- What a round finds stored: what changed last is widened after the permitted rounds. -/
theorem get?_beginRound (e : Env) (s : State) (id : String) :
    (beginRound e s).table.get? id =
      if e.settings.maxIterations ≤ s.iterations ∧ id ∈ s.table.changes then
        (s.table.get? id).map fun r ↦ .full r.width
      else s.table.get? id := by
  unfold beginRound
  dsimp only
  by_cases h : e.settings.maxIterations < s.iterations + 1
  · have h' : e.settings.maxIterations ≤ s.iterations := by omega
    simp only [h, h', true_and, if_true]
    exact RangeTable.get?_widen _ _ _
  · have h' : ¬e.settings.maxIterations ≤ s.iterations := by omega
    simp only [h, h', false_and, if_false]
    rfl

/-- A full range is full at the start of the next round. -/
theorem get?_beginRound_of_full {w : Width} (h : s.table.get? id = some (.full w)) :
    (beginRound e s).table.get? id = some (.full w) := by
  rw [get?_beginRound, h]
  split <;> rfl

/-- A full range stays full over a round and to the start of the next. -/
theorem full_of_round {w : Width} (h : (round e).run s = .ok b t)
    (hs : (beginRound e s).table.get? id = some (.full w)) : t.table.get? id = some (.full w) :=
  (round_grows h).get?_of_isFull hs Range.isFull_full

/-- What changed in a round after the permitted ones, or was widened before it, is full at the
start of the next. -/
theorem get?_beginRound_of_changed {r : Range} (h : (round e).run s = .ok b t)
    (hM : e.settings.maxIterations ≤ t.iterations) (ht : t.table.get? id = some r)
    (hs : s.table.get? id ≠ some r) : (beginRound e t).table.get? id = some (.full r.width) := by
  by_cases hid : id ∈ t.table.changes
  · rw [get?_beginRound, if_pos ⟨hM, hid⟩, ht]
    rfl
  · -- The sweep left the range alone, so it was widened before it.
    have hkept := (round_grows h).get?_of_notMem_changes hid
    rw [ht, get?_beginRound] at hkept
    split at hkept
    · obtain ⟨r', -, hr'⟩ := Option.map_eq_some_iff.1 hkept.symm
      rw [← hr'] at ht ⊢
      exact get?_beginRound_of_full ht
    · exact absurd hkept.symm hs

/-! ## Counting rounds -/

/-- After the permitted rounds, each one that changes something makes one more range full. -/
theorem fullIds_ssubset (h : Changing e s t) (hM : e.settings.maxIterations ≤ t.iterations) :
    (beginRound e s).table.fullIds ⊂ (beginRound e t).table.fullIds := by
  have hg := round_grows h
  rw [Finset.ssubset_iff_of_subset]
  · obtain ⟨id, hid⟩ := hg.exists_mem_changes rfl
    have hmem : id ∈ t.table.ids := (hg.mem_ids_of_mem_changes hid).resolve_left (by simp)
    obtain ⟨r, hr⟩ := RangeTable.mem_ids_iff.1 hmem
    refine ⟨id, RangeTable.mem_fullIds.2 ⟨.full r.width, ?_, Range.isFull_full⟩, ?_⟩
    · rw [get?_beginRound, if_pos ⟨hM, hid⟩, hr]
      rfl
    · rw [RangeTable.mem_fullIds]
      rintro ⟨r', hr', hf⟩
      have hnot := (hg.mem_changes hid).resolve_left (by simp) r' hr'
      rw [hf] at hnot
      cases hnot
  · intro id hid
    obtain ⟨r, hr, hf⟩ := RangeTable.mem_fullIds.1 hid
    rw [Range.eq_full_of_isFull hf] at hr
    exact RangeTable.mem_fullIds.2
      ⟨_, get?_beginRound_of_full (full_of_round h hr), Range.isFull_full⟩

/-- The number of rounds begun is bounded by the full ranges. -/
def Bounded (e : Env) (s : State) : Prop :=
  s.iterations + 1 ≤ e.settings.maxIterations + (beginRound e s).table.fullIds.card

/-- The bound survives a round that reports a change. -/
theorem Bounded.changing (hs : Bounded e s) (h : Changing e s t) : Bounded e t := by
  have hiter := iterations_of_round h
  unfold Bounded at hs ⊢
  by_cases hM : e.settings.maxIterations ≤ t.iterations
  · have := Finset.card_lt_card (fullIds_ssubset h hM)
    omega
  · omega

/-- The ids of a table are those given and those that sweeps can update. -/
def Capped (e : Env) (ids : List String) (s : State) : Prop :=
  ∀ id ∈ s.table.ids, id ∈ ids ∨ id ∈ e.updatedIds

/-- No round brings an id that sweeps cannot update. -/
theorem Capped.changing {ids : List String} (hs : Capped e ids s) (h : Changing e s t) :
    Capped e ids t := by
  intro id hid
  obtain ⟨c, hc⟩ := (round_frame h).table
  rcases hc.mem_ids hid with hid | hid
  · rw [ids_beginRound] at hid
    exact hs id hid
  · exact .inr hid

theorem Capped.card_le {ids : List String} (hs : Capped e ids s) :
    (beginRound e s).table.fullIds.card ≤ ids.length + e.updatedIds.length := by
  have hsub : (beginRound e s).table.fullIds ⊆ (ids ++ e.updatedIds).toFinset := by
    intro id hid
    obtain ⟨r, hr, -⟩ := RangeTable.mem_fullIds.1 hid
    have hmem : id ∈ s.table.ids := by
      rw [← ids_beginRound e s]
      exact RangeTable.mem_ids_iff.2 ⟨r, hr⟩
    rw [List.mem_toFinset, List.mem_append]
    exact hs id hmem
  calc (beginRound e s).table.fullIds.card ≤ (ids ++ e.updatedIds).toFinset.card :=
        Finset.card_le_card hsub
    _ ≤ (ids ++ e.updatedIds).length := List.toFinset_card_le _
    _ = ids.length + e.updatedIds.length := List.length_append

/-! ## Whole runs -/

/-- The rounds end with one that reports no change. -/
theorem rounds_of_false (n : Nat) (h : (round e).run s = .ok false t) :
    ∃ l, (rounds e (n + 1)).run s = .ok l t := by
  refine ⟨[⟨t.table.changes.toList, t.table⟩], ?_⟩
  simp only [rounds, run_bind_eq_ok, run_get_eq_ok]
  exact ⟨false, t, h, t, t, ⟨rfl, rfl⟩, by simp⟩

/-- After a round that reports a change the rounds go on. -/
theorem rounds_of_changing {n : Nat} {l : List Round} (h : Changing e s t)
    (hrest : (rounds e n).run t = .ok l u) : ∃ l', (rounds e (n + 1)).run s = .ok l' u := by
  refine ⟨⟨t.table.changes.toList, t.table⟩ :: l, ?_⟩
  simp only [rounds, run_bind_eq_ok, run_get_eq_ok]
  refine ⟨true, t, h, t, t, ⟨rfl, rfl⟩, ?_⟩
  simp only [if_true, run_bind_eq_ok, run_pure_eq_ok]
  exact ⟨l, u, hrest, rfl, rfl⟩

/-- Rounds that come to an end do so if more of them are permitted. -/
theorem rounds_mono {n k : Nat} (hnk : n ≤ k) {l : List Round} (h : (rounds e n).run s = .ok l t) :
    (rounds e k).run s = .ok l t := by
  induction n generalizing k s l t with
  | zero => simp [rounds] at h
  | succ n ih =>
    obtain ⟨k, rfl⟩ := Nat.exists_eq_succ_of_ne_zero (Nat.ne_zero_of_lt hnk)
    simp only [rounds, run_bind_eq_ok, run_get_eq_ok] at h ⊢
    obtain ⟨b, v, hv, _, _, ⟨rfl, rfl⟩, h⟩ := h
    refine ⟨b, v, hv, v, v, ⟨rfl, rfl⟩, ?_⟩
    cases b with
    | false => exact h
    | true =>
      simp only [if_true, run_bind_eq_ok, run_pure_eq_ok] at h ⊢
      obtain ⟨l', u, hl, hsome⟩ := h
      exact ⟨l', u, ih (Nat.le_of_succ_le_succ hnk) hl, hsome⟩

/-- Rounds that come to an end are some that report a change, and one that does not. -/
theorem exists_last_of_rounds {n : Nat} {l : List Round} (h : (rounds e n).run s = .ok l t) :
    ∃ last, Reaches e s last ∧ (round e).run last = .ok false t := by
  induction n generalizing s l with
  | zero => simp [rounds] at h
  | succ n ih =>
    simp only [rounds, run_bind_eq_ok, run_get_eq_ok] at h
    obtain ⟨b, v, hv, _, _, ⟨rfl, rfl⟩, h⟩ := h
    cases b with
    | false =>
      simp only [Bool.false_eq_true, if_false, run_pure_eq_ok] at h
      obtain ⟨-, rfl⟩ := h
      exact ⟨s, .refl, hv⟩
    | true =>
      simp only [if_true, run_bind_eq_ok, run_pure_eq_ok] at h
      obtain ⟨l', _, hl, -, rfl⟩ := h
      obtain ⟨last, hlast, hstop⟩ := ih hl
      exact ⟨last, .head hv hlast, hstop⟩

/-- Rounds that do not fail end before their permitted number is used up. -/
theorem exists_rounds_eq_ok {ids : List String} {n : Nat} (hb : Bounded e s) (hc : Capped e ids s)
    (hn : e.settings.maxIterations + (ids.length + e.updatedIds.length) + 1 ≤ n + s.iterations)
    (hok : ∀ t, Reaches e s t → ∃ b u, (round e).run t = .ok b u) :
    ∃ l last t, (rounds e n).run s = .ok l t ∧ Reaches e s last ∧
      (round e).run last = .ok false t := by
  induction n generalizing s with
  | zero =>
    have hle := hc.card_le
    unfold Bounded at hb
    omega
  | succ n ih =>
    obtain ⟨b, t, ht⟩ := hok s .refl
    cases b with
    | false =>
      obtain ⟨l, hl⟩ := rounds_of_false n ht
      exact ⟨l, s, t, hl, .refl, ht⟩
    | true =>
      have hiter := iterations_of_round ht
      obtain ⟨l, last, u, hl, hlast, hu⟩ := ih (hb.changing ht) (hc.changing ht) (by omega)
        fun v hv ↦ hok v (.head ht hv)
      obtain ⟨l', hl'⟩ := rounds_of_changing ht hl
      exact ⟨l', last, u, hl', .head ht hlast, hu⟩

theorem Reaches.bounded (h : Reaches e s t) (hs : Bounded e s) : Bounded e t := by
  induction h with
  | refl => exact hs
  | tail _ hstep ih => exact ih.changing hstep

/-- A range that is full at the start of a round is full at the start of all that follow. -/
theorem Reaches.get?_of_full {w : Width} (h : Reaches e s t)
    (hs : (beginRound e s).table.get? id = some (.full w)) :
    (beginRound e t).table.get? id = some (.full w) := by
  induction h with
  | refl => exact hs
  | tail _ hstep ih => exact get?_beginRound_of_full (full_of_round hstep ih)

/-- No round is left after one that reports no change. -/
theorem Reaches.eq_of_stop (h : Reaches e s t) (hstop : (round e).run s = .ok false u) :
    t = s := by
  rcases Relation.ReflTransGen.cases_head h with rfl | ⟨v, hv, -⟩
  · rfl
  · unfold Changing at hv
    rw [hstop] at hv
    cases hv

/-- The rounds of a run are those up to the first that reports no change. -/
theorem Reaches.of_last {last : State} (hlast : Reaches e s last)
    (hstop : (round e).run last = .ok false u) (h : Reaches e s t) : Reaches e t last := by
  have hunique : Relator.RightUnique (Changing e) := fun _ _ _ ↦ changing_unique
  rcases Relation.ReflTransGen.total_of_right_unique hunique h hlast with h | h
  · exact h
  · rw [Reaches.eq_of_stop h hstop]
    exact .refl

theorem seed_frame {a : Unit} (h : (seed e).run s = .ok a t) :
    Frame (fun _ ↦ True) (fun _ ↦ True) s t := by
  refine forM_frame (fun leaf _ s t x hx ↦ ?_) h
  simp only [run_bind_eq_ok, run_ofExcept_eq_ok, run_pure_eq_ok] at hx
  obtain ⟨_, _, ⟨-, rfl⟩, _, _, hoffer, -, rfl⟩ := hx
  exact offer_frame ⟨⟩ hoffer

/-- A run seeds the table and then makes as many rounds as the seeded table permits. -/
theorem run_eq_ok {h : History} :
    (run e).run s = .ok h t ↔ ∃ s₀, (seed e).run s = .ok () s₀ ∧ h.seeded = s₀.table ∧
      (rounds e (e.roundLimit s₀.table)).run s₀ = .ok h.rounds t := by
  simp only [run, run_bind_eq_ok, run_get_eq_ok, run_pure_eq_ok]
  constructor
  · rintro ⟨_, s₀, hseed, _, _, ⟨rfl, rfl⟩, l, _, hl, rfl, rfl⟩
    exact ⟨s₀, hseed, rfl, hl⟩
  · rintro ⟨s₀, hseed, hs, hl⟩
    exact ⟨⟨⟩, s₀, hseed, s₀, s₀, ⟨rfl, rfl⟩, h.rounds, t, hl, by rw [← hs], rfl⟩

/-- If no sweep fails, a run stops.  It begins at most as many rounds as are permitted and as the
final table has ids, and what changes in the last permitted round or later is full in the end. -/
theorem run_stops {mode : WarningMode} {s₀ : State}
    (hseed : (seed e).run (.start e.settings mode) = .ok () s₀)
    (hok : ∀ t, Reaches e s₀ t → ∃ b u, (round e).run t = .ok b u) :
    ∃ h s', (run e).run (.start e.settings mode) = .ok h s' ∧
      s'.iterations ≤ e.settings.maxIterations + s'.table.size ∧
      ∀ t b u, Reaches e s₀ t → (round e).run t = .ok b u →
        e.settings.maxIterations ≤ u.iterations → ∀ id r, u.table.get? id = some r →
          t.table.get? id ≠ some r → s'.table.get? id = some (.full r.width) := by
  have hM := e.settings.one_le
  have hzero : s₀.iterations = 0 := (seed_frame hseed).iterations
  have hb : Bounded e s₀ := by
    unfold Bounded
    omega
  have hlen : s₀.table.ids.length = s₀.table.size := List.length_map _
  obtain ⟨l, last, s', hl, hlast, hs'⟩ := exists_rounds_eq_ok (n := e.roundLimit s₀.table) hb
    (fun id hid ↦ .inl hid : Capped e s₀.table.ids s₀) (by unfold Env.roundLimit; omega) hok
  refine ⟨⟨s₀.table, l⟩, s', run_eq_ok.2 ⟨s₀, hseed, rfl, hl⟩, ?_, ?_⟩
  · calc s'.iterations = last.iterations + 1 := iterations_of_round hs'
      _ ≤ e.settings.maxIterations + (beginRound e last).table.fullIds.card :=
        hlast.bounded hb
      _ = e.settings.maxIterations + s'.table.fullIds.card := by rw [table_of_round_false hs']
      _ ≤ e.settings.maxIterations + s'.table.size :=
        Nat.add_le_add_left s'.table.card_fullIds_le _
  · intro t b u ht hu hM id r hr hne
    have hfull := get?_beginRound_of_changed hu hM hr hne
    cases b with
    | true =>
      rw [table_of_round_false hs']
      exact (hlast.of_last hs' (ht.tail hu)).get?_of_full hfull
    | false =>
      -- The round is the last one, and nothing changed in it.
      obtain rfl : last = t := (hlast.of_last hs' ht).eq_of_stop hu
      obtain rfl : u = s' := by
        rw [hu] at hs'
        cases hs'
        rfl
      have hnone : id ∉ u.table.changes := by simp [table_of_round_false hu]
      rwa [get?_beginRound, if_neg fun h ↦ hnone h.2] at hfull

/-- No round of a run that comes to an end has failed. -/
theorem Reaches.exists_round {last : State} (hlast : Reaches e s last)
    (hstop : (round e).run last = .ok false u) (h : Reaches e s t) :
    ∃ b v, (round e).run t = .ok b v := by
  rcases Relation.ReflTransGen.cases_head (hlast.of_last hstop h) with rfl | ⟨v, hv, -⟩
  · exact ⟨false, u, hstop⟩
  · exact ⟨true, v, hv⟩

open Width (byte)

/-- One function calls itself with the next number, another one starts it at zero. -/
def countingProgram : Program where
  structs := []
  globals := []
  functions := [
    { name := "f"
      params := [⟨"x", .int byte⟩]
      returns := .int byte
      isVararg := false
      blocks := [⟨"entry", [
        ⟨.assign "y" (.binary .add (.int byte) (.var "x" (.int byte)) (.literal 1 byte)), 1⟩,
        ⟨.assign "r" (.call ⟨.int byte, .direct "f", [.var "y" (.int byte)]⟩), 2⟩,
        ⟨.finish (.ret (.int byte) (.var "x" (.int byte))), 3⟩]⟩] },
    { name := "g"
      params := []
      returns := .int byte
      isVararg := false
      blocks := [⟨"entry", [
        ⟨.assign "r" (.call ⟨.int byte, .direct "f", [.literal 0 byte]⟩), 4⟩,
        ⟨.finish (.ret (.int byte) (.var "r" (.int byte))), 5⟩]⟩] }]

/-- Two rounds are permitted, and no value comes from outside. -/
def countingEnv : Env := .ofProgram countingProgram ⟨2, none, [], by decide⟩

def countingStart : State := .start countingEnv.settings .always

theorem exists_run_counting : ∃ h s', (run countingEnv).run countingStart = .ok h s' := by
  have hok : (match (run countingEnv).run countingStart with
      | .ok _ _ => true
      | .error _ _ => false) = true := by cbv
  cases hrun : (run countingEnv).run countingStart with
  | ok h s' => exact ⟨h, s', rfl⟩
  | error x s' => simp [hrun] at hok

/-- The count of the first function grows in each round, and still the run stops. -/
theorem run_stops_counting :
    ((seed countingEnv).run countingStart = .ok () countingStart ∧
      ∀ t, Reaches countingEnv countingStart t → ∃ b u, (round countingEnv).run t = .ok b u) ∧
    ∃ h s', (run countingEnv).run countingStart = .ok h s' ∧ s'.iterations ≤ 2 + s'.table.size := by
  have hseed : (seed countingEnv).run countingStart = .ok () countingStart := rfl
  have hok : ∀ t, Reaches countingEnv countingStart t →
      ∃ b u, (round countingEnv).run t = .ok b u := by
    intro t ht
    obtain ⟨h, s', hrun⟩ := exists_run_counting
    obtain ⟨s₀, hs₀, -, hrounds⟩ := run_eq_ok.1 hrun
    rw [hseed] at hs₀
    cases hs₀
    obtain ⟨last, hlast, hstop⟩ := exists_last_of_rounds hrounds
    exact hlast.exists_round hstop ht
  obtain ⟨h, s', hrun, hle, -⟩ := run_stops hseed hok
  exact ⟨⟨hseed, hok⟩, h, s', hrun, hle⟩

end Sweep

end RangeFlow
