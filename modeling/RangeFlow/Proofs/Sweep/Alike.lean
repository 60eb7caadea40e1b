import RangeFlow.Proofs.Sweep.Rounds

/-!
# Sweeps on states that look alike

A sweep over a function reads the table, the facts of that function and, to decide whether a
warning ends the run, the mode of the log.  On two states with these in common it gives the same
result and leaves them in common.  The facts of a function are set up anew by its sweep, so what
they were before does not matter.
-/

namespace RangeFlow

namespace Log

/-- Whether a warning ends the run depends on the mode only. -/
theorem exists_warn_of_mode {log log' log₁ : Log} {n : Notice} (hm : log.mode = log'.mode)
    (h : log.warn n = .ok log₁) : ∃ log₂, log'.warn n = .ok log₂ := by
  unfold warn at h ⊢
  rw [← hm]
  cases hmode : log.mode with
  | always => exact ⟨_, rfl⟩
  | once => exact ⟨_, rfl⟩
  | silent => exact ⟨_, rfl⟩
  | strict => simp [hmode] at h

/-- Whether a warning about widths ends the run depends on the mode of the log only. -/
theorem exists_compare_of_mode {log log' log₁ : Log} {first second : Range}
    (hm : log.mode = log'.mode) (h : log.compare first second = .ok log₁) :
    ∃ log₂, log'.compare first second = .ok log₂ := by
  unfold compare at h ⊢
  cases hn : first.mismatch? second with
  | none => exact ⟨log', rfl⟩
  | some n =>
    simp only [hn] at h ⊢
    split at h
    · rename_i hwritable
      cases hwarn : log.warn n with
      | error x => simp [hwarn, Except.mapError] at h
      | ok log₂ =>
        obtain ⟨log₂', hwarn'⟩ := exists_warn_of_mode hm hwarn
        exact ⟨log₂', by rw [if_pos hwritable, hwarn']; rfl⟩
    · cases h

/-- Whether a joined range is logged without a failure depends on the mode of the log only. -/
theorem exists_noteJoin_of_mode {log log' log₁ : Log} {stored : Option Range} {r : Range}
    (hm : log.mode = log'.mode) (h : log.noteJoin stored r = .ok log₁) :
    ∃ log₂, log'.noteJoin stored r = .ok log₂ := by
  unfold noteJoin at h ⊢
  cases stored with
  | none => exact ⟨log', rfl⟩
  | some old =>
    dsimp only at h ⊢
    by_cases hr : r.isEmpty = true
    · exact ⟨log', if_pos hr⟩
    · rw [if_neg hr] at h ⊢
      exact exists_compare_of_mode hm h

end Log

/-- Whether an update is logged without a failure depends on the mode of the log only. -/
theorem RangeTable.exists_logUpdate_of_mode {ι : Type} [DecidableEq ι] [Labelled ι]
    {t : RangeTable ι} {log log' log₁ : Log} {id : ι} {r : Range} {origin : Option Origin}
    (hm : log.mode = log'.mode) (h : t.logUpdate log id r origin = .ok log₁) :
    ∃ log₂, t.logUpdate log' id r origin = .ok log₂ := by
  unfold logUpdate at h ⊢
  cases hn : log.noteJoin (t.get? id) r with
  | error x => simp [hn, bind, Except.bind] at h
  | ok log₂ =>
    obtain ⟨log₂', hn'⟩ := Log.exists_noteJoin_of_mode hm hn
    simp only [hn, hn', bind, Except.bind] at h ⊢
    by_cases hwatch : (r.isEmpty || decide (t.watch ≠ some id)) = true
    · exact ⟨log₂', if_pos hwatch⟩
    · rw [if_neg hwatch] at h ⊢
      by_cases hc : t.canTrace id r origin = true
      · exact ⟨_, if_pos hc⟩
      · rw [if_neg hc] at h
        cases h

namespace Sweep

variable {α : Type} {e : Env} {f : Function} {names : String → Prop} {s t s₁ t₁ : State}
variable {l : String}

/-- States with the same table, logs of the same mode, and the same facts of some functions. -/
structure Alike (names : String → Prop) (s t : State) : Prop where
  table : s.table = t.table
  mode : s.log.mode = t.log.mode
  facts : ∀ g, names g → s.facts.get? g = t.facts.get? g

namespace Alike

/-- States that look alike have the same facts of the functions in question. -/
theorem blockFacts_eq (h : Alike names s t) (hf : names f.name) :
    s.blockFacts f.name l = t.blockFacts f.name l := by
  unfold State.blockFacts
  rw [h.facts f.name hf]

theorem setLog (h : Alike names s t) {log log' : Log} (hm : log.mode = log'.mode) :
    Alike names { s with log := log } { t with log := log' } := ⟨h.table, hm, h.facts⟩

/-- After the same change of facts states still look alike. -/
theorem setBlockFacts (h : Alike names s t) (m : Facts) :
    Alike names (s.setBlockFacts f.name l m) (t.setBlockFacts f.name l m) := by
  refine ⟨h.table, h.mode, fun g hg ↦ ?_⟩
  unfold State.setBlockFacts
  rw [OrderedMap.get?_modify, OrderedMap.get?_modify, h.facts g hg]

theorem afterRead (h : Alike names s t) (hf : names f.name) (x : String) (r : Range) :
    Alike names (s.afterRead f l x r) (t.afterRead f l x r) := by
  unfold State.afterRead
  rw [h.blockFacts_eq hf]
  split
  · exact h
  · exact h.setBlockFacts _

theorem afterJoin (h : Alike names s t) (hf : names f.name) (subject : Subject) (r : Range) :
    Alike names (s.afterJoin f l subject r) (t.afterJoin f l subject r) := by
  unfold State.afterJoin
  rw [h.blockFacts_eq hf]
  dsimp only
  split
  · exact h.setBlockFacts _
  · exact h

end Alike

/-- A part of a sweep that does the same on states that look alike. -/
def RunsAlike (names : String → Prop) (m : SweepM α) : Prop :=
  ∀ s t a s₁, Alike names s t → m.run s = .ok a s₁ → ∃ t₁, m.run t = .ok a t₁ ∧ Alike names s₁ t₁

namespace RunsAlike

theorem pure (a : α) : RunsAlike names (pure a) := by
  intro s t b s₁ h hrun
  obtain ⟨rfl, rfl⟩ := run_pure_eq_ok.1 hrun
  exact ⟨t, run_pure_eq_ok.2 ⟨rfl, rfl⟩, h⟩

/-- Parts one after the other do the same if each does. -/
theorem bind {β : Type} {m : SweepM α} {k : α → SweepM β} (hm : RunsAlike names m)
    (hk : ∀ a, RunsAlike names (k a)) : RunsAlike names (m >>= k) := by
  intro s t b s₁ h hrun
  obtain ⟨a, s₂, hs₂, hs₁⟩ := run_bind_eq_ok.1 hrun
  obtain ⟨t₂, ht₂, h₂⟩ := hm s t a s₂ h hs₂
  obtain ⟨t₁, ht₁, h₁⟩ := hk a s₂ t₂ b s₁ h₂ hs₁
  exact ⟨t₁, run_bind_eq_ok.2 ⟨a, t₂, ht₂, ht₁⟩, h₁⟩

theorem anyOf {act : α → SweepM Bool} {as : List α} (h : ∀ a ∈ as, RunsAlike names (act a)) :
    RunsAlike names (anyOf act as) := by
  induction as with
  | nil => exact pure false
  | cons a as ih =>
    exact bind (h a List.mem_cons_self) fun _ ↦
      bind (ih fun b hb ↦ h b (List.mem_cons_of_mem a hb)) fun _ ↦ pure _

theorem forM {act : α → SweepM PUnit} {as : List α} (h : ∀ a ∈ as, RunsAlike names (act a)) :
    RunsAlike names (as.forM act) := by
  induction as with
  | nil => exact pure _
  | cons a as ih =>
    exact bind (h a List.mem_cons_self) fun _ ↦ ih fun b hb ↦ h b (List.mem_cons_of_mem a hb)

theorem rangeOf (hf : names f.name) (o : Operand) : RunsAlike names (rangeOf e f l o) := by
  intro s t r s₁ h hrun
  cases o with
  | literal v w =>
    obtain ⟨hw, rfl, rfl⟩ := run_rangeOf_literal_eq_ok.1 hrun
    exact ⟨t, run_rangeOf_literal_eq_ok.2 ⟨hw, rfl, rfl⟩, h⟩
  | symbol name => simp [Sweep.rangeOf] at hrun
  | var x ty =>
    obtain ⟨w, hw, ⟨hr, rfl⟩ | ⟨hr, hc, ids, hids, rfl, rfl⟩⟩ := run_rangeOf_var_eq_ok.1 hrun
    · rw [h.blockFacts_eq hf] at hr
      exact ⟨t, run_rangeOf_var_eq_ok.2 ⟨w, hw, .inl ⟨hr, rfl⟩⟩, h⟩
    · rw [h.blockFacts_eq hf] at hr
      rw [h.table]
      exact ⟨_, run_rangeOf_var_eq_ok.2 ⟨w, hw, .inr ⟨hr, hc, ids, hids, rfl, rfl⟩⟩,
        h.afterRead hf x _⟩

theorem conformed (first second : Range) : RunsAlike names (conformed first second) := by
  intro s t r s₁ h hrun
  obtain ⟨log, hlog, rfl, rfl⟩ := run_conformed_eq_ok.1 hrun
  obtain ⟨log', hlog'⟩ := Log.exists_compare_of_mode h.mode hlog
  refine ⟨_, run_conformed_eq_ok.2 ⟨log', hlog', rfl, rfl⟩, h.setLog ?_⟩
  rw [Log.mode_compare hlog, Log.mode_compare hlog', h.mode]

theorem joinFact (hf : names f.name) (subject : Subject) (r : Range) :
    RunsAlike names (joinFact f l subject r) := by
  intro s t b s₁ h hrun
  obtain ⟨log, hlog, rfl, rfl⟩ := run_joinFact_eq_ok.1 hrun
  rw [h.blockFacts_eq hf] at hlog ⊢
  obtain ⟨log', hlog'⟩ := Log.exists_noteJoin_of_mode h.mode hlog
  refine ⟨_, run_joinFact_eq_ok.2 ⟨log', hlog', rfl, rfl⟩, (h.afterJoin hf subject r).setLog ?_⟩
  rw [Log.mode_noteJoin hlog, Log.mode_noteJoin hlog', h.mode]

/-- What depends on the facts of a block does the same. -/
theorem facts (hf : names f.name) {k : Facts → SweepM α} (hk : ∀ m, RunsAlike names (k m)) :
    RunsAlike names (do k ((← get).blockFacts f.name l)) := by
  intro s t a s₁ h hrun
  obtain ⟨_, _, hget, hs₁⟩ := run_bind_eq_ok.1 hrun
  obtain ⟨rfl, rfl⟩ := run_get_eq_ok.1 hget
  rw [h.blockFacts_eq hf] at hs₁
  obtain ⟨t₁, ht₁, h₁⟩ := hk _ s t a s₁ h hs₁
  exact ⟨t₁, run_bind_eq_ok.2 ⟨t, t, run_get_eq_ok.2 ⟨rfl, rfl⟩, ht₁⟩, h₁⟩

theorem joinFacts (hf : names f.name) (m : Facts) : RunsAlike names (joinFacts f l m) := by
  refine facts hf (k := fun own ↦ if own.size = 0 then
      modify fun s ↦ s.setBlockFacts f.name l (m.filter fun e ↦ !e.2.isEmpty)
    else m.entries.forM fun e ↦ do
      let _ ← Sweep.joinFact f l e.1 e.2) fun own ↦ ?_
  split
  · intro s t a s₁ h hrun
    rw [← run_modify_eq_ok.1 hrun]
    exact ⟨_, run_modify_eq_ok.2 rfl, h.setBlockFacts _⟩
  · exact forM fun _ _ ↦ bind (joinFact hf _ _) fun _ ↦ pure _

theorem offer (id : String) (r : Range) (origin : Option Origin) :
    RunsAlike names (offer id r origin) := by
  intro s t b s₁ h hrun
  obtain ⟨log, hlog, rfl, rfl⟩ := run_offer_eq_ok.1 hrun
  rw [h.table] at hlog ⊢
  obtain ⟨log', hlog'⟩ := RangeTable.exists_logUpdate_of_mode h.mode hlog
  refine ⟨_, run_offer_eq_ok.2 ⟨log', hlog', rfl, rfl⟩, rfl, ?_, h.facts⟩
  have hm := RangeTable.mode_logUpdate hlog
  have hm' := RangeTable.mode_logUpdate hlog'
  exact hm.trans (h.mode.trans hm'.symm)

end RunsAlike

/-- A part of a sweep over a function looks at the table and at the facts of this function only. -/
theorem Composed.runsAlike {label : String} {ids : String → Prop} {reads : Operand → Prop}
    {m : SweepM α} (h : Composed e f label ids reads m) (hf : names f.name) :
    RunsAlike names m := by
  induction h with
  | pure a => exact .pure a
  | throw x =>
    intro s t a s₁ _ hrun
    simp at hrun
  | bind _ _ ihm ihk => exact .bind ihm ihk
  | read l _ => exact .rangeOf hf _
  | conform first second => exact .conformed first second
  | join subject r => exact .joinFact hf subject r
  | joinAll m => exact .joinFacts hf m
  | facts l _ ih => exact .facts hf ih
  | offer r origin _ => exact .offer _ r origin

/-- After a sweep over a function its facts are alike too. -/
theorem sweepFunction_alike (hf : f ∈ e.program.functions) (h : Alike names s t) {b : Bool}
    (hrun : (sweepFunction e f).run s = .ok b s₁) :
    ∃ t₁, (sweepFunction e f).run t = .ok b t₁ ∧ Alike (fun g ↦ names g ∨ g = f.name) s₁ t₁ := by
  obtain ⟨loops, g, hloops, hg, hrun⟩ := sweepFunction_eq_ok.1 hrun
  have hblocks : RunsAlike (fun g ↦ names g ∨ g = f.name)
      (anyOf (sweepBlock e f g loops) f.blocks) :=
    .anyOf fun b hb ↦ (Composed.sweepBlock (.trivial f) hf (fun _ ↦ id) g loops hb).runsAlike
      (.inr rfl)
  have hbegin : Alike (fun g ↦ names g ∨ g = f.name) (beginFunction f s) (beginFunction f t) := by
    refine ⟨h.table, h.mode, fun n hn ↦ ?_⟩
    unfold beginFunction
    dsimp only
    rw [OrderedMap.get?_insert, OrderedMap.get?_insert]
    split
    · rfl
    · rename_i hne
      exact h.facts n (hn.resolve_right hne)
  obtain ⟨t₁, ht₁, h₁⟩ := hblocks _ _ b s₁ hbegin hrun
  exact ⟨t₁, sweepFunction_eq_ok.2 ⟨loops, g, hloops, hg, ht₁⟩, h₁⟩

/-- Sweeps over some functions make the facts of these alike too. -/
theorem sweepFunctions_alike {fs : List Function} (hfs : ∀ f ∈ fs, f ∈ e.program.functions)
    (h : Alike names s t) {b : Bool} (hrun : (anyOf (sweepFunction e) fs).run s = .ok b s₁) :
    ∃ t₁, (anyOf (sweepFunction e) fs).run t = .ok b t₁ ∧
      Alike (fun g ↦ names g ∨ ∃ f ∈ fs, f.name = g) s₁ t₁ := by
  induction fs generalizing names s t b with
  | nil =>
    obtain ⟨rfl, rfl⟩ := run_pure_eq_ok.1 hrun
    exact ⟨t, run_pure_eq_ok.2 ⟨rfl, rfl⟩, by simpa using h⟩
  | cons f fs ih =>
    obtain ⟨b₁, s₂, b₂, hs₂, hs₁, rfl⟩ := run_anyOf_cons_eq_ok.1 hrun
    obtain ⟨t₂, ht₂, h₂⟩ := sweepFunction_alike (hfs f List.mem_cons_self) h hs₂
    obtain ⟨t₁, ht₁, h₁⟩ := ih (fun g hg ↦ hfs g (List.mem_cons_of_mem f hg)) h₂ hs₁
    refine ⟨t₁, run_anyOf_cons_eq_ok.2 ⟨b₁, t₂, b₂, ht₂, ht₁, rfl⟩, h₁.table, h₁.mode, ?_⟩
    intro g hg
    refine h₁.facts g ?_
    rcases hg with hg | ⟨f', hf', rfl⟩
    · exact .inl (.inl hg)
    · rcases List.mem_cons.1 hf' with rfl | hf'
      · exact .inl (.inr rfl)
      · exact .inr ⟨f', hf', rfl⟩

end Sweep

end RangeFlow
