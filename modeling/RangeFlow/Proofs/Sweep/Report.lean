import RangeFlow.Proofs.Sweep.Composed
import RangeFlow.Proofs.Table.Growth

/-!
# What the parts of a sweep change and report

A part of a sweep over a function leaves the facts of other functions, the number of rounds and the
mode of the log as they are (`Frame`), and what it reports is whether the table grew (`Reports`).
-/

namespace RangeFlow

namespace Log

/-- A warning about widths leaves the mode as it is. -/
theorem mode_compare {log log' : Log} {first second : Range}
    (h : log.compare first second = .ok log') : log'.mode = log.mode := by
  unfold compare at h
  split at h
  · split at h
    · unfold warn at h
      cases hm : log.mode with
      | always =>
        simp only [hm, Except.mapError] at h
        cases h
        rfl
      | once =>
        simp only [hm, Except.mapError] at h
        cases h
        split
        · exact hm
        · rfl
      | silent =>
        simp only [hm, Except.mapError] at h
        cases h
        exact hm
      | strict => simp [hm, Except.mapError] at h
    · cases h
  · cases h
    rfl

/-- A note about a joined range leaves the mode as it is. -/
theorem mode_noteJoin {log log' : Log} {stored : Option Range} {r : Range}
    (h : log.noteJoin stored r = .ok log') : log'.mode = log.mode := by
  unfold noteJoin at h
  split at h
  · split at h
    · cases h
      rfl
    · exact mode_compare h
  · cases h
    rfl

end Log

namespace RangeTable

variable {ι : Type} [DecidableEq ι] [Labelled ι]

/-- A note about an update leaves the mode as it is. -/
theorem mode_logUpdate {t : RangeTable ι} {log log' : Log} {id : ι} {r : Range}
    {origin : Option Origin} (h : t.logUpdate log id r origin = .ok log') :
    log'.mode = log.mode := by
  unfold logUpdate at h
  cases hn : log.noteJoin (t.get? id) r with
  | error x => simp [hn, bind, Except.bind] at h
  | ok log₁ =>
    simp only [hn, bind, Except.bind] at h
    rw [← Log.mode_noteJoin hn]
    split at h
    · cases h
      rfl
    · split at h
      · cases h
        rfl
      · cases h

end RangeTable

namespace Sweep

variable {α β : Type} {e : Env} {f : Function} {label : String} {ids : String → Prop}
variable {names : String → Prop} {reads : Operand → Prop} {s t u : State}

/-! ## What is left as it is -/

/-- A change of state that a sweep over some functions can make. -/
structure Frame (names ids : String → Prop) (s t : State) : Prop where
  iterations : t.iterations = s.iterations
  mode : t.log.mode = s.log.mode
  facts : ∀ g, ¬names g → t.facts.get? g = s.facts.get? g
  keys : ∃ new, t.facts.keys = s.facts.keys ++ new ∧ ∀ g ∈ new, names g ∧ g ∉ s.facts.keys
  table : ∃ b, s.table.Grows ids b t.table

namespace Frame

theorem of_facts_eq (hi : t.iterations = s.iterations) (hm : t.log.mode = s.log.mode)
    (hf : t.facts = s.facts) (ht : ∃ b, s.table.Grows ids b t.table) : Frame names ids s t :=
  ⟨hi, hm, fun _ _ ↦ by rw [hf], ⟨[], by simp [hf]⟩, ht⟩

theorem refl (s : State) : Frame names ids s s := of_facts_eq rfl rfl rfl ⟨_, .refl _⟩

theorem trans (h : Frame names ids s t) (h' : Frame names ids t u) : Frame names ids s u := by
  obtain ⟨b, hb⟩ := h.table
  obtain ⟨c, hc⟩ := h'.table
  obtain ⟨l, hl, hnew⟩ := h.keys
  obtain ⟨l', hl', hnew'⟩ := h'.keys
  refine ⟨h'.iterations.trans h.iterations, h'.mode.trans h.mode,
    fun g hg ↦ (h'.facts g hg).trans (h.facts g hg), ⟨l ++ l', ?_, ?_⟩, _, hb.trans hc⟩
  · rw [hl', hl, List.append_assoc]
  · intro g hg
    rcases List.mem_append.1 hg with hg | hg
    · exact hnew g hg
    · obtain ⟨hname, hkey⟩ := hnew' g hg
      rw [hl, List.mem_append, not_or] at hkey
      exact ⟨hname, hkey.1⟩

theorem setLog {log : Log} (h : log.mode = s.log.mode) : Frame names ids s { s with log := log } :=
  of_facts_eq rfl h rfl ⟨_, .refl _⟩

theorem setBlockFacts (l : String) (m : Facts) :
    Frame (· = f.name) ids s (s.setBlockFacts f.name l m) := by
  refine ⟨rfl, rfl, fun g hg ↦ ?_, ⟨[], ?_, by simp⟩, _, .refl _⟩
  · exact OrderedMap.get?_modify_of_ne _ _ hg
  · rw [List.append_nil]
    exact OrderedMap.keys_modify _ _ _

/-- What stays within some functions stays within more of them. -/
theorem mono {names' : String → Prop} (h : Frame names ids s t) (hn : ∀ g, names g → names' g) :
    Frame names' ids s t :=
  ⟨h.iterations, h.mode, fun g hg ↦ h.facts g fun hg' ↦ hg (hn g hg'),
    h.keys.imp fun _ hl ↦ ⟨hl.1, fun g hg ↦ ⟨hn g (hl.2 g hg).1, (hl.2 g hg).2⟩⟩, h.table⟩

theorem mem_keys (h : Frame names ids s t) {g : String} (hg : g ∈ s.facts.keys) :
    g ∈ t.facts.keys := by
  obtain ⟨l, hl, -⟩ := h.keys
  rw [hl]
  exact List.mem_append_left l hg

/-- No name is added to the facts if all are there. -/
theorem keys_eq (h : Frame names ids s t) (hall : ∀ g, names g → g ∈ s.facts.keys) :
    t.facts.keys = s.facts.keys := by
  obtain ⟨l, hl, hnew⟩ := h.keys
  cases l with
  | nil => rw [hl, List.append_nil]
  | cons g l =>
    obtain ⟨hname, hkey⟩ := hnew g List.mem_cons_self
    exact absurd (hall g hname) hkey

/-- A sweep that offers nothing leaves the table as it is. -/
theorem table_eq (h : Frame names (fun _ ↦ False) s t) : t.table = s.table := by
  obtain ⟨b, hb⟩ := h.table
  exact hb.eq_of_no_ids fun _ ↦ id

end Frame

theorem rangeOf_frame {l : String} {o : Operand} {r : Range}
    (h : (rangeOf e f l o).run s = .ok r t) : Frame (· = f.name) ids s t := by
  cases o with
  | literal v w =>
    obtain ⟨-, -, rfl⟩ := run_rangeOf_literal_eq_ok.1 h
    exact .refl t
  | symbol name => simp [rangeOf] at h
  | var x ty =>
    obtain ⟨w, -, ⟨-, rfl⟩ | ⟨-, -, _, -, -, rfl⟩⟩ := run_rangeOf_var_eq_ok.1 h
    · exact .refl t
    · unfold State.afterRead
      split
      · exact .refl s
      · exact .setBlockFacts _ _

theorem conformed_frame {first second r : Range}
    (h : (conformed first second).run s = .ok r t) : Frame names ids s t := by
  obtain ⟨log, hlog, -, rfl⟩ := run_conformed_eq_ok.1 h
  exact .setLog (Log.mode_compare hlog)

theorem joinFact_frame {l : String} {subject : Subject} {r : Range} {b : Bool}
    (h : (joinFact f l subject r).run s = .ok b t) : Frame (· = f.name) ids s t := by
  obtain ⟨log, hlog, -, rfl⟩ := run_joinFact_eq_ok.1 h
  have hmode := Log.mode_noteJoin hlog
  unfold State.afterJoin
  dsimp only
  split
  · exact (Frame.setBlockFacts _ _).trans (.setLog hmode)
  · exact .setLog hmode

/-- What each part leaves as it is, all of them leave as it is. -/
theorem forM_frame {act : α → SweepM PUnit} {as : List α}
    (h : ∀ a ∈ as, ∀ {s t x}, (act a).run s = .ok x t → Frame names ids s t) {x : PUnit}
    (hrun : (as.forM act).run s = .ok x t) : Frame names ids s t := by
  induction as generalizing s with
  | nil =>
    rw [← (run_pure_eq_ok.1 hrun).2]
    exact .refl s
  | cons a as ih =>
    obtain ⟨_, v, ha, has⟩ := run_bind_eq_ok.1 hrun
    exact (h a List.mem_cons_self ha).trans (ih (fun b hb ↦ h b (List.mem_cons_of_mem a hb)) has)

theorem joinFacts_frame {l : String} {m : Facts} {a : Unit}
    (h : (joinFacts f l m).run s = .ok a t) : Frame (· = f.name) ids s t := by
  simp only [joinFacts, run_bind_eq_ok, run_get_eq_ok] at h
  obtain ⟨_, _, ⟨rfl, rfl⟩, h⟩ := h
  split at h
  · simp only [run_modify_eq_ok] at h
    rw [← h]
    exact .setBlockFacts _ _
  · refine forM_frame ?_ h
    rintro ⟨subject, r⟩ - s t x hx
    simp only [run_bind_eq_ok, run_pure_eq_ok] at hx
    obtain ⟨_, _, hjoin, -, rfl⟩ := hx
    exact joinFact_frame hjoin

theorem offer_frame {id : String} {r : Range} {origin : Option Origin} {b : Bool} (hid : ids id)
    (h : (offer id r origin).run s = .ok b t) : Frame names ids s t := by
  obtain ⟨log, hlog, rfl, rfl⟩ := run_offer_eq_ok.1 h
  exact .of_facts_eq rfl (RangeTable.mode_logUpdate hlog) rfl ⟨_, .offer r (.refl _) hid⟩

/-- A part of a sweep over a function changes only the facts of the function and the ids that it may
update. -/
theorem Composed.frame {m : SweepM α} (h : Composed e f label ids reads m) {a : α}
    (hrun : m.run s = .ok a t) : Frame (· = f.name) ids s t := by
  induction h generalizing s t with
  | pure b =>
    rw [run_pure_eq_ok] at hrun
    rw [← hrun.2]
    exact .refl s
  | throw x => simp at hrun
  | bind _ _ ihm ihk =>
    obtain ⟨b, v, hm, hk⟩ := run_bind_eq_ok.1 hrun
    exact (ihm hm).trans (ihk b hk)
  | read l _ => exact rangeOf_frame hrun
  | conform first second => exact conformed_frame hrun
  | join subject r => exact joinFact_frame hrun
  | joinAll m => exact joinFacts_frame hrun
  | facts l _ ih =>
    obtain ⟨_, _, hget, hk⟩ := run_bind_eq_ok.1 hrun
    obtain ⟨rfl, rfl⟩ := run_get_eq_ok.1 hget
    exact ih _ hk
  | offer r origin hid => exact offer_frame hid hrun

/-! ## What is reported -/

/-- A part of a sweep that leaves the table as it is. -/
def Quiet (m : SweepM α) : Prop := ∀ s a t, m.run s = .ok a t → t.table = s.table

/-- A part of a sweep that may update no id leaves the table as it is. -/
theorem Composed.quiet {m : SweepM α} (h : Composed e f label (fun _ ↦ False) reads m) :
    Quiet m := fun _ _ _ hrun ↦ (h.frame hrun).table_eq

theorem Quiet.ofExcept (x : Except Fault α) : Quiet (ofExcept x) := by
  intro s a t h
  rw [← (run_ofExcept_eq_ok.1 h).2]

theorem Quiet.rangeOf (l : String) (o : Operand) : Quiet (rangeOf e f l o) :=
  fun _ _ _ h ↦ (rangeOf_frame h).table_eq

theorem Quiet.joinFact (l : String) (subject : Subject) (r : Range) :
    Quiet (joinFact f l subject r) := fun _ _ _ h ↦ (joinFact_frame h).table_eq

/-- A part of a sweep reports whether the table grew. -/
def Reports (m : SweepM Bool) : Prop :=
  ∀ s t b, m.run s = .ok b t → s.table.Grows (fun _ ↦ True) b t.table

namespace Reports

theorem pure_false : Reports (pure false) := by
  intro s t b h
  obtain ⟨rfl, rfl⟩ := run_pure_eq_ok.1 h
  exact .refl s.table

/-- An offer reports whether the range of the id grew. -/
theorem offer (id : String) (r : Range) (origin : Option Origin) :
    Reports (offer id r origin) := by
  intro s t b h
  obtain ⟨log, -, rfl, rfl⟩ := run_offer_eq_ok.1 h
  have h : s.table.Grows (fun _ ↦ True) (false || (s.table.union id r).2) (s.table.union id r).1 :=
    .offer r (.refl s.table) ⟨⟩
  simpa using h

/-- What comes first and offers nothing does not count. -/
theorem bind {m : SweepM α} {k : α → SweepM Bool} (hm : Quiet m) (hk : ∀ a, Reports (k a)) :
    Reports (m >>= k) := by
  intro s t b h
  obtain ⟨a, u, hu, ht⟩ := run_bind_eq_ok.1 h
  rw [← hm s a u hu]
  exact hk a u t b ht

/-- Of two parts that report, the first or the second has seen a change. -/
theorem bind_or {m n : SweepM Bool} (hm : Reports m) (hn : Reports n) :
    Reports (do let b ← m; return (← n) || b) := by
  intro s t b h
  simp only [run_bind_eq_ok, run_pure_eq_ok] at h
  obtain ⟨b₁, u, hu, b₂, v, hv, rfl, rfl⟩ := h
  rw [Bool.or_comm]
  exact (hm s u b₁ hu).trans (hn u v b₂ hv)

theorem anyOf {act : α → SweepM Bool} {as : List α} (h : ∀ a ∈ as, Reports (act a)) :
    Reports (anyOf act as) := by
  induction as with
  | nil => exact pure_false
  | cons a as ih =>
    intro s t b hrun
    obtain ⟨b₁, u, b₂, ha, has, rfl⟩ := run_anyOf_cons_eq_ok.1 hrun
    have ih := ih fun b hb ↦ h b (List.mem_cons_of_mem a hb)
    exact (h a List.mem_cons_self s u b₁ ha).trans (ih u t b₂ has)

/-! ## Instructions -/

theorem offerStored (i : Instr) (address : Operand) (r : Range) :
    Reports (offerStored e f i address r) := by
  refine .bind (.ofExcept _) fun l ↦ ?_
  split
  · exact .offer _ _ _
  · exact .pure_false

theorem visitStore (i : Instr) (value address : Operand) :
    Reports (visitStore e f label i value address) := by
  unfold Sweep.visitStore
  split
  · exact .pure_false
  · refine .bind (.rangeOf _ _) fun r ↦ ?_
    split
    · exact .bind (.joinFact _ _ _) fun _ ↦ .offerStored _ _ _
    · exact .offerStored _ _ _

theorem offerArg (i : Instr) (g : Function) (arg : Operand × Nat) :
    Reports (offerArg e f label i g arg) := by
  unfold Sweep.offerArg
  split
  split
  · exact .pure_false
  · exact .bind (.rangeOf _ _) fun _ ↦ .offer _ _ _

theorem offerArgs (i : Instr) (c : Call) (callee : String) :
    Reports (offerArgs e f label i c callee) := by
  unfold Sweep.offerArgs
  split
  · exact .pure_false
  · split
    · exact .pure_false
    · exact .anyOf fun arg _ ↦ .offerArg i _ arg

theorem offerResult (i : Instr) (x : String) (ty : Ty) :
    Reports (offerResult e f label i x ty) := by
  unfold Sweep.offerResult
  split
  · exact .pure_false
  · exact .bind (.rangeOf _ _) fun _ ↦ .bind (.joinFact _ _ _) fun _ ↦ .offer _ _ _

theorem visitCall (site : Site) (i : Instr) (c : Call) :
    Reports (visitCall e f label site i c) := by
  have hargs : Reports
      (Sweep.anyOf (Sweep.offerArgs e f label i c) (e.resolver.callees site c).toList) :=
    .anyOf fun callee _ ↦ .offerArgs i c callee
  unfold Sweep.visitCall
  dsimp only
  split
  · exact .pure_false
  · split
    · exact .bind_or hargs (.offerResult _ _ _)
    · simpa using hargs

theorem visitReturn (i : Instr) (ty : Ty) (value : Operand) :
    Reports (visitReturn e f label i ty value) := by
  unfold Sweep.visitReturn
  split
  · exact .pure_false
  · exact .bind (.rangeOf _ _) fun _ ↦ .offer _ _ _

/-- An instruction reports whether the table grew. -/
theorem perform (loops : OrderedSet Edge) (site : Site) {i : Instr} (hi : i ∈ f.instrs) :
    Reports (perform e f loops label site i) := by
  unfold Sweep.perform
  split
  · exact .visitCall _ _ _
  · exact .visitCall _ _ _
  · rename_i x v _ ha
    have hreads := Composed.valueReads_of_mem (.trivial f) hi ha
    refine .bind (Composed.valueRange hreads).quiet fun r ↦ ?_
    split
    · exact .bind (.joinFact _ _ _) fun _ ↦ .pure_false
    · exact .pure_false
  · exact .visitStore _ _ _
  · exact .visitReturn _ _ _
  · exact .pure_false

theorem visit (loops : OrderedSet Edge) {b : Block} (hb : b ∈ f.blocks) {p : Site × Instr}
    (hp : p ∈ b.sites f.name) : Reports (visit e f loops label p) := by
  obtain ⟨site, i⟩ := p
  have hi := mem_instrs_of_mem_sites hb hp
  unfold Sweep.visit
  dsimp only
  split
  · exact .bind (fun _ _ _ h ↦ by simp at h) fun _ ↦ .perform _ _ hi
  · exact .perform _ _ hi

theorem sweepBlock (g : Flow) (loops : OrderedSet Edge) {b : Block} (hb : b ∈ f.blocks) :
    Reports (sweepBlock e f g loops b) :=
  .bind (Composed.mergePredecessors (.trivial f) g loops).quiet fun _ ↦
    .anyOf fun _ hp ↦ .visit loops hb hp

/-- A sweep over a function reports whether the table grew. -/
theorem sweepFunction (e : Env) (f : Function) : Reports (sweepFunction e f) := by
  refine .bind (.ofExcept _) fun loops ↦ .bind (.ofExcept _) fun g ↦ .bind ?_ fun _ ↦ ?_
  · intro s a t h
    rw [← run_modify_eq_ok.1 h]
    rfl
  · exact .anyOf fun b hb ↦ .sweepBlock g loops hb

end Reports

/-! ## Functions -/

theorem anyOf_frame {act : α → SweepM Bool} {as : List α}
    (h : ∀ a ∈ as, ∀ s t b, (act a).run s = .ok b t → Frame names ids s t) {b : Bool}
    (hrun : (anyOf act as).run s = .ok b t) : Frame names ids s t := by
  induction as generalizing s b with
  | nil =>
    rw [← (run_pure_eq_ok.1 hrun).2]
    exact .refl s
  | cons a as ih =>
    obtain ⟨b₁, v, b₂, ha, has, rfl⟩ := run_anyOf_cons_eq_ok.1 hrun
    exact (h a List.mem_cons_self s v b₁ ha).trans
      (ih (fun c hc ↦ h c (List.mem_cons_of_mem a hc)) has)

/-- A sweep over a function starts from no facts and goes over the blocks in their order. -/
theorem sweepFunction_eq_ok {b : Bool} :
    (sweepFunction e f).run s = .ok b t ↔ ∃ loops g, f.backEdges = .ok loops ∧ f.flow = .ok g ∧
      (anyOf (sweepBlock e f g loops) f.blocks).run (beginFunction f s) = .ok b t := by
  simp only [sweepFunction, run_bind_eq_ok, run_ofExcept_eq_ok, run_modify_eq_ok]
  constructor
  · rintro ⟨loops, _, ⟨hloops, rfl⟩, g, _, ⟨hg, rfl⟩, _, _, rfl, h⟩
    exact ⟨loops, g, hloops, hg, h⟩
  · rintro ⟨loops, g, hloops, hg, h⟩
    exact ⟨loops, s, ⟨hloops, rfl⟩, g, s, ⟨hg, rfl⟩, ⟨⟩, _, rfl, h⟩

/-- A sweep over a function leaves the facts of the others as they are. -/
theorem sweepFunction_frame (hf : f ∈ e.program.functions) {b : Bool}
    (h : (sweepFunction e f).run s = .ok b t) :
    Frame (· = f.name) (· ∈ e.updatedIds) s t := by
  obtain ⟨loops, g, -, -, h⟩ := sweepFunction_eq_ok.1 h
  have hblocks := anyOf_frame (fun b hb s t c hrun ↦
    (Composed.sweepBlock (.trivial f) hf (fun _ ↦ id) g loops hb).frame hrun) h
  refine .trans ?_ hblocks
  refine ⟨rfl, rfl, fun g hg ↦ OrderedMap.get?_insert_of_ne _ _ hg, ?_, _, .refl _⟩
  unfold beginFunction
  dsimp only
  rw [OrderedMap.keys_insert]
  split
  · exact ⟨[], by simp⟩
  · rename_i hkey
    exact ⟨[f.name], rfl, by simpa using hkey⟩

theorem mem_functions_of_mem_defined (h : f ∈ e.defined) : f ∈ e.program.functions :=
  (List.mem_filter.1 h).1

end Sweep

end RangeFlow
