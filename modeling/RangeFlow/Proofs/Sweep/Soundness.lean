import RangeFlow.Proofs.Check.Definition
import RangeFlow.Proofs.Sweep.Merge

/-!
# Soundness on integer code without loops

The last round of a run sweeps over a function with the final table.  If the facts of a block cover
the words that control leaves it with, then the block it comes to covers them too, with one
exception: a parameter that the first block has no fact about keeps its word, while the second one
may have a fact about it that was brought in from elsewhere.  A run for which all these facts allow
the word has true facts at every block, and the table has the word that it returns.
-/

namespace RangeFlow

namespace Sweep

/-- When facts are brought into a block, from one state to another, those that it has then hold of
the words of variables about which the block that control comes from has no fact. -/
def AllowsUnknown (f : Function) (args : Nat → Option Word) (b : Block) (t u : State) : Prop :=
  ∀ source ρ, Arrives f args b ⟨some source, ρ⟩ → ∀ x v r, ρ x = some v →
    (t.blockFacts f.name source).get? (.var x) = none →
      (u.blockFacts f.name b.label).get? (.var x) = some r → v.width = r.width → v.val ∈ r

/-! ## Blocks -/

namespace Scope

variable {c : Scope} {g : Flow} {b : Block} {s t u : State} {args : Nat → Option Word}
variable {before after : List Block}

theorem instrs_of_mem_sites (hb : b ∈ c.fn.blocks) :
    ∀ p ∈ b.sites c.fn.name, p.2 ∈ c.fn.instrs :=
  fun _ hp ↦ mem_instrs_of_mem_sites hb hp

/-- The instructions of a block set facts about their results only. -/
theorem visitBlock_moves (hs : c.Good s) (hb : b ∈ c.fn.blocks)
    (h : (anyOf (visit c.env c.fn ∅ b.label) (b.sites c.fn.name)).run s = .ok false t) :
    c.Moves (resultsAt b.label b.instrs) s t := by
  have hmoves := visits_moves hs (instrs_of_mem_sites hb) h
  rwa [map_snd_sites] at hmoves

/-- A sweep over a block in the last round sets facts of this block only. -/
theorem sweepBlock_moves (hs : c.Good s) (hb : b ∈ c.fn.blocks)
    (h : (sweepBlock c.env c.fn g ∅ b).run s = .ok false t) : c.Moves (anyAt b.label) s t := by
  obtain ⟨_, u, hmerge, hvisits⟩ := run_bind_eq_ok.1 h
  have hmoves := (mergePredecessors_merged hs hmerge).moves
  exact hmoves.trans ((visitBlock_moves hmoves.good hb hvisits).mono fun _ _ h ↦ h.1)

/-- Sweeping over blocks sets facts of these blocks only. -/
theorem sweepBlocks_moves {bs : List Block} (hs : c.Good s) (hbs : ∀ b ∈ bs, b ∈ c.fn.blocks)
    (h : (anyOf (sweepBlock c.env c.fn g ∅) bs).run s = .ok false t) :
    c.Moves (fun k _ ↦ k ∈ bs.map Block.label) s t := by
  induction bs generalizing s with
  | nil =>
    obtain ⟨-, rfl⟩ := run_pure_eq_ok.1 h
    exact .refl hs
  | cons b bs ih =>
    obtain ⟨u, hu, hrest⟩ := run_anyOf_cons_eq_ok_false.1 h
    have hfirst := sweepBlock_moves hs (hbs b List.mem_cons_self) hu
    have hbs' := ih hfirst.good (fun b' hb' ↦ hbs b' (List.mem_cons_of_mem b hb')) hrest
    refine (hfirst.mono fun k _ hk ↦ ?_).trans (hbs'.mono fun k _ hk ↦ ?_)
    · exact List.mem_map.2 ⟨b, List.mem_cons_self, hk.symm⟩
    · exact List.mem_cons_of_mem _ hk

theorem label_notMem (heq : c.fn.blocks = before ++ b :: after) :
    b.label ∉ before.map Block.label ∧ b.label ∉ after.map Block.label := by
  have hnodup := c.orderly.labels
  rw [Function.labels, heq, List.map_append, List.map_cons, List.nodup_append,
    List.nodup_cons] at hnodup
  exact ⟨fun h ↦ hnodup.2.2 _ h _ List.mem_cons_self rfl, hnodup.2.1.1⟩

/-- The words that control comes to a block with are not held by results of its instructions. -/
theorem eq_none_of_arrives {a : Arrival} (ha : Arrives c.fn args b a)
    (heq : c.fn.blocks = before ++ b :: after) {x : String}
    (hx : x ∈ b.instrs.filterMap Instr.result?) : a.values x = none := by
  have hfollows := ha.follows c.orderly heq
  obtain ⟨i, hi, hx⟩ := List.mem_filterMap.1 hx
  obtain ⟨first, rest, hb⟩ := List.append_of_mem hi
  have hinstrs : c.fn.instrs = (before.flatMap Block.instrs ++ first) ++
      i :: (rest ++ after.flatMap Block.instrs) := by
    simp [Function.instrs, heq, hb]
  refine (hfollows.mono fun y hy ↦ ?_).eq_none c.orderly.toTyping hinstrs hx
  rw [List.filterMap_append, List.mem_append]
  exact .inl hy

/-! ## Runs through swept blocks -/

/-- What a sweep over some blocks has established about the runs of a function: the facts of the
blocks cover the words that control comes with and leaves with, and the table has the words that
are returned. -/
structure Tracked (c : Scope) (args : Nat → Option Word) (bs : List Block) (s : State) :
    Prop where
  good : c.Good s
  comes : ∀ b ∈ bs, ∀ a, Arrives c.fn args b a → c.Covers (c.facts s b.label) a.values
  leaves : ∀ b ∈ bs, ∀ a ρ e, Arrives c.fn args b a → execute a a.values b.instrs = some (ρ, e) →
    c.Covers (c.facts s b.label) ρ
  returns : ∀ b ∈ bs, ∀ a ρ v, Arrives c.fn args b a →
    execute a a.values b.instrs = some (ρ, .ret v) →
      ∃ stored, c.table.get? (Location.ret c.fn.name).id = some stored ∧
        stored.contains v.val = true

/-- A run stays tracked in the blocks before while a later block is swept. -/
theorem Tracked.keep (h : c.Tracked args before s) (heq : c.fn.blocks = before ++ b :: after)
    (hmoves : c.Moves (anyAt b.label) s t) : c.Tracked args before t := by
  have hne : ∀ b' ∈ before, ∀ x, ¬anyAt b.label b'.label x := by
    intro b' hb' _ hlabel
    exact (label_notMem heq).1 (List.mem_map.2 ⟨b', hb', hlabel⟩)
  refine ⟨hmoves.good, fun b' hb' a ha ↦ ?_, fun b' hb' a ρ e ha hrun ↦ ?_, h.returns⟩
  · exact hmoves.covers (h.comes b' hb' a ha) fun x hx ↦ absurd hx (hne b' hb' x)
  · exact hmoves.covers (h.leaves b' hb' a ρ e ha hrun) fun x hx ↦ absurd hx (hne b' hb' x)

/-- A run that leaves a block follows the instructions laid out so far. -/
theorem takes_of_execute {b' : Block} {a : Arrival} {ρ : Values} {l : String}
    (ha : Arrives c.fn args b' a) (hrun : execute a a.values b'.instrs = some (ρ, .goto l)) :
    c.Takes b' l ρ := by
  obtain ⟨t, ht, hgoto⟩ := exists_terminator_of_execute (c.orderly.ends b' ha.mem) hrun
  obtain ⟨first, rest, heq⟩ := List.append_of_mem ha.mem
  have hinstrs : c.fn.instrs = first.flatMap Block.instrs ++ b'.instrs ++
      rest.flatMap Block.instrs := by simp [Function.instrs, heq]
  exact ⟨t, _, ht, hgoto, (ha.follows c.orderly heq).execute c.orderly.toTyping hinstrs hrun⟩

/-- The words that control comes to a block with are covered once the facts of its predecessors
have been brought in. -/
theorem covers_of_merge (h : c.Tracked args before t) (heq : c.fn.blocks = before ++ b :: after)
    (hg : c.fn.flow = .ok g)
    (hmerge : (mergePredecessors c.env c.fn g ∅ b.label).run t = .ok () u)
    (hkeeps : AllowsUnknown c.fn args b t u) {source : String} {ρ : Values}
    (ha : Arrives c.fn args b ⟨some source, ρ⟩) :
    c.Covers (c.facts u b.label) ρ ∧ source ≠ b.label ∧ c.Covers (c.facts u source) ρ := by
  rcases ha.cases_before c.orderly heq with ⟨-, hstart⟩ | ⟨b', hb', a', ρ', ha', hsource, hrun⟩
  · cases hstart
  · cases hsource
    have hmem : b' ∈ c.fn.blocks := by simp [heq, hb']
    have hne : b'.label ≠ b.label := fun hl ↦
      (label_notMem heq).1 (List.mem_map.2 ⟨b', hb', hl⟩)
    have hcov := h.leaves b' hb' a' ρ _ ha' hrun
    have htakes := takes_of_execute ha' hrun
    have hpred : b'.label ∈ g.predecessors b.label := by
      obtain ⟨tm, -, htm, hgoto, -⟩ := htakes
      exact (mem_predecessors hg).2 ⟨b', hmem, rfl, tm, htm, mem_labels_of_eval? hgoto⟩
    have hmerged := mergePredecessors_merged h.good hmerge
    have hbrings := hmerged.brings b' hmem hpred hne ρ htakes hcov
    refine ⟨fun x v hx hv ↦ ?_, hne, hmerged.moves.covers hcov fun _ hl ↦ absurd hl hne⟩
    cases hfact : (c.facts t b'.label).get? (.var x) with
    | some r =>
      obtain ⟨r', hr', hmem'⟩ := hbrings x v r hx hv hfact
      rw [told, hr']
      exact hmem'
    | none =>
      cases hfact' : (c.facts u b.label).get? (.var x) with
      | some r =>
        have hw := (hmerged.moves.good.typed b.label).width_eq hfact' hx
        rw [told, hfact']
        exact hkeeps b'.label ρ ha x v r hv hfact hfact' hw.symm
      | none =>
        have hparam := hcov x v hx hv
        rw [told, hfact] at hparam
        rw [told, hfact']
        exact hparam

/-- No edge leads to the block laid out first. -/
theorem predecessors_first (heq : c.fn.blocks = b :: after) (hg : c.fn.flow = .ok g) :
    g.predecessors b.label = [] := by
  rw [List.eq_nil_iff_forall_not_mem]
  intro source hsource
  obtain ⟨b', hb', -, tm, htm, hl⟩ := (mem_predecessors hg).1 hsource
  obtain ⟨first, rest, heq'⟩ := List.append_of_mem hb'
  refine c.orderly.forward.notMem_targets heq' ?_ (Block.mem_targets.2 ⟨tm, htm, hl⟩)
  rw [heq] at heq'
  cases first with
  | nil =>
    cases heq'
    simp
  | cons b'' first =>
    cases heq'
    simp

/-- Control comes to a block with words that its facts cover. -/
theorem covers_of_arrives (h : c.Tracked args before t)
    (heq : c.fn.blocks = before ++ b :: after) (hg : c.fn.flow = .ok g)
    (hstart : before = [] → c.Covers (c.facts t b.label) (.ofArgs c.fn args))
    (hmerge : (mergePredecessors c.env c.fn g ∅ b.label).run t = .ok () u)
    (hkeeps : AllowsUnknown c.fn args b t u) {a : Arrival} (ha : Arrives c.fn args b a) :
    c.Covers (c.facts u b.label) a.values ∧
      ∀ p, a.source = some p → p ≠ b.label ∧ c.Covers (c.facts u p) a.values := by
  rcases ha.cases_before c.orderly heq with ⟨rfl, rfl⟩ | ⟨b', -, a', ρ, -, rfl, -⟩
  · unfold mergePredecessors at hmerge
    rw [predecessors_first heq hg] at hmerge
    obtain ⟨-, rfl⟩ := run_pure_eq_ok.1 hmerge
    exact ⟨hstart rfl, fun p hp ↦ by cases hp⟩
  · obtain ⟨hcov, hne, hcov'⟩ := covers_of_merge h heq hg hmerge hkeeps ha
    refine ⟨hcov, fun p hp ↦ ?_⟩
    cases hp
    exact ⟨hne, hcov'⟩

/-- One more block. -/
theorem sweepBlock_tracked (h : c.Tracked args before s)
    (heq : c.fn.blocks = before ++ b :: after) (hg : c.fn.flow = .ok g)
    (hstart : before = [] → c.Covers (c.facts s b.label) (.ofArgs c.fn args))
    (hkeeps : ∀ u, (mergePredecessors c.env c.fn g ∅ b.label).run s = .ok () u →
      AllowsUnknown c.fn args b s u)
    (hrun : (sweepBlock c.env c.fn g ∅ b).run s = .ok false t) :
    c.Tracked args (before ++ [b]) t := by
  have hb : b ∈ c.fn.blocks := by simp [heq]
  have hkept := h.keep heq (sweepBlock_moves h.good hb hrun)
  obtain ⟨⟨⟩, u, hmerge, hvisits⟩ := run_bind_eq_ok.1 hrun
  have hu := (mergePredecessors_merged h.good hmerge).moves.good
  have hmoves := visitBlock_moves hu hb hvisits
  have hcomes {a : Arrival} (ha : Arrives c.fn args b a) :=
    covers_of_arrives h heq hg hstart hmerge (hkeeps u hmerge) ha
  have hends : ∀ i ∈ ((b.sites c.fn.name).map Prod.snd).dropLast, i.isTerminator = false := by
    rw [map_snd_sites]
    exact c.orderly.ends b hb
  have hleaves {a : Arrival} {ρ : Values} {e : Exit} (ha : Arrives c.fn args b a)
      (hexec : execute a a.values b.instrs = some (ρ, e)) := by
    rw [← map_snd_sites b c.fn.name] at hexec
    exact visits_covers hu (instrs_of_mem_sites hb) hends hvisits (hcomes ha).1 (hcomes ha).2 hexec
  refine ⟨hkept.good, fun b' hb' a ha ↦ ?_, fun b' hb' a ρ e ha hexec ↦ ?_,
    fun b' hb' a ρ v ha hexec ↦ ?_⟩
  · rcases List.mem_append.1 hb' with hb' | hb'
    · exact hkept.comes b' hb' a ha
    · obtain rfl := List.mem_singleton.1 hb'
      exact hmoves.covers (hcomes ha).1 fun x hx ↦ eq_none_of_arrives ha heq hx.2
  · rcases List.mem_append.1 hb' with hb' | hb'
    · exact hkept.leaves b' hb' a ρ e ha hexec
    · obtain rfl := List.mem_singleton.1 hb'
      exact (hleaves ha hexec).1
  · rcases List.mem_append.1 hb' with hb' | hb'
    · exact hkept.returns b' hb' a ρ v ha hexec
    · obtain rfl := List.mem_singleton.1 hb'
      exact (hleaves ha hexec).2 v rfl

/-- All blocks, one after the other in layout order. -/
theorem sweepBlocks_tracked {s₀ : State} (hs₀ : c.Good s₀) (hg : c.fn.flow = .ok g)
    (hstart : ∀ l, c.Covers (c.facts s₀ l) (.ofArgs c.fn args))
    (hkeeps : ∀ b t u, Comes (sweepBlock c.env c.fn g ∅) c.fn.blocks s₀ b t →
      (mergePredecessors c.env c.fn g ∅ b.label).run t = .ok () u → AllowsUnknown c.fn args b t u)
    (hrun : (anyOf (sweepBlock c.env c.fn g ∅) c.fn.blocks).run s₀ = .ok false t) :
    c.Tracked args c.fn.blocks t := by
  have hall : ∀ rest before s, c.fn.blocks = before ++ rest →
      (anyOf (sweepBlock c.env c.fn g ∅) before).run s₀ = .ok false s →
      c.Tracked args before s → (anyOf (sweepBlock c.env c.fn g ∅) rest).run s = .ok false t →
      c.Tracked args c.fn.blocks t := by
    intro rest
    induction rest with
    | nil =>
      intro before s heq _ h hrest
      obtain ⟨-, rfl⟩ := run_pure_eq_ok.1 hrest
      rw [heq, List.append_nil]
      exact h
    | cons b rest ih =>
      intro before s heq hbefore h hrest
      obtain ⟨u, hb, hrest⟩ := run_anyOf_cons_eq_ok_false.1 hrest
      have hfirst : before = [] → c.Covers (c.facts s b.label) (.ofArgs c.fn args) := by
        rintro rfl
        obtain ⟨-, rfl⟩ := run_pure_eq_ok.1 hbefore
        exact hstart b.label
      refine ih (before ++ [b]) u (by simp [heq]) ?_ ?_ hrest
      · exact run_anyOf_append_eq_ok.2 ⟨false, s, false, hbefore,
          run_anyOf_cons_eq_ok_false.2 ⟨u, hb, run_pure_eq_ok.2 ⟨rfl, rfl⟩⟩, rfl⟩
      · exact sweepBlock_tracked h heq hg hfirst
          (fun u hu ↦ hkeeps b s u ⟨before, rest, false, heq, hbefore⟩ hu) hb
  refine hall c.fn.blocks [] s₀ rfl (run_pure_eq_ok.2 ⟨rfl, rfl⟩) ⟨hs₀, ?_, ?_, ?_⟩ hrun
  · exact fun b hb ↦ (List.not_mem_nil hb).elim
  · exact fun b hb ↦ (List.not_mem_nil hb).elim
  · exact fun b hb ↦ (List.not_mem_nil hb).elim

/-- Facts about the words that control comes to a block with are final once they are brought in. -/
theorem get?_of_merge {s₀ : State} (hs₀ : c.Good s₀)
    (hcomes : Comes (sweepBlock c.env c.fn g ∅) c.fn.blocks s₀ b s)
    (hmerge : (mergePredecessors c.env c.fn g ∅ b.label).run s = .ok () u)
    (hrun : (anyOf (sweepBlock c.env c.fn g ∅) c.fn.blocks).run s₀ = .ok false t)
    {a : Arrival} (ha : Arrives c.fn args b a) {x : String} {v : Word} (hv : a.values x = some v)
    {r : Range} (hr : (c.facts u b.label).get? (.var x) = some r) :
    (c.facts t b.label).get? (.var x) = some r := by
  obtain ⟨before, after, d, heq, hbefore⟩ := hcomes
  rw [heq] at hrun
  obtain ⟨b₁, s', b₂, hbefore', hrun, hor⟩ := run_anyOf_append_eq_ok.1 hrun
  rw [hbefore] at hbefore'
  cases hbefore'
  obtain ⟨rfl, rfl⟩ := Bool.or_eq_false_iff.1 hor
  obtain ⟨u', hblock, hafter⟩ := run_anyOf_cons_eq_ok_false.1 hrun
  have hmem : ∀ b' ∈ before ++ b :: after, b' ∈ c.fn.blocks := fun b' hb' ↦ heq ▸ hb'
  have hs := (sweepBlocks_moves hs₀ (fun b' hb' ↦ hmem b' (by simp [hb'])) hbefore).good
  obtain ⟨⟨⟩, u₁, hmerge', hvisits⟩ := run_bind_eq_ok.1 hblock
  rw [hmerge] at hmerge'
  cases hmerge'
  have hu := (mergePredecessors_merged hs hmerge).moves.good
  have hvisit := visitBlock_moves hu (hmem b (by simp)) hvisits
  have hlater := sweepBlocks_moves hvisit.good (fun b' hb' ↦ hmem b' (by simp [hb'])) hafter
  -- The variable is no result of the block, and no later block has the same label.
  refine (hlater.gains b.label).kept x r (label_notMem heq).2
    ((hvisit.gains b.label).kept x r ?_ hr)
  intro hx
  rw [eq_none_of_arrives ha heq hx.2] at hv
  cases hv

end Scope

/-! ## The last round -/

variable {e : Env} {f : Function} {args : Nat → Option Word} {s s' s₁ last : State}

/-- A round that begins in a state brings facts into a block, from one state to another. -/
def Merges (e : Env) (s : State) (f : Function) (b : Block) (t u : State) : Prop :=
  ∃ loops g s₁,
    Comes (sweepFunction e) e.defined (beginRound e s) f s₁ ∧
    f.backEdges = .ok loops ∧ f.flow = .ok g ∧
    Comes (sweepBlock e f g loops) f.blocks (beginFunction f s₁) b t ∧
    (mergePredecessors e f g loops b.label).run t = .ok () u

/-- The table allows arguments: each is in what is stored for its position at its width, or comes
from outside. -/
def Admits (e : Env) (t : RangeTable String) (f : Function) (args : Nat → Option Word) : Prop :=
  ∀ n v, args n = some v → e.settings.isTainted (Location.arg f.name n).id = true ∨
    v.val ∈ storedAt t v.width (Location.arg f.name n).id

/-- Whenever a run comes to a block, the facts of the block hold of the words of their width. -/
def FactsHold (s : State) (f : Function) (args : Nat → Option Word) : Prop :=
  ∀ b a, Arrives f args b a → ∀ x v r, a.values x = some v →
    (s.blockFacts f.name b.label).get? (.var x) = some r → v.width = r.width → v.val ∈ r

/-- Whenever a run goes from a block to another one, a fact that the round brings into the second
block holds of the word of a variable about which the first block has no fact. -/
def KeepsUnknown (e : Env) (s : State) (f : Function) (args : Nat → Option Word) : Prop :=
  ∀ b t u, Merges e s f b t u → AllowsUnknown f args b t u

/-- After the sweep over a function its facts stay, and it read the final table. -/
theorem sweepFunction_of_last (hround : (round e).run last = .ok false s')
    (hnames : (e.program.functions.map Function.name).Nodup)
    (hs₁ : Comes (sweepFunction e) e.defined (beginRound e last) f s₁) :
    s₁.table = s'.table ∧ ∃ s₂, (sweepFunction e f).run s₁ = .ok false s₂ ∧
      ∀ l, s'.blockFacts f.name l = s₂.blockFacts f.name l := by
  have hrun := round_eq_ok.1 hround
  obtain ⟨-, htable, s₂, hs₂⟩ := hs₁.run_eq_ok (fun f _ ↦ .sweepFunction e f) hrun
  refine ⟨htable.trans (table_of_round_false hround).symm, s₂, hs₂, fun l ↦ ?_⟩
  obtain ⟨before, after, b, heq, hbefore⟩ := hs₁
  rw [heq] at hrun
  obtain ⟨b₁, u, b₂, hbefore', hrun, -⟩ := run_anyOf_append_eq_ok.1 hrun
  rw [hbefore] at hbefore'
  cases hbefore'
  obtain ⟨b₃, u, b₄, hs₂', hafter, -⟩ := run_anyOf_cons_eq_ok.1 hrun
  rw [hs₂] at hs₂'
  cases hs₂'
  have hdefined : (e.defined.map Function.name).Nodup :=
    hnames.sublist (List.filter_sublist.map _)
  rw [heq, List.map_append, List.map_cons, List.nodup_append, List.nodup_cons] at hdefined
  have hframe : Frame (· ∈ after.map Function.name) (· ∈ e.updatedIds) s₂ s' :=
    anyOf_frame (fun g hg _ _ _ hrun ↦
      (sweepFunction_frame (mem_functions_of_mem_defined (by simp [heq, hg])) hrun).mono
        fun _ h ↦ h ▸ List.mem_map_of_mem hg) hafter
  unfold State.blockFacts
  rw [hframe.facts f.name hdefined.2.1.1]

namespace Scope

variable {c : Scope}

theorem facts_beginFunction (c : Scope) (s : State) (l : String) :
    c.facts (beginFunction c.fn s) l = ∅ := blockFacts_beginFunction c.fn s l

theorem good_beginFunction (h : s.table = c.table) : c.Good (beginFunction c.fn s) := by
  refine ⟨h, OrderedMap.mem_keys_insert.2 (.inr rfl), fun l x r hr ↦ ?_⟩
  rw [facts_beginFunction] at hr
  cases hr

/-- The table tells of a parameter what it allows. -/
theorem covers_ofArgs (h : Admits c.env c.table c.fn args) :
    c.Covers ∅ (.ofArgs c.fn args) := by
  intro x v _ hv
  obtain ⟨n, hn, hv⟩ := Option.bind_eq_some_iff.1 hv
  have hids : argIds c.fn x = [(Location.arg c.fn.name n).id] := by simp [argIds, hn]
  rw [told, OrderedMap.get?_empty, Option.getD_none, paramRange, hids, Env.readIds]
  rcases h n v hv with htaint | hstored
  · rw [if_pos (by simp [htaint])]
    exact Range.mem_full.2 v.val_lt
  · split
    · exact Range.mem_full.2 v.val_lt
    · exact Range.mem_union (width_storedAt _ _ _).symm (.inr hstored)

/-- A function that a round sweeps over. -/
theorem exists_sweep (hround : (round c.env).run last = .ok false s')
    (hnames : (c.env.program.functions.map Function.name).Nodup) (htable : c.table = s'.table)
    (hs₁ : Comes (sweepFunction c.env) c.env.defined (beginRound c.env last) c.fn s₁) :
    c.Good (beginFunction c.fn s₁) ∧ c.fn.backEdges = .ok ∅ ∧ ∃ g s₂, c.fn.flow = .ok g ∧
      (anyOf (sweepBlock c.env c.fn g ∅) c.fn.blocks).run (beginFunction c.fn s₁) = .ok false s₂ ∧
      ∀ l, c.facts s' l = c.facts s₂ l := by
  obtain ⟨htable₁, s₂, hs₂, hfacts⟩ := sweepFunction_of_last hround hnames hs₁
  obtain ⟨loops, g, hloops, hg, hblocks⟩ := sweepFunction_eq_ok.1 hs₂
  obtain rfl := backEdges_of_isForward c.orderly.forward hloops
  exact ⟨good_beginFunction (htable₁.trans htable.symm), hloops, g, s₂, hg, hblocks, hfacts⟩

/-- At the end of the last round the run is tracked in all blocks, if what is unknown is kept. -/
theorem tracked_of_keepsUnknown (hround : (round c.env).run last = .ok false s')
    (hnames : (c.env.program.functions.map Function.name).Nodup) (htable : c.table = s'.table)
    (hf : c.fn ∈ c.env.defined) (hargs : Admits c.env c.table c.fn args)
    (hkeeps : KeepsUnknown c.env last c.fn args) :
    ∃ s₂, c.Tracked args c.fn.blocks s₂ ∧ ∀ l, c.facts s' l = c.facts s₂ l := by
  obtain ⟨s₁, hs₁⟩ := exists_comes (round_eq_ok.1 hround) hf
  obtain ⟨hgood, hloops, g, s₂, hg, hblocks, hfacts⟩ := exists_sweep hround hnames htable hs₁
  refine ⟨s₂, sweepBlocks_tracked hgood hg (fun l ↦ ?_) ?_ hblocks, hfacts⟩
  · rw [facts_beginFunction]
    exact covers_ofArgs hargs
  · intro b t u hcomes hmerge
    exact hkeeps b t u ⟨∅, g, s₁, hs₁, hloops, hg, hcomes, hmerge⟩

/-- The facts at the end hold of a run that is tracked in all blocks. -/
theorem factsHold_of_tracked {s₂ : State} (h : c.Tracked args c.fn.blocks s₂)
    (hfacts : ∀ l, c.facts s' l = c.facts s₂ l) : FactsHold s' c.fn args := by
  intro b a ha x v r hv hr hw
  change (c.facts s' b.label).get? (.var x) = some r at hr
  rw [hfacts] at hr
  have hx : c.Fits x v.width := by
    intro ty hty
    rw [h.good.typed b.label x r hr] at hty
    rw [hw]
    exact (Option.some.inj hty).symm
  have hmem := h.comes b ha.mem a ha x v hx hv
  rwa [told, hr] at hmem

/-- If the facts at the end hold, then what is unknown was kept. -/
theorem keepsUnknown_of_factsHold (hround : (round c.env).run last = .ok false s')
    (hnames : (c.env.program.functions.map Function.name).Nodup) (htable : c.table = s'.table)
    (h : FactsHold s' c.fn args) : KeepsUnknown c.env last c.fn args := by
  intro b t u hmerges source ρ ha x v r hv _ hr hw
  obtain ⟨loops, g, s₁, hs₁, hloops, hg, hcomes, hmerge⟩ := hmerges
  obtain ⟨hgood, hloops', g', s₂, hg', hblocks, hfacts⟩ := exists_sweep hround hnames htable hs₁
  rw [hloops] at hloops'
  cases hloops'
  rw [hg] at hg'
  cases hg'
  have hfinal := get?_of_merge hgood hcomes hmerge hblocks ha hv hr
  rw [← hfacts] at hfinal
  exact h b _ ha x v r hv hfinal hw

end Scope

/-- **Soundness on integer code without loops.**  Take a run of the analysis on an accepted program,
a function of it that is integer code without loops, and arguments that the final table allows.  The
final facts of the blocks hold of the words that a run on these arguments comes to them with exactly
if the last round keeps the words of which it knows nothing on the way.  If so, the word that the
function returns is in the range that the table has for it. -/
theorem run_sound_of_isLoopFree {h : History} (hsound : e.program.isSound = true)
    (hnames : (e.program.functions.map Function.name).Nodup) (hf : f ∈ e.program.functions)
    (hfree : f.IsLoopFree) (hrun : (run e).run s = .ok h s') (hargs : Admits e s'.table f args) :
    ∃ s₀ last, (seed e).run s = .ok () s₀ ∧ Reaches e s₀ last ∧
      (round e).run last = .ok false s' ∧
      (FactsHold s' f args ↔ KeepsUnknown e last f args) ∧
      (KeepsUnknown e last f args → ∀ v, Returns f args v →
        ∃ stored, s'.table.get? (Location.ret f.name).id = some stored ∧
          stored.contains v.val = true) := by
  obtain ⟨s₀, hseed, -, hrounds⟩ := run_eq_ok.1 hrun
  obtain ⟨last, hlast, hround⟩ := exists_last_of_rounds hrounds
  refine ⟨s₀, last, hseed, hlast, hround, ?_⟩
  by_cases hdef : f ∈ e.defined
  · obtain ⟨s₁, hs₁⟩ := exists_comes (round_eq_ok.1 hround) hdef
    obtain ⟨-, s₂, hs₂, -⟩ := sweepFunction_of_last hround hnames hs₁
    obtain ⟨loops, g, -, hg, -⟩ := sweepFunction_eq_ok.1 hs₂
    let c : Scope := ⟨e, f, _, s'.table, orderly_of_isSound hsound hf hg hfree⟩
    have htracked := fun hkeeps ↦
      Scope.tracked_of_keepsUnknown (c := c) hround hnames rfl hdef hargs hkeeps
    refine ⟨⟨Scope.keepsUnknown_of_factsHold (c := c) hround hnames rfl, fun hkeeps ↦ ?_⟩,
      fun hkeeps v hv ↦ ?_⟩
    · obtain ⟨s₂, htr, hfacts⟩ := htracked hkeeps
      exact Scope.factsHold_of_tracked htr hfacts
    · obtain ⟨s₂, htr, -⟩ := htracked hkeeps
      obtain ⟨b, a, ρ, ha, hexec⟩ := hv
      exact htr.returns b ha.mem a ρ v ha hexec
  · -- A function without blocks is never run.
    have hnone : ∀ b a, ¬Arrives f args b a := by
      intro b a ha
      refine hdef (List.mem_filter.2 ⟨hf, ?_⟩)
      have hmem := ha.mem
      cases hblocks : f.blocks with
      | nil => simp [hblocks] at hmem
      | cons b' bs => simp [Function.isDeclaration, hblocks]
    refine ⟨⟨fun _ b t u _ source ρ ha ↦ absurd ha (hnone _ _),
      fun _ b a ha ↦ absurd ha (hnone _ _)⟩, ?_⟩
    rintro - v ⟨b, a, ρ, ha, -⟩
    exact absurd ha (hnone b a)

/-! ## A fact from elsewhere -/

open Width (byte)

/-- Control comes to a block from one that tells the parameter `a` by a switch, or from one that
tells nothing of it. -/
def joining : Function where
  name := "f"
  params := [⟨"c", .i1⟩, ⟨"a", .int byte⟩]
  returns := .int byte
  isVararg := false
  blocks := [
    ⟨"entry", [⟨.finish (.jnz (.var "c" .i1) "p" "q"), 3⟩]⟩,
    ⟨"p", [⟨.finish (.switch (.int byte) (.var "a" (.int byte)) "out" [⟨5, "join"⟩]), 5⟩]⟩,
    ⟨"q", [⟨.finish (.jmp "join"), 7⟩]⟩,
    ⟨"join", [⟨.finish (.ret (.int byte) (.var "a" (.int byte))), 9⟩]⟩,
    ⟨"out", [⟨.finish (.ret (.int byte) (.literal 0 byte)), 11⟩]⟩]

/-- Both arguments come from outside. -/
def joiningEnv : Env :=
  .ofProgram ⟨[], [], [joining]⟩ ⟨5, none, ["arg.f.0", "arg.f.1"], by decide⟩

def joiningStart : State := .start joiningEnv.settings .always

/-- The run takes the way that tells nothing. -/
def joiningArgs (v : Word) : Nat → Option Word
  | 0 => some (.ofInt .one 0)
  | 1 => some v
  | _ => none

theorem isLoopFree_joining : joining.IsLoopFree := ⟨by decide, by decide, by decide⟩

theorem isSound_joining : joiningEnv.program.isSound = true :=
  Function.isSound_of_allAvailable rfl rfl (by decide) (by decide) (by decide) (by decide)

/-- The block where both ways meet has a fact that comes from one of them, and the range of the
result follows it. -/
theorem exists_run_joining : ∃ h s', (run joiningEnv).run joiningStart = .ok h s' ∧
    s'.table.get? (Location.ret joining.name).id = some (.ofBounds byte 0 6) ∧
    s'.blockFacts joining.name "entry" = ∅ ∧ s'.blockFacts joining.name "q" = ∅ ∧
    s'.blockFacts joining.name "join" = .ofList [(.var "a", .ofBounds byte 5 6)] := by
  have hok : (match (run joiningEnv).run joiningStart with
      | .ok _ s' =>
        decide (s'.table.get? (Location.ret joining.name).id = some (.ofBounds byte 0 6) ∧
          s'.blockFacts joining.name "entry" = ∅ ∧ s'.blockFacts joining.name "q" = ∅ ∧
          s'.blockFacts joining.name "join" = .ofList [(.var "a", .ofBounds byte 5 6)])
      | .error _ _ => false) = true := by cbv
  cases hrun : (run joiningEnv).run joiningStart with
  | ok h s' =>
    rw [hrun] at hok
    exact ⟨h, s', rfl, of_decide_eq_true hok⟩
  | error x s' => simp [hrun] at hok

/-- Any byte is admitted, as the arguments come from outside. -/
theorem admits_joining (t : RangeTable String) (v : Word) :
    Admits joiningEnv t joining (joiningArgs v) := by
  intro n u hu
  left
  match n with
  | 0 => decide
  | 1 => decide
  | _ + 2 => cases hu

/-- The run passes three blocks, and no variable is assigned. -/
theorem arrives_joining {v : Word} {b : Block} {a : Arrival}
    (h : Arrives joining (joiningArgs v) b a) :
    a.values = .ofArgs joining (joiningArgs v) ∧
      (joining.block? "entry" = some b ∨ joining.block? "q" = some b ∨
        joining.block? "join" = some b) := by
  induction h with
  | start h => exact ⟨rfl, .inl h⟩
  | @step b c a ρ l _ hrun hblock ih =>
    obtain ⟨hvalues, hb | hb | hb⟩ := ih
    · cases hb
      rw [hvalues] at hrun
      cases hrun
      exact ⟨rfl, .inr (.inl hblock)⟩
    · cases hb
      rw [hvalues] at hrun
      cases hrun
      exact ⟨rfl, .inr (.inr hblock)⟩
    · cases hb
      obtain ⟨e, he, hret⟩ := Option.bind_eq_some_iff.1 hrun
      obtain ⟨u, -, hu⟩ := Option.bind_eq_some_iff.1 he
      cases hu
      cases hret

/-- On the way that tells nothing the function returns its argument. -/
theorem returns_joining {v : Word} (hv : v.width = byte) : Returns joining (joiningArgs v) v := by
  let ρ : Values := .ofArgs joining (joiningArgs v)
  have hentry : Arrives joining (joiningArgs v) _ ⟨none, ρ⟩ := .start rfl
  have hq : Arrives joining (joiningArgs v) _ ⟨some "entry", ρ⟩ := .step (l := "q") hentry rfl rfl
  have hjoin : Arrives joining (joiningArgs v) _ ⟨some "q", ρ⟩ := .step (l := "join") hq rfl rfl
  have hread : (Operand.var "a" (.int byte)).read? ρ = some v := by
    have ha : ρ "a" = some v := rfl
    simp [Operand.read?, ha, hv]
  refine ⟨_, _, ρ, hjoin, ?_⟩
  exact Option.bind_eq_some_iff.2 ⟨.ret v, by rw [Terminator.eval?, hread]; rfl, rfl⟩

/-- The fact from elsewhere is true of one word only. -/
theorem factsHold_joining {s : State} (hentry : s.blockFacts joining.name "entry" = ∅)
    (hq : s.blockFacts joining.name "q" = ∅)
    (hjoin : s.blockFacts joining.name "join" = .ofList [(.var "a", .ofBounds byte 5 6)]) :
    FactsHold s joining (joiningArgs (.ofInt byte 5)) := by
  intro b a ha x v r hv hr _
  obtain ⟨hvalues, hb | hb | hb⟩ := arrives_joining ha
  · cases hb
    rw [hentry] at hr
    cases hr
  · cases hb
    rw [hq] at hr
    cases hr
  · cases hb
    rw [hjoin] at hr
    obtain ⟨rfl, rfl⟩ := Comparison.get?_singleFact hr
    rw [hvalues] at hv
    cases hv
    decide

/-- With the argument 5, which the case of the switch tells, all facts hold and the result is
covered. -/
theorem run_sound_of_isLoopFree_joining :
    joiningEnv.program.isSound = true ∧
    (joiningEnv.program.functions.map Function.name).Nodup ∧
    joining ∈ joiningEnv.program.functions ∧ joining.IsLoopFree ∧
    ∃ h s', (run joiningEnv).run joiningStart = .ok h s' ∧
      Admits joiningEnv s'.table joining (joiningArgs (.ofInt byte 5)) ∧
      FactsHold s' joining (joiningArgs (.ofInt byte 5)) ∧
      Returns joining (joiningArgs (.ofInt byte 5)) (.ofInt byte 5) ∧
      ∃ stored, s'.table.get? (Location.ret joining.name).id = some stored ∧
        stored.contains 5 = true := by
  have hnames : (joiningEnv.program.functions.map Function.name).Nodup := by decide
  have hf : joining ∈ joiningEnv.program.functions := List.mem_singleton_self _
  obtain ⟨h, s', hrun, -, hentry, hq, hjoin⟩ := exists_run_joining
  have hargs := admits_joining s'.table (.ofInt byte 5)
  have hfacts := factsHold_joining hentry hq hjoin
  have hreturns : Returns joining (joiningArgs (.ofInt byte 5)) (.ofInt byte 5) :=
    returns_joining rfl
  obtain ⟨s₀, last, -, -, -, hiff, hsound⟩ :=
    run_sound_of_isLoopFree isSound_joining hnames hf isLoopFree_joining hrun hargs
  exact ⟨isSound_joining, hnames, hf, isLoopFree_joining, h, s', hrun, hargs, hfacts, hreturns,
    hsound (hiff.1 hfacts) _ hreturns⟩

/-- A word can get lost on the way: of two ways to a block the one that tells nothing of a parameter
does not count, and what is returned then is not in the table. -/
theorem run_not_sound_joining :
    joiningEnv.program.isSound = true ∧
    (joiningEnv.program.functions.map Function.name).Nodup ∧
    joining ∈ joiningEnv.program.functions ∧ joining.IsLoopFree ∧
    ∃ h s', (run joiningEnv).run joiningStart = .ok h s' ∧
      Admits joiningEnv s'.table joining (joiningArgs (.ofInt byte 200)) ∧
      Returns joining (joiningArgs (.ofInt byte 200)) (.ofInt byte 200) ∧
      ∃ stored, s'.table.get? (Location.ret joining.name).id = some stored ∧
        stored.contains 200 = false := by
  obtain ⟨h, s', hrun, hret, -⟩ := exists_run_joining
  exact ⟨isSound_joining, by decide, List.mem_singleton_self _, isLoopFree_joining, h, s', hrun,
    admits_joining _ _, returns_joining rfl, _, hret, by decide⟩

end Sweep

end RangeFlow
