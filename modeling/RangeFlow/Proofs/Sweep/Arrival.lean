import RangeFlow.Proofs.Sweep.Rearranged
import RangeFlow.Proofs.Sweep.Returns
import RangeFlow.Proofs.Sweep.Widths
import RangeFlow.Proofs.Sweep.Yields

/-!
# Facts arrive

A sweep takes the blocks in the order in which they are laid out.  If each comes after those that
lead to it, and after those from which its phis take values (`Function.IsOrdered`), then whatever is
available where a variable is read has been swept before: a fact that its definition left has been
carried along the edges, unless one of them leaves the variable no value, or the definition was a
quotient by zero.  Where that does not happen (`Env.IsOpen`), a run finds all that can be known.
-/

namespace RangeFlow

/-- The labels of the blocks from which the phis of a block take values. -/
def Block.phiLabels (b : Block) : List String :=
  b.instrs.flatMap fun i ↦
    match i.action with
    | .assign _ (.phi _ entries) => entries.map PhiEntry.label
    | _ => []

/-- Blocks are laid out after those that lead to them, and after those from which their phis take
values. -/
structure Function.IsOrdered (f : Function) : Prop where
  forward : f.IsForward
  phis : f.blocks.Pairwise (fun b c ↦ c.label ∉ b.phiLabels) ∧
    ∀ b ∈ f.blocks, b.label ∉ b.phiLabels

instance (f : Function) : Decidable f.IsOrdered :=
  decidable_of_iff (f.IsForward ∧ _) ⟨fun h ↦ ⟨h.1, h.2⟩, fun h ↦ ⟨h.forward, h.phis⟩⟩

/-- The blocks named by a phi are among those from which phis take values. -/
theorem Block.mem_phiLabels {b : Block} {i : Instr} (hi : i ∈ b.instrs) {x : String} {t : Ty}
    {entries : List PhiEntry} (ha : i.action = .assign x (.phi t entries)) {entry : PhiEntry}
    (h : entry ∈ entries) : entry.label ∈ b.phiLabels := by
  refine List.mem_flatMap.2 ⟨i, hi, ?_⟩
  simp only [ha]
  exact List.mem_map_of_mem h

namespace Function.IsOrdered

variable {f : Function} {before after : List Block} {b c : Block}

/-- If no later block is related to a block, nor the block itself, then what is related to it comes
before. -/
theorem mem_before_of_pairwise {R : Block → Block → Prop} (heq : f.blocks = before ++ b :: after)
    (hpairs : f.blocks.Pairwise fun b c ↦ ¬R c b) (hself : ∀ b ∈ f.blocks, ¬R b b)
    (hc : c ∈ f.blocks) (h : R c b) : c ∈ before := by
  have hb := hself b (by simp [heq])
  rw [heq] at hpairs hc
  rcases List.mem_append.1 hc with hc | hc
  · exact hc
  · rcases List.mem_cons.1 hc with rfl | hc
    · exact absurd h hb
    · have hrest := List.pairwise_cons.1 (List.pairwise_append.1 hpairs).2.1
      exact absurd h (hrest.1 c hc)

/-- A block that leads to another one is laid out before it. -/
theorem mem_before (h : f.IsOrdered) (heq : f.blocks = before ++ b :: after) (hc : c ∈ f.blocks)
    (hl : b.label ∈ c.targets) : c ∈ before :=
  mem_before_of_pairwise heq h.forward.1 h.forward.2 hc hl

/-- A block from which a phi takes a value is laid out before it. -/
theorem mem_before_of_phi (h : f.IsOrdered) (heq : f.blocks = before ++ b :: after)
    (hc : c ∈ f.blocks) (hl : c.label ∈ b.phiLabels) : c ∈ before :=
  mem_before_of_pairwise (R := fun c b ↦ c.label ∈ b.phiLabels) heq h.phis.1 h.phis.2 hc hl

end Function.IsOrdered

namespace Sweep

variable {e : Env} {f : Function} {s s' t u : State}

/-! ## Edges -/

/-- Brings the facts of one of the predecessors into a block. -/
def mergeAlong (e : Env) (f : Function) (loops : OrderedSet Edge) (label source : String) :
    SweepM Unit := do
  if (⟨source, label⟩ : Edge) ∈ loops then return
  match f.block? source with
  | some b => mergeFrom e f label b
  | none => return

theorem mergePredecessors_eq (e : Env) (f : Function) (g : Flow) (loops : OrderedSet Edge)
    (label : String) : mergePredecessors e f g loops label =
      (g.predecessors label).forM (mergeAlong e f loops label) := rfl

/-- A round that begins in a state comes to the edge between two blocks in another one. -/
def Crosses (e : Env) (s : State) (f : Function) (source b : Block) (t : State) : Prop :=
  ∃ loops g s₁ s₂ before after,
    Comes (sweepFunction e) e.defined (beginRound e s) f s₁ ∧
    f.backEdges = .ok loops ∧ f.flow = .ok g ∧
    Comes (sweepBlock e f g loops) f.blocks (beginFunction f s₁) b s₂ ∧
    g.predecessors b.label = before ++ source.label :: after ∧
    f.block? source.label = some source ∧
    (before.forM (mergeAlong e f loops b.label)).run s₂ = .ok () t

/-- In a round that begins in the state no divisor is zero and nothing else, and no edge leaves a
variable without a value that its block has a fact about.  A variable that reads ids is left out,
since it is read from the table again. -/
structure Env.IsOpen (e : Env) (s : State) : Prop where
  divides : ∀ f b site i x v t, Visits e s f b (site, i) t → i.action = .assign x v →
    e.Divides f b.label t v
  edges : ∀ f source b t m u, Crosses e s f source b t →
    (edgeFacts e f source b.label).run t = .ok m u → ∀ x r, (∀ ty, e.sources f x ty = .ok []) →
      t.Knows f source.label x → m.get? (.var x) = some r → r.isEmpty = false

/-- An accepted program that was read from a text and is laid out in order. -/
structure Env.Straight (e : Env) : Prop extends e.Ready where
  names : (e.program.functions.map Function.name).Nodup
  labels : ∀ f ∈ e.program.functions, f.labels.Nodup
  ordered : ∀ f ∈ e.program.functions, f.IsOrdered

theorem Env.Straight.checked (h : e.Straight) (hf : f ∈ e.program.functions) : Checked e f := by
  obtain ⟨g, hg⟩ := exists_flow_of_isSound h.sound hf
  have htyping : Typing f f.varTypes := typing_of_isSound h.sound hf hg
  refine ⟨hf, h.names, htyping, fun i hi o ho ↦ ?_, h.typed f hf⟩
  rintro x t rfl
  exact Function.get?_type_of_isSound h.sound hf htyping hi ho

/-! ## The sweep over a function -/

/-- A round over a program in order that changes nothing, without edges or divisors that end what
is known. -/
structure Env.Rests (e : Env) (s s' : State) : Prop where
  straight : e.Straight
  isOpen : e.IsOpen s
  steady : e.Steady s
  round : (round e).run s = .ok false s'

/-- Such a round comes to a function. -/
structure Course (e : Env) (s s' : State) (f : Function) (s₁ : State) (g : Flow) : Prop
    extends e.Rests s s' where
  comes : Comes (sweepFunction e) e.defined (beginRound e s) f s₁
  flow : f.flow = .ok g

/-- A state of the sweep over a function, with the given table. -/
structure Amid (f : Function) (T : RangeTable String) (t : State) : Prop where
  table : t.table = T
  key : f.name ∈ t.facts.keys
  filled : t.Filled

theorem Amid.later {T : RangeTable String} (h : Amid f T t) (htu : Later f t u) : Amid f T u :=
  ⟨htu.table.trans h.table, htu.key h.key, htu.extends_.filled h.filled⟩

namespace Later

/-- Parts that change nothing in the table lead on, one after the other. -/
theorem anyOf {α : Type} {act : α → SweepM Bool} {as : List α}
    (h : ∀ a ∈ as, ∀ s t, (act a).run s = .ok false t → Later f s t)
    (hrun : (anyOf act as).run s = .ok false t) : Later f s t := by
  induction as generalizing s with
  | nil =>
    obtain ⟨-, rfl⟩ := run_pure_eq_ok.1 hrun
    exact .refl f s
  | cons a as ih =>
    obtain ⟨u, hfirst, hrest⟩ := run_anyOf_cons_eq_ok_false.1 hrun
    exact (h a List.mem_cons_self _ _ hfirst).trans
      (ih (fun b hb ↦ h b (List.mem_cons_of_mem a hb)) hrest)

/-- What reports no change leaves the table alone. -/
theorem of_reports {l : String} {m : SweepM Bool}
    (h : Composed e f l (fun _ ↦ True) (fun _ ↦ True) m) (hreports : Reports m)
    (hrun : m.run s = .ok false t) : Later f s t :=
  .of_composed h hrun ((hreports s t false hrun).eq_of_false rfl)

/-- A visit that changes nothing in the table leads on. -/
theorem visit (hf : f ∈ e.program.functions) {b : Block} (hb : b ∈ f.blocks)
    {loops : OrderedSet Edge} {p : Site × Instr} (hp : p ∈ b.sites f.name)
    (hrun : (visit e f loops b.label p).run s = .ok false t) : Later f s t :=
  .of_reports (.visit (.trivial f) hf (fun _ _ ↦ ⟨⟩) loops (mem_instrs_of_mem_sites hb hp) p.1)
    (.visit loops hb hp) hrun

/-- A sweep over a block that changes nothing in the table leads on. -/
theorem sweepBlock (hf : f ∈ e.program.functions) {b : Block} (hb : b ∈ f.blocks) {g : Flow}
    {loops : OrderedSet Edge} (hrun : (sweepBlock e f g loops b).run s = .ok false t) :
    Later f s t :=
  .of_reports (.sweepBlock (.trivial f) hf (fun _ _ ↦ ⟨⟩) g loops hb) (.sweepBlock g loops hb) hrun

theorem mergeAlong {loops : OrderedSet Edge} {l source : String} {c : Unit}
    (hrun : (mergeAlong e f loops l source).run s = .ok c t) : Later f s t := by
  have hcomposed : Composed e f l (fun _ ↦ False) (fun _ ↦ True)
      (Sweep.mergeAlong e f loops l source) := by
    unfold Sweep.mergeAlong
    split
    · exact .pure _
    · split
      · rename_i b hb
        exact .mergeFrom (.trivial f) (Function.mem_of_block? hb).1
      · exact .pure _
  exact .of_quiet hcomposed hrun

end Later

namespace Course

variable {s₁ v w : State} {g : Flow} {b : Block} {before after : List Block} {x : String}

theorem mem_defined (c : Course e s s' f s₁ g) : f ∈ e.defined :=
  (c.comes.run_eq_ok (fun f _ ↦ .sweepFunction e f) (round_eq_ok.1 c.round)).1

theorem mem (c : Course e s s' f s₁ g) : f ∈ e.program.functions :=
  mem_functions_of_mem_defined c.mem_defined

theorem ordered (c : Course e s s' f s₁ g) : f.IsOrdered := c.straight.ordered f c.mem

/-- A function in order has no back edges. -/
theorem backEdges (c : Course e s s' f s₁ g) : f.backEdges = .ok ∅ := by
  obtain ⟨loops, hloops⟩ := exists_backEdges c.straight.toReady c.mem_defined
  rw [hloops, backEdges_of_isForward c.ordered.forward hloops]

theorem typing (c : Course e s s' f s₁ g) : Typing f f.varTypes := (c.straight.checked c.mem).typing

theorem block?_eq_some (c : Course e s s' f s₁ g) {l : String} :
    f.block? l = some b ↔ b ∈ f.blocks ∧ b.label = l :=
  Function.block?_eq_some (c.straight.labels f c.mem)

/-- No block of the function reports a change. -/
theorem exists_run (c : Course e s s' f s₁ g) :
    ∃ t, (anyOf (sweepBlock e f g ∅) f.blocks).run (beginFunction f s₁) = .ok false t := by
  obtain ⟨-, -, t, ht⟩ :=
    c.comes.run_eq_ok (fun f _ ↦ .sweepFunction e f) (round_eq_ok.1 c.round)
  obtain ⟨loops, g', hloops, hg', hrun⟩ := sweepFunction_eq_ok.1 ht
  rw [c.backEdges] at hloops
  rw [c.flow] at hg'
  cases hloops
  cases hg'
  exact ⟨t, hrun⟩

theorem amid_begin (c : Course e s s' f s₁ g) : Amid f s'.table (beginFunction f s₁) := by
  obtain ⟨-, htable, -⟩ :=
    c.comes.run_eq_ok (fun f _ ↦ .sweepFunction e f) (round_eq_ok.1 c.round)
  have hbegin : e.Steady (beginRound e s) := c.steady.of_facts_eq rfl
  obtain ⟨-, hs₁⟩ := Maintains.of_comes (fun f hf ↦ sweepFunction_steady
    (fun _ ↦ c.straight.checked) (mem_functions_of_mem_defined hf)) c.comes hbegin
  refine ⟨?_, OrderedMap.mem_keys_insert.2 (.inr rfl), (hs₁.beginFunction f).filled⟩
  exact htable.trans (table_of_round_false c.round).symm

/-! ## Blocks -/

/-- The blocks up to one have been swept. -/
structure Passes (_ : Course e s s' f s₁ g) (before after : List Block) (t : State) : Prop where
  blocks : f.blocks = before ++ after
  run : (anyOf (sweepBlock e f g ∅) before).run (beginFunction f s₁) = .ok false t

variable {c : Course e s s' f s₁ g}

theorem Passes.mem (h : c.Passes before after t) (hb : b ∈ before ++ after) : b ∈ f.blocks :=
  h.blocks ▸ hb

theorem Passes.amid (h : c.Passes before after t) : Amid f s'.table t :=
  c.amid_begin.later <| .anyOf
    (fun _ hb _ _ ↦ .sweepBlock c.mem (h.mem (List.mem_append_left _ hb))) h.run

theorem Passes.comes (h : c.Passes before (b :: after) t) :
    Comes (sweepBlock e f g ∅) f.blocks (beginFunction f s₁) b t :=
  ⟨before, after, false, h.blocks, h.run⟩

/-- The next block has been merged into, and its instructions carried out. -/
structure Enters (c : Course e s s' f s₁ g) (before : List Block) (b : Block) (after : List Block)
    (t u v : State) : Prop where
  passes : c.Passes before (b :: after) t
  merge : (mergePredecessors e f g ∅ b.label).run t = .ok () u
  visits : (anyOf (visit e f ∅ b.label) (b.sites f.name)).run u = .ok false v

/-- The last block that was swept was entered after those before it. -/
theorem Passes.snoc (h : c.Passes (before ++ [b]) after v) :
    ∃ t u, c.Enters before b after t u v := by
  obtain ⟨t, ht, hlast⟩ := run_anyOf_append_eq_ok_false.1 h.run
  obtain ⟨_, hblock, hnil⟩ := run_anyOf_cons_eq_ok_false.1 hlast
  obtain ⟨-, rfl⟩ := run_pure_eq_ok.1 hnil
  obtain ⟨⟨⟩, u, hmerge, hvisits⟩ := run_bind_eq_ok.1 hblock
  exact ⟨t, u, ⟨by rw [h.blocks]; simp, ht⟩, hmerge, hvisits⟩

namespace Enters

theorem mem (h : c.Enters before b after t u v) : b ∈ f.blocks := h.passes.mem (by simp)

theorem later_merge (h : c.Enters before b after t u v) : Later f t u :=
  .of_quiet (.mergePredecessors (.trivial f) g ∅) h.merge

theorem amid (h : c.Enters before b after t u v) : Amid f s'.table u :=
  h.passes.amid.later h.later_merge

/-- The instructions of a block lead on from where its facts were merged. -/
theorem later_visits (h : c.Enters before b after t u v) : Later f u v :=
  .anyOf (fun _ hp _ _ ↦ .visit c.mem h.mem hp) h.visits

end Enters

/-! ## Variables that are made -/

end Course

/-- A variable whose definition leaves a fact about it, whenever a round that begins in the state
comes there. -/
structure Env.Makes (e : Env) (s : State) (f : Function) (x : String) : Prop where
  supported : ∃ i ∈ f.instrs, ∃ v, i.action = .assign x v ∧ v.supports ≠ []
  told : ∀ b site i t u, Visits e s f b (site, i) t → i.result? = some x →
    (visit e f ∅ b.label (site, i)).run t = .ok false u → u.Knows f b.label x

namespace Env.Makes

variable {x : String}

theorem notMem_params (h : e.Makes s f x) (ht : Typing f f.varTypes) : x ∉ f.paramNames := by
  obtain ⟨i, hi, v, ha, -⟩ := h.supported
  exact ht.fresh i hi x (by simp [Instr.result?, ha])

/-- A definition that leaves a fact is supported by some operands. -/
theorem supports_ne_nil (h : e.Makes s f x) (ht : Typing f f.varTypes) {i : Instr}
    (hi : i ∈ f.instrs) {v : Value} (ha : i.action = .assign x v) : v.supports ≠ [] := by
  obtain ⟨j, hj, w, hw, hsupports⟩ := h.supported
  obtain rfl : j = i := eq_of_filterMap_nodup (b := x) ht.once hj hi (by simp [Instr.result?, hw])
    (by simp [Instr.result?, ha])
  rw [ha] at hw
  cases hw
  exact hsupports

/-- It reads no id. -/
theorem sources_eq (h : e.Makes s f x) (ht : Typing f f.varTypes) (ty : Ty) :
    e.sources f x ty = .ok [] := by
  obtain ⟨i, hi, v, ha, hsupports⟩ := h.supported
  have hdef : f.definition? x = some v := ht.definition?_of_assign hi ha
  have hlocation : e.program.valueLocation f (.var x ty) = .ok none := by
    unfold Program.valueLocation
    dsimp only
    rw [Function.paramIndex?_eq_none.2 (h.notMem_params ht), hdef]
    cases v with
    | load | call => exact absurd rfl hsupports
    | binary | compare | cast | select | phi | alloca | field | elem => rfl
  have hresult : e.resultOf f x = [] := by
    rw [List.eq_nil_iff_forall_not_mem]
    intro name hname
    obtain ⟨site, j, call, hj, hjx, hcall, -⟩ := (mem_resultOf ht).1 hname
    obtain ⟨b, hb, hj⟩ := List.mem_flatMap.1 hj
    have hassign := j.action_of_call? hcall hjx
    exact absurd rfl (h.supports_ne_nil ht (mem_instrs_of_mem_sites hb hj) hassign)
  unfold Env.sources
  rw [hlocation, hresult]
  rfl

end Env.Makes

namespace Course

variable {s₁ v : State} {g : Flow} {b : Block} {before after : List Block} {x : String}
variable {c : Course e s s' f s₁ g}

/-- What all blocks that lead to a block tell of a variable is brought along the first edge. -/
theorem Enters.knows_of_merge (h : c.Enters before b after t u v) (hx : e.Makes s f x)
    (hknown : ∀ q ∈ before, x ∈ (f.availability g).atEnd q.label → t.Knows f q.label x)
    (hin : x ∈ f.availableIn g (f.availability g) b.label) : u.Knows f b.label x := by
  obtain ⟨source, rest, hpreds⟩ : ∃ source rest, g.predecessors b.label = source :: rest := by
    refine List.exists_cons_of_ne_nil fun hnil ↦ ?_
    exact hx.notMem_params c.typing ((Function.mem_availableIn_of_nil hnil).1 hin)
  have hmem : source ∈ g.predecessors b.label := by
    rw [hpreds]
    exact List.mem_cons_self
  have hend := (Function.mem_availableIn (List.ne_nil_of_mem hmem)).1 hin source hmem
  obtain ⟨q, hq, rfl, hl⟩ := (mem_predecessors c.flow).1 hmem
  have hbefore := c.ordered.mem_before h.passes.blocks hq (Block.mem_targets.2 hl)
  have hblock : f.block? q.label = some q := c.block?_eq_some.2 ⟨hq, rfl⟩
  have hknows := hknown q hbefore hend
  have hrun := h.merge
  rw [mergePredecessors_eq, hpreds] at hrun
  obtain ⟨⟨⟩, t₁, hfirst, hrest⟩ := run_bind_eq_ok.1 hrun
  have hcross : Crosses e s f q b t := ⟨∅, g, s₁, t, [], rest, c.comes, c.backEdges, c.flow,
    h.passes.comes, hpreds, hblock, run_pure_eq_ok.2 ⟨rfl, rfl⟩⟩
  simp only [mergeAlong, OrderedSet.notMem_empty, if_false, hblock] at hfirst
  refine (Later.forM (fun k _ s t _ hk ↦ Later.mergeAlong hk) hrest).knows ?_
  obtain ⟨m, t₂, hedge, hjoin⟩ := run_bind_eq_ok.1 hfirst
  obtain ⟨_, _, hget, hjoin⟩ := run_bind_eq_ok.1 hjoin
  obtain ⟨rfl, rfl⟩ := run_get_eq_ok.1 hget
  have hlater : Later f t t₂ := .of_quiet (l := b.label) (.edgeFacts (.trivial f) hq b.label) hedge
  have hamid := h.passes.amid.later hlater
  obtain ⟨r, hr⟩ := hlater.knows hknows
  have hall := OrderedMap.get?_insertAll_entries (t₂.blockFacts f.name q.label) m (.var x)
  cases hm : m.get? (.var x) with
  | some r' =>
    rw [hm, Option.some_or] at hall
    have hfilled := c.isOpen.edges f q b t m t₂ hcross hedge x r' (hx.sources_eq c.typing) hknows hm
    exact knows_of_joinFacts hamid.key hall hfilled hjoin
  | none =>
    rw [hm, Option.none_or, hr] at hall
    exact knows_of_joinFacts hamid.key hall (hamid.filled _ _ _ r hr) hjoin

section Instructions

variable {done rest : List (Site × Instr)} {p : Site × Instr}

/-- Some of the instructions lead on from where the facts were merged. -/
theorem Enters.later_done (h : c.Enters before b after t u v) (heq : b.sites f.name = done ++ rest)
    (hrun : (anyOf (visit e f ∅ b.label) done).run u = .ok false w) : Later f u w := by
  refine .anyOf (fun p hp _ _ ↦ .visit c.mem h.mem ?_) hrun
  rw [heq]
  exact List.mem_append_left _ hp

/-- After some of the instructions the round comes to the next one. -/
theorem Enters.visits_of_done (h : c.Enters before b after t u v)
    (heq : b.sites f.name = done ++ p :: rest)
    (hrun : (anyOf (visit e f ∅ b.label) done).run u = .ok false w) : Visits e s f b p w :=
  ⟨∅, g, s₁, t, u, c.comes, c.backEdges, c.flow, h.passes.comes, h.merge, done, rest, false, heq,
    hrun⟩

/-- What an instruction has made is known from then on. -/
theorem Enters.knows_of_result (h : c.Enters before b after t u v) (hx : e.Makes s f x)
    (heq : b.sites f.name = done ++ rest)
    (hrun : (anyOf (visit e f ∅ b.label) done).run u = .ok false w)
    (hres : x ∈ (done.map Prod.snd).filterMap Instr.result?) : w.Knows f b.label x := by
  rw [List.filterMap_map] at hres
  obtain ⟨⟨site, i⟩, hp, hi⟩ := List.mem_filterMap.1 hres
  obtain ⟨done, between, rfl⟩ := List.append_of_mem hp
  rw [List.append_assoc, List.cons_append] at heq
  obtain ⟨w₁, hfirst, hrest⟩ := run_anyOf_append_eq_ok_false.1 hrun
  obtain ⟨w₂, hvisit, hrest⟩ := run_anyOf_cons_eq_ok_false.1 hrest
  have htold := hx.told b site i w₁ w₂ (h.visits_of_done heq hfirst) hi hvisit
  refine (Later.anyOf (fun p hp _ _ ↦ .visit c.mem h.mem ?_) hrest).knows htold
  rw [heq]
  simp [hp]

/-- What is available at the end of a block is known there once it has been swept. -/
theorem Passes.knows (h : c.Passes before after t) (hx : e.Makes s f x) {q : Block}
    (hq : q ∈ before) (hend : x ∈ (f.availability g).atEnd q.label) : t.Knows f q.label x := by
  induction before using List.reverseRecOn generalizing after t q with
  | nil => cases hq
  | append_singleton before b ih =>
    obtain ⟨t₁, u, henters⟩ := h.snoc
    have hearlier (q : Block) (hq : q ∈ before)
        (hend : x ∈ (f.availability g).atEnd q.label) : t₁.Knows f q.label x :=
      ih henters.passes hq hend
    rcases List.mem_append.1 hq with hq | hq
    · exact (henters.later_merge.trans henters.later_visits).knows (hearlier q hq hend)
    · obtain rfl := List.mem_singleton.1 hq
      have hblock : f.block? q.label = some q := c.block?_eq_some.2 ⟨henters.mem, rfl⟩
      rcases Function.mem_of_mem_atEnd hblock hend with hin | hresult
      · exact henters.later_visits.knows (henters.knows_of_merge hx hearlier hin)
      · refine henters.knows_of_result hx (List.append_nil _).symm henters.visits ?_
        rw [map_snd_sites]
        exact hresult

/-- The sweep has come to an instruction of a block. -/
def Stands (c : Course e s s' f s₁ g) (b : Block) (p : Site × Instr) (w : State) : Prop :=
  ∃ before after t u v done rest, c.Enters before b after t u v ∧
    b.sites f.name = done ++ p :: rest ∧ (anyOf (visit e f ∅ b.label) done).run u = .ok false w

theorem Stands.amid (h : c.Stands b p w) : Amid f s'.table w := by
  obtain ⟨before, after, t, u, v, done, rest, henters, heq, hrun⟩ := h
  exact henters.amid.later (henters.later_done heq hrun)

/-- The instruction is carried out, and changes nothing in the table. -/
theorem Stands.exists_run (h : c.Stands b p w) :
    ∃ w', (visit e f ∅ b.label p).run w = .ok false w' := by
  obtain ⟨before, after, t, u, v, done, rest, henters, heq, hrun⟩ := h
  have hcomes : Comes (visit e f ∅ b.label) (b.sites f.name) u p w := ⟨done, rest, false, heq, hrun⟩
  exact (hcomes.run_eq_ok (fun p hp ↦ .visit ∅ henters.mem hp) henters.visits).2.2

theorem Stands.visits (h : c.Stands b p w) : Visits e s f b p w := by
  obtain ⟨before, after, t, u, v, done, rest, henters, heq, hrun⟩ := h
  exact henters.visits_of_done heq hrun

/-- A variable that is made is known where it is read. -/
theorem Stands.knows (h : c.Stands b p w) (hx : e.Makes s f x) (hphi : p.2.isPhi = false) {ty : Ty}
    (hop : .var x ty ∈ p.2.operands) : w.Knows f b.label x := by
  obtain ⟨before, after, t, u, v, done, rest, henters, heq, hrun⟩ := h
  have hinstrs : b.instrs = done.map Prod.snd ++ p.2 :: rest.map Prod.snd := by
    rw [← map_snd_sites b f.name, heq, List.map_append, List.map_cons]
  obtain ⟨a, huse, hiff⟩ := Function.useDefects_of_isSound c.straight.sound c.mem c.flow
    henters.mem hinstrs
  rcases (hiff x).1 (mem_of_useDefects_eq_nil huse hphi hop) with hin | hres
  · refine (henters.later_done heq hrun).knows (henters.knows_of_merge hx (fun q hq ↦ ?_) hin)
    exact henters.passes.knows hx hq
  · exact henters.knows_of_result hx heq hrun hres

/-- A variable that is made is known where a phi takes it. -/
theorem Stands.knows_of_phi (h : c.Stands b p w) (hx : e.Makes s f x) {y : String} {ty u : Ty}
    {entries : List PhiEntry} (ha : p.2.action = .assign y (.phi u entries)) {l : String}
    (hentry : ⟨l, .var x ty⟩ ∈ entries) : w.Knows f l x := by
  obtain ⟨before, after, t, u, v, done, rest, henters, heq, hrun⟩ := h
  have hinstrs : b.instrs = done.map Prod.snd ++ p.2 :: rest.map Prod.snd := by
    rw [← map_snd_sites b f.name, heq, List.map_append, List.map_cons]
  obtain ⟨a, huse, -⟩ := Function.useDefects_of_isSound c.straight.sound c.mem c.flow
    henters.mem hinstrs
  have hend := mem_atEnd_of_useDefects_eq_nil huse ha hentry
  have hi : p.2 ∈ b.instrs := by simp [hinstrs]
  have hmem : p.2 ∈ f.instrs := List.mem_flatMap.2 ⟨b, henters.mem, hi⟩
  have hhas : f.hasBlock l = true := by
    refine hasBlock_of_isSound c.straight.sound c.mem hmem ?_
    simp only [Instr.labels, Action.labels, ha]
    exact List.mem_map_of_mem (f := PhiEntry.label) hentry
  obtain ⟨q, hq⟩ := Option.isSome_iff_exists.1 hhas
  obtain ⟨hqmem, rfl⟩ := c.block?_eq_some.1 hq
  have hbefore := c.ordered.mem_before_of_phi henters.passes.blocks hqmem
    (Block.mem_phiLabels hi ha hentry)
  exact (henters.later_merge.trans (henters.later_done heq hrun)).knows
    (henters.passes.knows hx hbefore hend)

end Instructions

end Course

/-- Where a round comes to an instruction, the sweep over its function has come there. -/
theorem Env.Rests.exists_stands (h : e.Rests s s') {b : Block} {p : Site × Instr}
    (hv : Visits e s f b p t) : ∃ s₁ g, ∃ c : Course e s s' f s₁ g, c.Stands b p t := by
  obtain ⟨loops, g, s₁, s₂, s₃, hf, hloops, hg, hb, hmerge, hp⟩ := hv
  have c : Course e s s' f s₁ g := ⟨h, hf, hg⟩
  rw [c.backEdges] at hloops
  cases hloops
  obtain ⟨_, hblocks⟩ := c.exists_run
  obtain ⟨before, after, _, heq, hbefore, hblock, -⟩ := hb.exists_append hblocks
  obtain ⟨_, _, hmerge', hvisits⟩ := run_bind_eq_ok.1 hblock
  rw [hmerge] at hmerge'
  cases hmerge'
  obtain ⟨done, rest, _, hsites, hdone, -⟩ := hp.exists_append hvisits
  exact ⟨s₁, g, c, before, after, s₂, s₃, _, done, rest, ⟨⟨heq, hbefore⟩, hmerge, hvisits⟩, hsites,
    hdone⟩

end Sweep

end RangeFlow
