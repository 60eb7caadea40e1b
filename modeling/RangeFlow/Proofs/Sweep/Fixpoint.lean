import RangeFlow.Proofs.Range.Lattice
import RangeFlow.Proofs.Sweep.Alike

/-!
# The final table is a fixpoint

The last round reports no change, so the table was the same all along: every range was read from
the final table, and every range that was offered was already covered.  A further round starts from
a state that looks alike, and therefore goes the same way.

## What is offered

A range is offered by an instruction at some moment of a round, in a state that the parts of the
round before it have left behind.  `Comes` is the moment at which an action comes to an element of
its list, `Visits` the moment at which a round comes to an instruction, and `Offers` says what an
instruction that is reached in a state offers.
-/

namespace RangeFlow

namespace Sweep

variable {α : Type} {e : Env} {f : Function} {s t s' last : State} {b : Bool}

/-! ## Further rounds -/

theorem changes_of_last (h : (round e).run last = .ok false s) : s.table.changes = ∅ := by
  rw [table_of_round_false h, changes_beginRound]

/-- After the last round nothing is left to widen. -/
theorem table_beginRound_of_last (h : (round e).run last = .ok false s) :
    (beginRound e s).table = s.table := by
  have hchanges := changes_of_last h
  have hwiden : s.table.widen s.table.changes.toList = s.table := by
    rw [hchanges]
    rfl
  unfold beginRound RangeTable.clearChanges
  simp only [hwiden, ite_self, ← hchanges]

theorem mem_keys_of_sweepFunction (hf : f ∈ e.program.functions)
    (h : (sweepFunction e f).run s = .ok b t) : f.name ∈ t.facts.keys := by
  obtain ⟨loops, g, -, -, h⟩ := sweepFunction_eq_ok.1 h
  have hblocks := anyOf_frame (fun b hb s t c hrun ↦
    (Composed.sweepBlock (.trivial f) hf (fun _ ↦ id) g loops hb).frame hrun) h
  exact hblocks.mem_keys (OrderedMap.mem_keys_insert.2 (.inr rfl))

theorem mem_keys_of_sweepFunctions {fs : List Function} (hfs : ∀ f ∈ fs, f ∈ e.program.functions)
    (h : (anyOf (sweepFunction e) fs).run s = .ok b t) (hf : f ∈ fs) : f.name ∈ t.facts.keys := by
  induction fs generalizing s b with
  | nil => cases hf
  | cons g fs ih =>
    obtain ⟨b₁, u, b₂, hu, ht, rfl⟩ := run_anyOf_cons_eq_ok.1 h
    have hfs' := fun f hf ↦ hfs f (List.mem_cons_of_mem g hf)
    rcases List.mem_cons.1 hf with rfl | hf
    · have hrest := anyOf_frame (fun f hf _ _ _ hrun ↦
        (sweepFunction_frame (hfs' f hf) hrun).mono fun _ _ ↦ True.intro) ht
      exact hrest.mem_keys (mem_keys_of_sweepFunction (hfs f List.mem_cons_self) hu)
    · exact ih hfs' ht hf

/-- A further round goes the way of the last one. -/
theorem round_again (h : (round e).run last = .ok false s) :
    ∃ t, (round e).run s = .ok false t ∧ t.table = s.table ∧ t.facts = s.facts := by
  have hfs : ∀ f ∈ e.defined, f ∈ e.program.functions := fun _ ↦ mem_functions_of_mem_defined
  have hbegin : Alike (fun _ ↦ False) (beginRound e last) (beginRound e s) := by
    refine ⟨?_, (round_frame h).mode.symm, fun _ ↦ False.elim⟩
    rw [← table_of_round_false h, table_beginRound_of_last h]
  obtain ⟨t, ht, halike⟩ := sweepFunctions_alike hfs hbegin (round_eq_ok.1 h)
  have ht' := round_eq_ok.2 ht
  refine ⟨t, ht', halike.table.symm, OrderedMap.ext_view ?_ fun g ↦ ?_⟩
  · refine (round_frame ht').keys_eq ?_
    rintro g ⟨f, hf, rfl⟩
    have hkey : f.name ∈ s.facts.keys := mem_keys_of_sweepFunctions hfs (round_eq_ok.1 h) hf
    exact hkey
  · by_cases hg : ∃ f ∈ e.defined, f.name = g
    · exact (halike.facts g (.inr hg)).symm
    · exact (round_frame ht').facts g hg

/-- Any number of further rounds goes the way of the last one. -/
theorem rounds_again (h : (round e).run last = .ok false s) (l : List Nat) :
    ∃ t, (anyOf (fun _ ↦ round e) l).run s = .ok false t ∧ t.table = s.table ∧
      t.facts = s.facts := by
  induction l generalizing last s with
  | nil => exact ⟨s, run_pure_eq_ok.2 ⟨rfl, rfl⟩, rfl, rfl⟩
  | cons n l ih =>
    obtain ⟨t, ht, htable, hfacts⟩ := round_again h
    obtain ⟨u, hu, hutable, hufacts⟩ := ih ht
    exact ⟨u, run_anyOf_cons_eq_ok.2 ⟨false, t, false, ht, hu, rfl⟩, hutable.trans htable,
      hufacts.trans hfacts⟩

/-! ## Moments of a round -/

/-- Running an action on a list comes to an element of it in a state. -/
def Comes (act : α → SweepM Bool) (xs : List α) (s : State) (x : α) (t : State) : Prop :=
  ∃ before after b, xs = before ++ x :: after ∧ (anyOf act before).run s = .ok b t

theorem Comes.mem {act : α → SweepM Bool} {xs : List α} {x : α} (h : Comes act xs s x t) :
    x ∈ xs := by
  obtain ⟨before, after, b, rfl, -⟩ := h
  simp

theorem run_anyOf_append_eq_ok {act : α → SweepM Bool} {as bs : List α} :
    (anyOf act (as ++ bs)).run s = .ok b t ↔
      ∃ b₁ u b₂, (anyOf act as).run s = .ok b₁ u ∧ (anyOf act bs).run u = .ok b₂ t ∧
        (b₁ || b₂) = b := by
  induction as generalizing s b with
  | nil =>
    constructor
    · exact fun h ↦ ⟨false, s, b, run_pure_eq_ok.2 ⟨rfl, rfl⟩, h, rfl⟩
    · rintro ⟨b₁, u, b₂, h₁, h₂, rfl⟩
      obtain ⟨rfl, rfl⟩ := run_pure_eq_ok.1 h₁
      exact h₂
  | cons a as ih =>
    rw [List.cons_append, run_anyOf_cons_eq_ok]
    constructor
    · rintro ⟨b₁, u, b₂, h₁, h₂, rfl⟩
      obtain ⟨b₃, v, b₄, h₃, h₄, rfl⟩ := ih.1 h₂
      exact ⟨b₁ || b₃, v, b₄, run_anyOf_cons_eq_ok.2 ⟨b₁, u, b₃, h₁, h₃, rfl⟩, h₄,
        Bool.or_assoc b₁ b₃ b₄⟩
    · rintro ⟨b₁, v, b₂, h₁, h₂, rfl⟩
      obtain ⟨b₃, u, b₄, h₃, h₄, rfl⟩ := run_anyOf_cons_eq_ok.1 h₁
      exact ⟨b₃, u, b₄ || b₂, h₃, ih.2 ⟨b₄, v, b₂, h₄, h₂, rfl⟩, (Bool.or_assoc b₃ b₄ b₂).symm⟩

theorem run_anyOf_append_eq_ok_false {act : α → SweepM Bool} {as bs : List α} :
    (anyOf act (as ++ bs)).run s = .ok false t ↔
      ∃ u, (anyOf act as).run s = .ok false u ∧ (anyOf act bs).run u = .ok false t := by
  rw [run_anyOf_append_eq_ok]
  constructor
  · rintro ⟨b₁, u, b₂, h₁, h₂, hor⟩
    obtain ⟨rfl, rfl⟩ := Bool.or_eq_false_iff.1 hor
    exact ⟨u, h₁, h₂⟩
  · rintro ⟨u, h₁, h₂⟩
    exact ⟨false, u, false, h₁, h₂, rfl⟩

/-- An action that is run on a list comes to each of its elements. -/
theorem exists_comes {act : α → SweepM Bool} {xs : List α} {x : α}
    (h : (anyOf act xs).run s = .ok b s') (hx : x ∈ xs) : ∃ t, Comes act xs s x t := by
  obtain ⟨before, after, rfl⟩ := List.append_of_mem hx
  obtain ⟨b₁, t, b₂, ht, -⟩ := run_anyOf_append_eq_ok.1 h
  exact ⟨t, before, after, b₁, rfl, ht⟩

/-- Where a run comes to an element, it carries out the action on it. -/
theorem Comes.exists_run {act : α → SweepM Bool} {xs : List α} {x : α} (h : Comes act xs s x t)
    (hrun : (anyOf act xs).run s = .ok b s') : ∃ b' t', (act x).run t = .ok b' t' := by
  obtain ⟨before, after, b, rfl, hb⟩ := h
  obtain ⟨b₁, u, b₂, hu, hrest, -⟩ := run_anyOf_append_eq_ok.1 hrun
  obtain ⟨b₃, t', b₄, hx, -⟩ := run_anyOf_cons_eq_ok.1 hrest
  rw [hb] at hu
  cases hu
  exact ⟨b₃, t', hx⟩

/-- If no element reports a change, then none before the one that is come to does. -/
theorem Comes.exists_append {act : α → SweepM Bool} {xs : List α} {x : α}
    (h : Comes act xs s x t) (hrun : (anyOf act xs).run s = .ok false s') :
    ∃ before after t', xs = before ++ x :: after ∧ (anyOf act before).run s = .ok false t ∧
      (act x).run t = .ok false t' ∧ (anyOf act after).run t' = .ok false s' := by
  obtain ⟨before, after, b, rfl, hb⟩ := h
  obtain ⟨u, hu, hrest⟩ := run_anyOf_append_eq_ok_false.1 hrun
  obtain ⟨t', hx, hafter⟩ := run_anyOf_cons_eq_ok_false.1 hrest
  rw [hb] at hu
  cases hu
  exact ⟨before, after, t', rfl, hb, hx, hafter⟩

/-- If no element reports a change, the table is the same at each of them. -/
theorem Comes.run_eq_ok {act : α → SweepM Bool} {xs : List α} {x : α}
    (hact : ∀ x ∈ xs, Reports (act x)) (h : Comes act xs s x t)
    (hrun : (anyOf act xs).run s = .ok false s') :
    x ∈ xs ∧ t.table = s.table ∧ ∃ t', (act x).run t = .ok false t' := by
  obtain ⟨before, after, t', rfl, hb, hx, -⟩ := h.exists_append hrun
  have hbefore : Reports (anyOf act before) :=
    .anyOf fun y hy ↦ hact y (List.mem_append_left _ hy)
  exact ⟨by simp, (hbefore s t _ hb).eq_of_false rfl, t', hx⟩

/-- A round that begins in a state comes to an instruction of a block in another one. -/
def Visits (e : Env) (s : State) (f : Function) (b : Block) (p : Site × Instr) (t : State) :
    Prop :=
  ∃ loops g s₁ s₂ s₃,
    Comes (sweepFunction e) e.defined (beginRound e s) f s₁ ∧
    f.backEdges = .ok loops ∧ f.flow = .ok g ∧
    Comes (sweepBlock e f g loops) f.blocks (beginFunction f s₁) b s₂ ∧
    (mergePredecessors e f g loops b.label).run s₂ = .ok () s₃ ∧
    Comes (visit e f loops b.label) (b.sites f.name) s₃ p t

/-- An instruction that is reached in a state offers a range to an id. -/
inductive Offers (e : Env) (f : Function) (label : String) (site : Site) (i : Instr) (s : State) :
    String → Range → Prop
  | store {ty : Ty} {value address : Operand} {l : Location} {r : Range} {t : State} :
    i.action = .store ty value address → value.ty.isInt = true →
    e.program.memoryLocation f address = .ok (some l) →
    (rangeOf e f label value).run s = .ok r t →
      Offers e f label site i s l.id r
  | ret {ty : Ty} {value : Operand} {r : Range} {t : State} :
    i.action = .finish (.ret ty value) → ty.isInt = true →
    (rangeOf e f label value).run s = .ok r t →
      Offers e f label site i s (Location.ret f.name).id r
  | arg {c : Call} {callee : String} {g : Function} {arg : Operand} {index : Nat} {r : Range}
      {s₁ s₂ t : State} :
    i.call? = some c →
    Comes (offerArgs e f label i c) (e.resolver.callees site c).toList s callee s₁ →
    e.program.function? callee = some g → (g.isVararg || g.isIntrinsic) = false →
    Comes (offerArg e f label i g) (c.args.take g.params.length).zipIdx s₁ (arg, index) s₂ →
    arg.ty.isInt = true → (rangeOf e f label arg).run s₂ = .ok r t →
      Offers e f label site i s (Location.arg g.name index).id r
  | result {x : String} {c : Call} {b : Bool} {r : Range} {s₁ t : State} :
    i.action = .assign x (.call c) → c.returns.isInt = true →
    (e.resolver.callees site c).toList ≠ [] →
    (anyOf (offerArgs e f label i c) (e.resolver.callees site c).toList).run s = .ok b s₁ →
    (rangeOf e f label (.var x c.returns)).run s₁ = .ok r t →
      Offers e f label site i s (Location.callResult f.name x).id r

/-- A visit that ends carries out the instruction. -/
theorem visit_eq_ok {loops : OrderedSet Edge} {label : String} {site : Site} {i : Instr}
    (h : (visit e f loops label (site, i)).run s = .ok b t) :
    (perform e f loops label site i).run s = .ok b t := by
  unfold visit at h
  dsimp only at h
  split at h
  · obtain ⟨_, _, hthrow, -⟩ := run_bind_eq_ok.1 h
    simp at hthrow
  · exact h

/-- A round that ends comes to every instruction. -/
theorem exists_visits (h : (round e).run s = .ok b t) (hf : f ∈ e.defined) {bl : Block}
    (hbl : bl ∈ f.blocks) {p : Site × Instr} (hp : p ∈ bl.sites f.name) :
    ∃ u, Visits e s f bl p u := by
  have hrun := round_eq_ok.1 h
  obtain ⟨s₁, hs₁⟩ := exists_comes hrun hf
  obtain ⟨_, _, hfun⟩ := hs₁.exists_run hrun
  obtain ⟨loops, g, hloops, hg, hblocks⟩ := sweepFunction_eq_ok.1 hfun
  obtain ⟨s₂, hs₂⟩ := exists_comes hblocks hbl
  obtain ⟨_, _, hblock⟩ := hs₂.exists_run hblocks
  obtain ⟨⟨⟩, s₃, hs₃, hvisits⟩ := run_bind_eq_ok.1 hblock
  obtain ⟨u, hu⟩ := exists_comes hvisits hp
  exact ⟨u, loops, g, s₁, s₂, s₃, hs₁, hloops, hg, hs₂, hs₃, hu⟩

/-- In a round that reports no change the table is the same at each instruction, and no instruction
reports a change. -/
theorem Visits.run_eq_ok {bl : Block} {p : Site × Instr} (h : (round e).run s = .ok false s')
    (hv : Visits e s f bl p t) :
    t.table = s'.table ∧ ∃ loops t', (visit e f loops bl.label p).run t = .ok false t' := by
  obtain ⟨loops, g, s₁, s₂, s₃, hs₁, hloops, hg, hs₂, hs₃, ht⟩ := hv
  obtain ⟨hf, htable₁, _, hfun⟩ :=
    hs₁.run_eq_ok (fun f _ ↦ .sweepFunction e f) (round_eq_ok.1 h)
  obtain ⟨loops', g', hloops', hg', hblocks⟩ := sweepFunction_eq_ok.1 hfun
  rw [hloops] at hloops'
  rw [hg] at hg'
  cases hloops'
  cases hg'
  obtain ⟨hbl, htable₂, _, hblock⟩ := hs₂.run_eq_ok (fun b hb ↦ .sweepBlock g loops hb) hblocks
  obtain ⟨_, s₃', hs₃', hvisits⟩ := run_bind_eq_ok.1 hblock
  rw [hs₃] at hs₃'
  cases hs₃'
  have htable₃ := (Composed.mergePredecessors (.trivial f) g loops).quiet s₂ ⟨⟩ s₃ hs₃
  obtain ⟨-, htable, t', ht'⟩ := ht.run_eq_ok (fun p hp ↦ .visit loops hbl hp) hvisits
  refine ⟨?_, loops, t', ht'⟩
  calc t.table = s₃.table := htable
    _ = s₂.table := htable₃
    _ = (beginFunction f s₁).table := htable₂
    _ = (beginRound e s).table := htable₁
    _ = s'.table := (table_of_round_false h).symm

/-! ## What is offered is covered -/

/-- What is offered to an id is empty, or joining it changes nothing. -/
def Covered (t : RangeTable String) (id : String) (r : Range) : Prop :=
  r.isEmpty = true ∨ t.get? id = some (t.joined id r)

theorem covered_of_offer {id : String} {r : Range} {origin : Option Origin}
    (h : (offer id r origin).run s = .ok false t) : Covered s.table id r := by
  obtain ⟨log, -, hfalse, -⟩ := run_offer_eq_ok.1 h
  rcases s.table.union_cases id r with ⟨-, hcov⟩ | ⟨hu, -⟩
  · exact hcov
  · rw [hu] at hfalse
    cases hfalse

/-- What is covered is empty, or its words at the stored width were stored already. -/
theorem Covered.subset {t : RangeTable String} {id : String} {r : Range} (h : Covered t id r) :
    r.isEmpty = true ∨ ∃ stored, t.get? id = some stored ∧ ∀ x ∈ stored.conform r, x ∈ stored := by
  rcases h with h | h
  · exact .inl h
  · refine .inr ⟨_, h, fun x hx ↦ ?_⟩
    cases hid : t.get? id with
    | none => simp [hid] at h
    | some stored =>
      have hjoin : t.joined id r = stored.union (stored.conform r) := by
        simp [RangeTable.joined, Range.joinInto, hid]
      rw [hid, Option.some.injEq] at h
      rw [← h] at hx ⊢
      rw [h, hjoin]
      exact Range.mem_union (Range.width_conform stored r).symm (.inr hx)

/-- An instruction with a call is carried out as a call. -/
theorem perform_of_call? {loops : OrderedSet Edge} {label : String} {site : Site} {i : Instr}
    {c : Call} (h : i.call? = some c) :
    perform e f loops label site i = visitCall e f label site i c := by
  unfold perform
  rcases i.action_cases_of_call? h with ha | ⟨x, ha⟩ <;> rw [ha]

/-- A call that reports no change has seen none at its arguments and none at its result. -/
theorem visitCall_eq_ok_false {label : String} {site : Site} {i : Instr} {c : Call}
    (hne : (e.resolver.callees site c).toList ≠ [])
    (h : (visitCall e f label site i c).run s = .ok false t) :
    ∃ u, (anyOf (offerArgs e f label i c) (e.resolver.callees site c).toList).run s = .ok false u ∧
      ∀ x, i.result? = some x → (offerResult e f label i x c.returns).run u = .ok false t := by
  unfold visitCall at h
  dsimp only at h
  rw [if_neg (by simpa using hne)] at h
  obtain ⟨b, u, hu, h⟩ := run_bind_eq_ok.1 h
  split at h
  · rename_i x hx
    simp only [run_bind_eq_ok, run_pure_eq_ok] at h
    obtain ⟨b', _, hres, hor, rfl⟩ := h
    rw [Bool.or_eq_false_iff] at hor
    rw [hor.2] at hu
    rw [hor.1] at hres
    refine ⟨u, hu, fun y hy ↦ ?_⟩
    rw [hx] at hy
    cases hy
    exact hres
  · rename_i hnone
    obtain ⟨rfl, rfl⟩ := run_pure_eq_ok.1 h
    exact ⟨u, hu, fun x hx ↦ by simp [hnone] at hx⟩

/-- What is done with a range after it was read. -/
theorem run_of_rangeOf_bind {label : String} {o : Operand} {r : Range} {k : Range → SweepM Bool}
    {u : State} (hr : (rangeOf e f label o).run s = .ok r u)
    (hrun : (rangeOf e f label o >>= k).run s = .ok b t) :
    (k r).run u = .ok b t ∧ u.table = s.table := by
  obtain ⟨r', u', hr', hk⟩ := run_bind_eq_ok.1 hrun
  refine ⟨?_, Quiet.rangeOf label o s r u hr⟩
  rw [hr] at hr'
  cases hr'
  exact hk

/-- The range of a stored value is covered if the store changed nothing. -/
theorem covered_of_offerStored {i : Instr} {address : Operand} {l : Location} {r : Range}
    (hloc : e.program.memoryLocation f address = .ok (some l))
    (hrun : (offerStored e f i address r).run s = .ok false t) : Covered s.table l.id r := by
  simp only [offerStored, hloc, run_bind_eq_ok, run_ofExcept_eq_ok] at hrun
  obtain ⟨_, _, ⟨heq, rfl⟩, hrun⟩ := hrun
  cases heq
  exact covered_of_offer hrun

/-- What a store offers to its location is covered if it changed nothing. -/
theorem covered_of_visitStore {label : String} {i : Instr} {value address : Operand} {l : Location}
    {r : Range} {u : State} (hint : value.ty.isInt = true)
    (hloc : e.program.memoryLocation f address = .ok (some l))
    (hr : (rangeOf e f label value).run s = .ok r u)
    (hrun : (visitStore e f label i value address).run s = .ok false t) :
    Covered s.table l.id r := by
  unfold visitStore at hrun
  rw [hint] at hrun
  obtain ⟨hrun, htable⟩ := run_of_rangeOf_bind hr hrun
  rw [← htable]
  split at hrun
  · -- The fact about the address is joined first, which leaves the table alone.
    obtain ⟨_, v, hv, hrun⟩ := run_bind_eq_ok.1 hrun
    rw [← Quiet.joinFact _ _ _ u _ v hv]
    exact covered_of_offerStored hloc hrun
  · exact covered_of_offerStored hloc hrun

/-- What a return offers to the return slot is covered if it changed nothing. -/
theorem covered_of_visitReturn {label : String} {i : Instr} {ty : Ty} {value : Operand} {r : Range}
    {u : State} (hint : ty.isInt = true) (hr : (rangeOf e f label value).run s = .ok r u)
    (hrun : (visitReturn e f label i ty value).run s = .ok false t) :
    Covered s.table (Location.ret f.name).id r := by
  unfold visitReturn at hrun
  rw [hint] at hrun
  obtain ⟨hoffer, htable⟩ := run_of_rangeOf_bind hr hrun
  rw [← htable]
  exact covered_of_offer hoffer

/-- What a call offers to a parameter is covered if it changed nothing. -/
theorem covered_of_offerArg {label : String} {i : Instr} {g : Function} {arg : Operand}
    {index : Nat} {r : Range} {u : State} (hint : arg.ty.isInt = true)
    (hr : (rangeOf e f label arg).run s = .ok r u)
    (hrun : (offerArg e f label i g (arg, index)).run s = .ok false t) :
    Covered s.table (Location.arg g.name index).id r := by
  simp only [offerArg, hint, Bool.not_true, Bool.false_eq_true, if_false] at hrun
  obtain ⟨hoffer, htable⟩ := run_of_rangeOf_bind hr hrun
  rw [← htable]
  exact covered_of_offer hoffer

/-- What a call offers for its result is covered if it changed nothing. -/
theorem covered_of_offerResult {label : String} {i : Instr} {x : String} {ty : Ty} {r : Range}
    {u : State} (hint : ty.isInt = true) (hr : (rangeOf e f label (.var x ty)).run s = .ok r u)
    (hrun : (offerResult e f label i x ty).run s = .ok false t) :
    Covered s.table (Location.callResult f.name x).id r := by
  unfold offerResult at hrun
  rw [hint] at hrun
  obtain ⟨hrun, htable⟩ := run_of_rangeOf_bind hr hrun
  obtain ⟨_, v, hv, hoffer⟩ := run_bind_eq_ok.1 hrun
  rw [← htable, ← Quiet.joinFact _ _ _ u _ v hv]
  exact covered_of_offer hoffer

/-- What an instruction that reports no change has offered is covered. -/
theorem Offers.covered {loops : OrderedSet Edge} {label : String} {site : Site} {i : Instr}
    {id : String} {r : Range} (h : Offers e f label site i s id r)
    (hrun : (perform e f loops label site i).run s = .ok false t) : Covered s.table id r := by
  cases h with
  | store ha hint hloc hr =>
    simp only [perform, ha] at hrun
    exact covered_of_visitStore hint hloc hr hrun
  | ret ha hint hr =>
    simp only [perform, ha] at hrun
    exact covered_of_visitReturn hint hr hrun
  | @arg c callee g arg index _ s₁ s₂ _ hc hs₁ hg hflags hs₂ hint hr =>
    rw [perform_of_call? hc] at hrun
    obtain ⟨v, hv, -⟩ := visitCall_eq_ok_false (List.ne_nil_of_mem hs₁.mem) hrun
    obtain ⟨-, htable₁, _, hargs⟩ := hs₁.run_eq_ok (fun callee _ ↦ .offerArgs i c callee) hv
    simp only [offerArgs, hg, hflags] at hargs
    obtain ⟨-, htable₂, _, harg⟩ := hs₂.run_eq_ok (fun arg _ ↦ .offerArg i g arg) hargs
    rw [← htable₁, ← htable₂]
    exact covered_of_offerArg hint hr harg
  | @result x c b _ s₁ _ ha hint hne hs₁ hr =>
    have hc : i.call? = some c := by simp [Instr.call?, ha]
    rw [perform_of_call? hc] at hrun
    obtain ⟨v, hv, hres⟩ := visitCall_eq_ok_false hne hrun
    rw [hs₁] at hv
    cases hv
    have hargs : Reports
        (anyOf (offerArgs e f label i c) (e.resolver.callees site c).toList) :=
      .anyOf fun callee _ ↦ .offerArgs i c callee
    rw [← (hargs s s₁ false hs₁).eq_of_false rfl]
    exact covered_of_offerResult hint hr (hres x (by simp [Instr.result?, ha]))

/-- **The final table is a fixpoint.**  Any number of further rounds reports no change, leaves the
table as it is and rebuilds the same facts.  The last round comes to every instruction of every
function, and every range that one of them offers is empty, or at the width of the stored range a
part of it. -/
theorem run_fixpoint {h : History} (hrun : (run e).run s = .ok h s') :
    (∀ n, ∃ t, (anyOf (fun _ ↦ round e) (List.range n)).run s' = .ok false t ∧
      t.table = s'.table ∧ t.facts = s'.facts) ∧
    ∃ s₀ last, (seed e).run s = .ok () s₀ ∧ Reaches e s₀ last ∧
      (round e).run last = .ok false s' ∧
      (∀ f ∈ e.defined, ∀ b ∈ f.blocks, ∀ p ∈ b.sites f.name, ∃ t, Visits e last f b p t) ∧
      ∀ f b site i t id r, Visits e last f b (site, i) t → Offers e f b.label site i t id r →
        r.isEmpty = true ∨
          ∃ stored, s'.table.get? id = some stored ∧ ∀ x ∈ stored.conform r, x ∈ stored := by
  obtain ⟨s₀, hseed, -, hrounds⟩ := run_eq_ok.1 hrun
  obtain ⟨last, hlast, hstop⟩ := exists_last_of_rounds hrounds
  refine ⟨fun n ↦ rounds_again hstop _, s₀, last, hseed, hlast, hstop, ?_, ?_⟩
  · intro f hf b hb p hp
    exact exists_visits hstop hf hb hp
  · intro f b site i t id r hv ho
    obtain ⟨htable, loops, t', ht'⟩ := hv.run_eq_ok hstop
    rw [← htable]
    exact (ho.covered (visit_eq_ok ht')).subset

/-- After the run three more rounds leave the table and the facts as they are. -/
theorem run_fixpoint_counting :
    ∃ h s', (run countingEnv).run countingStart = .ok h s' ∧
      ∃ t, (anyOf (fun _ ↦ round countingEnv) (List.range 3)).run s' = .ok false t ∧
        t.table = s'.table ∧ t.facts = s'.facts := by
  obtain ⟨h, s', hrun⟩ := exists_run_counting
  exact ⟨h, s', hrun, (run_fixpoint hrun).1 3⟩

end Sweep

end RangeFlow
