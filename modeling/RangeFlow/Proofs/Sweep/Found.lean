import RangeFlow.Proofs.Sweep.Arrival

/-!
# What can be known is found

In a program that is laid out in order, a round that changes nothing and in which no known fact ends
(`Env.Rests`) has found all that can be known.  An id that is known has a range with members in the
table.  A variable that is known either reads such an id, or its definition leaves a fact about it
wherever the round comes there; the address that something is stored through may be known as well,
but is never read as an integer.
-/

namespace RangeFlow

/-- What supports a value are operands of its instruction. -/
theorem Value.mem_operands_of_mem_supports (v : Value) {os : List Operand} (hos : os ∈ v.supports)
    {o : Operand} (ho : o ∈ os) (x : String) : o ∈ (Action.assign x v).operands := by
  cases v with
  | binary op ty a b =>
    obtain rfl := List.mem_singleton.1 hos
    cases op <;> simp_all [BinaryOp.reads, Action.operands]
  | cast op source a target =>
    cases op <;> simp_all [Value.supports, Action.operands]
  | select ty c a b =>
    simp only [Value.supports] at hos
    split at hos
    · simp only [List.mem_cons, List.not_mem_nil, or_false] at hos
      rcases hos with rfl | rfl <;> simp_all [Action.operands]
    · cases hos
  | phi ty entries =>
    simp only [Value.supports] at hos
    split at hos
    · obtain ⟨entry, hentry, rfl⟩ := List.mem_map.1 hos
      obtain rfl := List.mem_singleton.1 ho
      exact List.mem_map_of_mem hentry
    · cases hos
  | compare => simp_all [Value.supports]
  | load | alloca | field | elem | call => cases hos

theorem Instr.isPhi_of_call? {i : Instr} {c : Call} (h : i.call? = some c) : i.isPhi = false := by
  rcases action_cases_of_call? h with ha | ⟨x, ha⟩ <;> simp [isPhi, ha]

namespace Sweep

variable {e : Env} {f : Function} {s s' t u v w : State} {x id : String} {r : Range}

/-! ## Ids stay stored -/

namespace Stored

variable {T U : RangeTable String} {b : Bool}

/-- A range joined with one that has members has members. -/
theorem isEmpty_joined (T : RangeTable String) (id : String) (hr : r.isEmpty = false) :
    (T.joined id r).isEmpty = false := by
  unfold RangeTable.joined Range.joinInto
  cases T.get? id with
  | none => exact hr
  | some old => simp [Range.isEmpty_union (Range.width_conform old r).symm, hr]

/-- An id that covers a range with members stores one. -/
theorem of_covered (h : Covered T id r) (hr : r.isEmpty = false) : Stored T id := by
  rcases h with h | h
  · rw [hr] at h
    cases h
  · exact ⟨_, h, isEmpty_joined T id hr⟩

/-- Joining a range with members to an id stores it. -/
theorem of_union (T : RangeTable String) (id : String) (hr : r.isEmpty = false) :
    Stored (T.union id r).1 id := by
  rcases T.union_cases id r with ⟨hu, hcov⟩ | ⟨hu, -⟩
  · rw [hu]
    exact of_covered hcov hr
  · rw [hu]
    exact ⟨_, OrderedMap.get?_insert_self _ _ _, isEmpty_joined T id hr⟩

theorem grows {ids : String → Prop} (h : Stored T id) (hg : T.Grows ids b U) : Stored U id := by
  induction hg with
  | refl => exact h
  | @offer w _ id' r' _ _ ih =>
    rcases w.union_cases id' r' with ⟨hu, -⟩ | ⟨hu, hr, -⟩
    · rw [hu]
      exact ih
    · by_cases hid : id = id'
      · rw [hid]
        exact of_union w id' hr
      · obtain ⟨q, hq, hfilled⟩ := ih
        rw [hu]
        exact ⟨q, (OrderedMap.get?_insert_of_ne _ _ hid).trans hq, hfilled⟩

/-- Widening keeps an id stored. -/
theorem beginRound (h : Stored s.table id) : Stored (beginRound e s).table id := by
  obtain ⟨q, hq, hfilled⟩ := h
  unfold Stored
  rw [get?_beginRound, hq]
  split
  · exact ⟨_, rfl, Range.isEmpty_full q.width⟩
  · exact ⟨q, rfl, hfilled⟩

theorem reaches (h : Stored s.table id) (hr : Reaches e s t) : Stored t.table id := by
  induction hr with
  | refl => exact h
  | tail _ hstep ih => exact ih.beginRound.grows (round_grows hstep)

end Stored

/-- Puts an initial value into the table. -/
def seedLeaf (leaf : Except Fault Leaf) : SweepM Unit := do
  let leaf ← ofExcept leaf
  let _ ← offer leaf.location.id leaf.range none

/-- Seeding puts the initial values into the table one after the other. -/
theorem seed_eq (e : Env) : seed e = e.program.leaves.forM seedLeaf := rfl

theorem run_seedLeaf_eq_ok {k : Except Fault Leaf} {a : Unit} (h : (seedLeaf k).run s = .ok a t) :
    ∃ leaf, k = .ok leaf ∧ t.table = (s.table.union leaf.location.id leaf.range).1 := by
  obtain ⟨leaf, _, hleaf, hrun⟩ := run_bind_eq_ok.1 h
  obtain ⟨rfl, rfl⟩ := run_ofExcept_eq_ok.1 hleaf
  obtain ⟨_, _, hoffer, hrun⟩ := run_bind_eq_ok.1 hrun
  obtain ⟨-, rfl⟩ := run_pure_eq_ok.1 hrun
  obtain ⟨log, -, -, rfl⟩ := run_offer_eq_ok.1 hoffer
  exact ⟨leaf, rfl, rfl⟩

theorem Stored.seedLeaves {ks : List (Except Fault Leaf)} {a : Unit} (h : Stored s.table id)
    (hrun : (ks.forM seedLeaf).run s = .ok a t) : Stored t.table id := by
  induction ks generalizing s with
  | nil =>
    obtain ⟨-, rfl⟩ := run_pure_eq_ok.1 hrun
    exact h
  | cons k ks ih =>
    obtain ⟨_, u, hfirst, hrest⟩ := run_bind_eq_ok.1 hrun
    obtain ⟨leaf, -, htable⟩ := run_seedLeaf_eq_ok hfirst
    refine ih ?_ hrest
    have hgrows : s.table.Grows (fun _ ↦ True) _ (s.table.union leaf.location.id leaf.range).1 :=
      .offer leaf.range (.refl _) ⟨⟩
    rw [htable]
    exact h.grows hgrows

/-- An initial value is stored from the start. -/
theorem stored_of_seed {leaf : Leaf} (hleaf : .ok leaf ∈ e.program.leaves)
    (hfilled : leaf.range.isEmpty = false) {a : Unit} (hrun : (seed e).run s = .ok a t) :
    Stored t.table leaf.location.id := by
  rw [seed_eq] at hrun
  generalize e.program.leaves = ks at hrun hleaf
  induction ks generalizing s with
  | nil => cases hleaf
  | cons k ks ih =>
    obtain ⟨_, u, hfirst, hrest⟩ := run_bind_eq_ok.1 hrun
    rcases List.mem_cons.1 hleaf with rfl | hleaf
    · refine Stored.seedLeaves ?_ hrest
      obtain ⟨_, hl, htable⟩ := run_seedLeaf_eq_ok hfirst
      cases hl
      rw [htable]
      exact .of_union _ _ hfilled
    · exact ih hrest hleaf

/-! ## Variables that are read -/

/-- Wherever it is read as an integer, the variable has members: it reads an id that has some, or
its definition makes them, or it is an address. -/
def Env.Holds (e : Env) (s : State) (T : RangeTable String) (f : Function) (x : String) : Prop :=
  e.Supplies T f x ∨ e.Makes s f x ∨ f.varTypes.get? x = some .ptr

/-- What is known of the topic is found. -/
def Found (e : Env) (s : State) (T : RangeTable String) : Topic → Prop
  | .id id => Stored T id
  | .var name x => ∀ f ∈ e.defined, f.name = name → e.Holds s T f x

/-- A variable about which all is found has members where it is read. -/
theorem Found.holds {T : RangeTable String} {o : Operand} (hf : f ∈ e.defined)
    (h : ∀ t ∈ o.topics f.name, Found e s T t) {ty : Ty} (ho : o = .var x ty) :
    e.Holds s T f x := by
  subst ho
  exact h (.var f.name x) List.mem_cons_self f hf rfl

/-- An operand has members if the variable that it reads has. -/
theorem Amid.yields {T : RangeTable String} {l : String} {o : Operand} (h : Amid f T w)
    (ht : f.ReadsAtType o) (hx : ∀ x ty, o = .var x ty →
      e.Supplies T f x ∨ w.Knows f l x ∨ f.varTypes.get? x = some .ptr) :
    e.Yields f l w o := by
  cases o with
  | literal => exact .literal
  | symbol => exact .symbol
  | var x ty =>
    rcases hx x ty rfl with hsupplies | hknows | hptr
    · exact .of_supplies h.filled (h.table ▸ hsupplies)
    · exact .of_knows h.filled hknows
    · rw [ht x ty rfl] at hptr
      cases hptr
      exact .of_isInt rfl

namespace Later

variable {i : Instr} {l : String}

/-- Arguments that are offered without a change lead on. -/
theorem offerArgs (hi : i ∈ f.instrs) {call : Call} (hc : i.call? = some call) {callee : String}
    (hrun : (offerArgs e f l i call callee).run s = .ok false t) : Later f s t :=
  .of_reports (.offerArgs (.trivial f) hi hc (fun _ _ ↦ ⟨⟩) callee) (.offerArgs i call callee) hrun

theorem offerArg {target : Function} {arg : Operand × Nat}
    (hrun : (offerArg e f l i target arg).run s = .ok false t) : Later f s t := by
  have hcomposed : Composed e f l (fun _ ↦ True) (fun _ ↦ True)
      (Sweep.offerArg e f l i target arg) := by
    obtain ⟨o, k⟩ := arg
    simp only [Sweep.offerArg]
    split
    · exact .pure _
    · exact .bind (.read _ ⟨⟩) fun _ ↦ .offer _ _ ⟨⟩
  exact .of_reports hcomposed (.offerArg i target arg) hrun

end Later

namespace Course

variable {s₁ : State} {g : Flow} {b : Block} {p : Site × Instr} {o : Operand}
variable {c : Course e s s' f s₁ g}

theorem Stands.mem_sites (h : c.Stands b p w) : b ∈ f.blocks ∧ p ∈ b.sites f.name := by
  obtain ⟨before, after, t, u, v, done, rest, henters, heq, -⟩ := h
  exact ⟨henters.mem, by simp [heq]⟩

theorem Stands.mem (h : c.Stands b p w) : p.2 ∈ f.instrs :=
  mem_instrs_of_mem_sites h.mem_sites.1 h.mem_sites.2

/-- An operand with members has them where the sweep stands. -/
theorem Stands.yields (h : c.Stands b p w) (hphi : p.2.isPhi = false) (ho : o ∈ p.2.operands)
    (hx : ∀ x ty, o = .var x ty → e.Holds s s'.table f x) : e.Yields f b.label w o := by
  refine h.amid.yields ((c.straight.checked c.mem).operand _ h.mem o ho) ?_
  rintro x ty rfl
  exact (hx x ty rfl).imp_right (Or.imp_left fun hmakes ↦ h.knows hmakes hphi ho)

/-- The value that a phi takes from a block has members at the end of that block. -/
theorem Stands.yields_of_phi (h : c.Stands b p w) {y l : String} {ty : Ty}
    {entries : List PhiEntry} (ha : p.2.action = .assign y (.phi ty entries))
    (ho : ⟨l, o⟩ ∈ entries) (hx : ∀ x ty, o = .var x ty → e.Holds s s'.table f x) :
    e.Yields f l w o := by
  have hop : o ∈ p.2.operands := by
    simp only [Instr.operands, ha, Action.operands]
    exact List.mem_map_of_mem (f := PhiEntry.value) ho
  refine h.amid.yields ((c.straight.checked c.mem).operand _ h.mem o hop) ?_
  rintro x ty rfl
  exact (hx x ty rfl).imp_right (Or.imp_left fun hmakes ↦ h.knows_of_phi hmakes ha ho)

/-- The instruction is carried out, and reports no change. -/
theorem Stands.exists_perform {site : Site} {i : Instr} (h : c.Stands b (site, i) w) :
    ∃ w', (perform e f ∅ b.label site i).run w = .ok false w' :=
  h.exists_run.imp fun _ ↦ visit_eq_ok

/-! ## Instructions -/

variable {site : Site} {i : Instr}

/-- What a variable is assigned is kept as a fact, if it has members. -/
theorem Stands.knows_of_value (h : c.Stands b (site, i) w) {val : Value} {os : List Operand}
    (ha : i.action = .assign x val) (hos : os ∈ val.supports)
    (hx : ∀ o ∈ os, ∀ y ty, o = .var y ty → e.Holds s s'.table f y)
    (hrun : (perform e f ∅ b.label site i).run w = .ok false v) : v.Knows f b.label x := by
  have hyields (o : Operand) (ho : o ∈ os) (k : String) (hk : val.ReadsFrom b.label k o) :
      e.Yields f k w o := by
    have hop := val.mem_operands_of_mem_supports hos ho x
    rw [← ha] at hop
    cases val with
    | phi ty entries => exact h.yields_of_phi ha hk (hx o ho)
    | binary | compare | cast | select | load | alloca | field | elem | call =>
      obtain rfl : k = b.label := hk
      exact h.yields (by simp [Instr.isPhi, ha]) hop (hx o ho)
  have hdivides := c.isOpen.divides f b site i x val w h.visits ha
  have hcall (call : Call) : val ≠ .call call := by
    rintro rfl
    cases hos
  obtain ⟨r?, u, hvalue, -, -, hjoined⟩ := exists_valueRange_of_perform ha hcall hrun
  obtain ⟨r, rfl, hr⟩ := isEmpty_valueRange hos hyields hdivides hvalue
  obtain ⟨_, hjoin⟩ := hjoined r rfl
  have hlater : Later f w u := .of_quiet (l := b.label)
    (.valueRange (Composed.valueReads_of_mem (.trivial f) h.mem ha)) hvalue
  exact knows_of_joinFact (h.amid.later hlater).key hr hjoin

/-- A store of a value with members leaves its location with members. -/
theorem Stands.stored_of_store (h : c.Stands b (site, i) w) {ty : Ty} {value address : Operand}
    {l : Location} (ha : i.action = .store ty value address) (hint : value.ty.isInt = true)
    (hloc : e.program.memoryLocation f address = .ok (some l))
    (hx : ∀ x ty, value = .var x ty → e.Holds s s'.table f x) : Stored s'.table l.id := by
  obtain ⟨_, hrun⟩ := h.exists_perform
  have hyields : e.Yields f b.label w value :=
    h.yields (by simp [Instr.isPhi, ha]) (by simp [Instr.operands, ha, Action.operands]) hx
  have hstore := hrun
  simp only [perform, ha, visitStore, hint, Bool.not_true, Bool.false_eq_true, if_false] at hstore
  obtain ⟨r, u, hr, -⟩ := run_bind_eq_ok.1 hstore
  rw [← h.amid.table]
  exact .of_covered ((Offers.store ha hint hloc hr).covered hrun) (hyields w u r (.refl f w) hr)

/-- A return of a value with members leaves the return slot with members. -/
theorem Stands.stored_of_ret (h : c.Stands b (site, i) w) {ty : Ty} {value : Operand}
    (ha : i.action = .finish (.ret ty value)) (hint : ty.isInt = true)
    (hx : ∀ x ty, value = .var x ty → e.Holds s s'.table f x) :
    Stored s'.table (Location.ret f.name).id := by
  obtain ⟨_, hrun⟩ := h.exists_perform
  have hyields : e.Yields f b.label w value :=
    h.yields (by simp [Instr.isPhi, ha]) (by simp [Instr.operands, ha, Action.operands]) hx
  have hret := hrun
  simp only [perform, ha, visitReturn, hint, Bool.not_true, Bool.false_eq_true, if_false] at hret
  obtain ⟨r, u, hr, -⟩ := run_bind_eq_ok.1 hret
  rw [← h.amid.table]
  exact .of_covered ((Offers.ret ha hint hr).covered hrun) (hyields w u r (.refl f w) hr)

section Calls

variable {call : Call} {callee : String}

/-- A call with an argument with members leaves the parameter with members. -/
theorem Stands.stored_of_arg (h : c.Stands b (site, i) w) (hc : i.call? = some call)
    (hcallee : callee ∈ e.resolver.callees site call) {target : Function}
    (htarget : e.program.function? callee = some target)
    (hflags : (target.isVararg || target.isIntrinsic) = false) {arg : Operand} {index : Nat}
    (harg : (arg, index) ∈ (call.args.take target.params.length).zipIdx)
    (hint : arg.ty.isInt = true)
    (hx : ∀ x ty, arg = .var x ty → e.Holds s s'.table f x) :
    Stored s'.table (Location.arg target.name index).id := by
  obtain ⟨_, hrun⟩ := h.exists_perform
  rw [perform_of_call? hc] at hrun
  have hmem : callee ∈ (e.resolver.callees site call).toList := hcallee
  obtain ⟨u, hargs, -⟩ := visitCall_eq_ok_false (List.ne_nil_of_mem hmem) hrun
  obtain ⟨u₁, hcomes⟩ := exists_comes hargs hmem
  obtain ⟨done, _, _, -, hdone, hthis, -⟩ := hcomes.exists_append hargs
  simp only [offerArgs, htarget, hflags] at hthis
  obtain ⟨u₂, hcomes⟩ := exists_comes hthis harg
  obtain ⟨done', _, _, -, hdone', hthis, -⟩ := hcomes.exists_append hthis
  have hlater : Later f w u₂ := (Later.anyOf (fun _ _ _ _ ↦ .offerArgs h.mem hc) hdone).trans
    (.anyOf (fun _ _ _ _ ↦ .offerArg) hdone')
  have hoffer := hthis
  simp only [offerArg, hint, Bool.not_true, Bool.false_eq_true, if_false] at hoffer
  obtain ⟨r, u₃, hr, -⟩ := run_bind_eq_ok.1 hoffer
  obtain ⟨hlt, hget⟩ := List.mem_zipIdx' harg
  have hop : arg ∈ i.operands :=
    i.mem_operands_of_call? hc (List.mem_of_mem_take (hget ▸ List.getElem_mem hlt))
  rw [← h.amid.table, ← hlater.table]
  exact .of_covered (covered_of_offerArg hint hr hthis)
    (h.yields (i.isPhi_of_call? hc) hop hx u₂ u₃ r hlater hr)

/-- The result of a call is offered to an id of its own. -/
theorem Stands.stored_of_result (h : c.Stands b (site, i) w)
    (ha : i.action = .assign x (.call call)) (hint : call.returns.isInt = true)
    (hcallee : callee ∈ e.resolver.callees site call) (hx : e.Holds s s'.table f x) :
    Stored s'.table (Location.callResult f.name x).id := by
  have hc : i.call? = some call := by simp [Instr.call?, ha]
  have hsupplies : e.Supplies s'.table f x := by
    rcases hx with hsupplies | hmakes | hptr
    · exact hsupplies
    · exact absurd rfl (hmakes.supports_ne_nil c.typing h.mem ha)
    · rw [c.typing.result i h.mem x _ ha] at hptr
      have hty : call.returns = .ptr := Option.some.inj hptr
      rw [hty] at hint
      cases hint
  obtain ⟨_, hrun⟩ := h.exists_perform
  rw [perform_of_call? hc] at hrun
  have hmem : callee ∈ (e.resolver.callees site call).toList := hcallee
  obtain ⟨u, hargs, hresult⟩ := visitCall_eq_ok_false (List.ne_nil_of_mem hmem) hrun
  have hthis := hresult x (by simp [Instr.result?, ha])
  have hlater : Later f w u := .anyOf (fun _ _ _ _ ↦ .offerArgs h.mem hc) hargs
  have hoffer := hthis
  simp only [offerResult, hint, Bool.not_true, Bool.false_eq_true, if_false] at hoffer
  obtain ⟨r, u₁, hr, -⟩ := run_bind_eq_ok.1 hoffer
  have hyields : e.Yields f b.label w (.var x call.returns) :=
    .of_supplies h.amid.filled (h.amid.table ▸ hsupplies)
  rw [← h.amid.table, ← hlater.table]
  exact .of_covered (covered_of_offerResult hint hr hthis) (hyields u u₁ r hlater hr)

end Calls

end Course

/-! ## All that is known -/

namespace Env.Rests

variable {site : Site} {i : Instr}

/-- A round comes to every instruction. -/
theorem exists_stands_of_mem_sites (h : e.Rests s s') (hf : f ∈ e.defined)
    (hi : (site, i) ∈ f.sites) :
    ∃ s₁ g, ∃ c : Course e s s' f s₁ g, ∃ b w, c.Stands b (site, i) w := by
  obtain ⟨b, hb, hp⟩ := List.mem_flatMap.1 hi
  obtain ⟨w, hv⟩ := exists_visits h.round hf hb hp
  obtain ⟨s₁, g, c, hstands⟩ := h.exists_stands hv
  exact ⟨s₁, g, c, b, w, hstands⟩

/-- The round comes to every instruction of a function with a body. -/
theorem exists_stands_of_mem (h : e.Rests s s') (hf : f ∈ e.defined) (hi : i ∈ f.instrs) :
    ∃ s₁ g, ∃ c : Course e s s' f s₁ g, ∃ b site w, c.Stands b (site, i) w := by
  rw [← map_snd_functionSites] at hi
  obtain ⟨⟨site, i⟩, hp, rfl⟩ := List.mem_map.1 hi
  obtain ⟨s₁, g, c, b, w, hstands⟩ := h.exists_stands_of_mem_sites hf hp
  exact ⟨s₁, g, c, b, site, w, hstands⟩

theorem makes (h : e.Rests s s') (hi : i ∈ f.instrs) {val : Value} {os : List Operand}
    (ha : i.action = .assign x val) (hos : os ∈ val.supports)
    (hx : ∀ o ∈ os, ∀ y ty, o = .var y ty → e.Holds s s'.table f y) : e.Makes s f x where
  supported := ⟨i, hi, val, ha, List.ne_nil_of_mem hos⟩
  told := by
    intro b site j t u hv hres hrun
    obtain ⟨s₁, g, c, hstands⟩ := h.exists_stands hv
    obtain rfl : j = i := eq_of_filterMap_nodup c.typing.once hstands.mem hi hres
      (by simp [Instr.result?, ha])
    exact hstands.knows_of_value ha hos hx (visit_eq_ok hrun)

/-- All that is known is found, if the initial values are stored. -/
theorem found (h : e.Rests s s') (hseed : ∀ leaf, .ok leaf ∈ e.program.leaves →
    leaf.range.isEmpty = false → Stored s'.table leaf.location.id) {topic : Topic}
    (hknown : Known e topic) : Found e s s'.table topic := by
  have hname {f g : Function} (hf : f ∈ e.defined) (hg : g ∈ e.defined) (heq : g.name = f.name) :
      g = f := by
    exact List.inj_on_of_nodup_map h.straight.names (mem_functions_of_mem_defined hg)
      (mem_functions_of_mem_defined hf) heq
  induction hknown with
  | intro hfeeds hbody ih =>
    cases hfeeds with
    | seeded hleaf hfilled => exact hseed _ hleaf hfilled
    | tainted hf hids hid htaint =>
      intro g hg heq
      obtain rfl := hname hf hg heq
      exact .inl ⟨_, _, _, hids, hid, .inl htaint⟩
    | read hf hids hid =>
      intro g hg heq
      obtain rfl := hname hf hg heq
      exact .inl ⟨_, _, _, hids, hid, .inr (ih _ List.mem_cons_self)⟩
    | value hf hi ha hos =>
      intro g hg heq
      obtain rfl := hname hf hg heq
      refine .inr (.inl (h.makes hi ha hos fun o ho y ty hy ↦ ?_))
      exact Found.holds hf (fun t ht ↦ ih t (List.mem_flatMap.2 ⟨o, ho, ht⟩)) hy
    | stored hf hi ha hint hloc =>
      obtain ⟨_, _, c, b, site, w, hstands⟩ := h.exists_stands_of_mem hf hi
      exact hstands.stored_of_store ha hint hloc fun x ty ↦ Found.holds hf ih
    | pointed hf hi ha hint =>
      intro g hg heq
      obtain rfl := hname hf hg heq
      have c := h.straight.checked (mem_functions_of_mem_defined hf)
      have htyped := c.typed _ hi
      rw [ha] at htyped
      obtain ⟨-, rfl⟩ := htyped
      exact .inr (.inr (c.operand _ hi _ (by simp [Instr.operands, ha, Action.operands]) _ _ rfl))
    | returned hf hi ha hint =>
      obtain ⟨_, _, c, b, site, w, hstands⟩ := h.exists_stands_of_mem hf hi
      exact hstands.stored_of_ret ha hint fun x ty ↦ Found.holds hf ih
    | passed hf hi hc hcallee htarget hflags harg hint =>
      obtain ⟨_, _, c, b, w, hstands⟩ := h.exists_stands_of_mem_sites hf hi
      exact hstands.stored_of_arg hc hcallee htarget hflags harg hint
        fun x ty ↦ Found.holds hf ih
    | answered hf hi ha hint hcallee =>
      obtain ⟨_, _, c, b, w, hstands⟩ := h.exists_stands_of_mem_sites hf hi
      exact hstands.stored_of_result ha hint hcallee (ih _ List.mem_cons_self _ hf rfl)

end Env.Rests

end Sweep

end RangeFlow
