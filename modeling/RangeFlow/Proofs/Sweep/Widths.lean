import RangeFlow.Proofs.Check.Assignment
import RangeFlow.Proofs.Range.Arith
import RangeFlow.Proofs.Source.Reparse
import RangeFlow.Proofs.Sweep.Moments

/-!
# Widths of facts

Facts about an integer variable have the width of its type at every moment of every sweep over an
accepted program that was read from a text, and none is empty.  Facts about other subjects may have
any width: memory that is reached through a pointer has no type of its own.
-/

namespace RangeFlow

/-! ## What the check grants -/

namespace Function

/-- A fact about a subject can have this width: about an integer variable, only that of its type. -/
def Allows (f : Function) (k : Subject) (w : Width) : Prop :=
  ∀ x u, k = .var x → f.varTypes.get? x = some (.int u) → w = u

/-- The operand is read at the type of its variable. -/
def ReadsAtType (f : Function) (o : Operand) : Prop :=
  ∀ x t, o = .var x t → f.varTypes.get? x = some t

variable {f : Function} {r : Range}

/-- A variable that is read at its type can have a fact of this width. -/
theorem ReadsAtType.allows {x : String} {t : Ty} (h : f.ReadsAtType (.var x t))
    (hr : t = .int r.width) : f.Allows (.var x) r.width := by
  rintro y u hy hu
  cases hy
  rw [h x t rfl, hr, Option.some.injEq, Ty.int.injEq] at hu
  exact hu

end Function

namespace Sweep

/-- A function of an accepted program that was read from a text. -/
structure Checked (e : Env) (f : Function) : Prop where
  mem : f ∈ e.program.functions
  names : (e.program.functions.map Function.name).Nodup
  typing : Typing f f.varTypes
  operand : ∀ i ∈ f.instrs, ∀ o ∈ i.operands, f.ReadsAtType o
  typed : ∀ i ∈ f.instrs, i.action.IsTyped

/-- All facts of the functions of the program can have their widths. -/
def Env.Fits (e : Env) (s : State) : Prop :=
  ∀ f ∈ e.program.functions, ∀ l, (s.blockFacts f.name l).AllHave f.Allows

variable {e : Env} {f : Function} {l : String} {s t : State} {i : Instr}

theorem Env.Fits.of_facts_eq (hs : e.Fits s) (h : t.facts = s.facts) : e.Fits t := by
  intro f hf l
  rw [blockFacts_eq_of_facts_eq h]
  exact hs f hf l

namespace Checked

/-- What the check grants holds for the functions of an accepted program that is read from a text.
-/
theorem checked_of_parse {text : String} (hparse : Program.parse text = .ok e.program)
    (hsound : e.program.isSound = true) (hf : f ∈ e.program.functions) : Checked e f := by
  obtain ⟨g, hg⟩ := exists_flow_of_isSound hsound hf
  have htyping : Typing f f.varTypes := typing_of_isSound hsound hf hg
  refine ⟨hf, (Program.isRead_of_parse hparse).functionNames, htyping, fun i hi o ho ↦ ?_,
    fun i hi ↦ Program.isTyped_of_parse hparse hf hi⟩
  rintro x t rfl
  exact Function.get?_type_of_isSound hsound hf htyping hi ho

theorem readsAtType_of_assign (c : Checked e f) (hi : i ∈ f.instrs) {x : String} {v : Value}
    (ha : i.action = .assign x v) : f.ReadsAtType (.var x v.ty) := by
  rintro y t hy
  cases hy
  exact c.typing.result i hi x v ha

/-- The facts of a block of the function can be replaced. -/
theorem setBlockFacts (c : Checked e f) (hs : e.Fits s) {m : Facts} (hm : m.AllHave f.Allows) :
    e.Fits (s.setBlockFacts f.name l m) := by
  intro g hg k
  rcases blockFacts_setBlockFacts_cases s f.name l g.name k m with heq | ⟨hname, -, heq⟩
  · rw [heq]
    exact hs g hg k
  · obtain rfl : g = f := List.inj_on_of_nodup_map c.names hg c.mem hname
    rw [heq]
    exact hm

/-! ## Operations -/

/-- The range of an operand has the width of its type. -/
theorem rangeOf_maintains (c : Checked e f) {o : Operand} (ho : f.ReadsAtType o) :
    Maintains e.Fits (rangeOf e f l o) fun r ↦ o.ty = .int r.width where
  keeps := by
    intro s hs
    rcases endState_rangeOf o with hend | ⟨x, w, ids, rfl, -, -, hend⟩
    · rw [hend]
      exact hs
    · rw [hend]
      refine c.setBlockFacts hs ((hs f c.mem l).insert (ho.allows ?_))
      rw [width_readIds]
  gives := by
    intro s t r hs hrun
    cases o with
    | literal v w =>
      obtain ⟨-, rfl, -⟩ := run_rangeOf_literal_eq_ok.1 hrun
      rw [Range.width_singleton]
      rfl
    | symbol name => exact absurd hrun run_throw_eq_ok.1
    | var x ty =>
      obtain ⟨w, hty, hrun⟩ := run_rangeOf_var_eq_ok.1 hrun
      obtain rfl : ty = .int w := by cases ty <;> simp_all [Ty.width?]
      rcases hrun with ⟨hr, -⟩ | ⟨-, -, ids, -, rfl, -⟩
      · rw [hs f c.mem l _ r hr x w rfl (ho x _ rfl)]
        rfl
      · rw [width_readIds]
        rfl

theorem conformed_maintains (first second : Range) :
    Maintains e.Fits (conformed first second) fun r ↦ r = first.conform second where
  keeps hs := hs.of_facts_eq (facts_endState_conformed first second)
  gives := by
    intro s t r _ hrun
    obtain ⟨_, -, rfl, -⟩ := run_conformed_eq_ok.1 hrun
    rfl

theorem offer_maintains (id : String) (r : Range) (origin : Option Origin) :
    Maintains e.Fits (offer id r origin) fun _ ↦ True where
  keeps hs := hs.of_facts_eq (facts_endState_offer id r origin)
  gives _ _ := ⟨⟩

/-- A range of the width of its variable may be joined. -/
theorem joinFact_maintains (c : Checked e f) {k : Subject} {r : Range} (hr : f.Allows k r.width) :
    Maintains e.Fits (joinFact f l k r) fun _ ↦ True where
  keeps := by
    intro s hs
    rcases facts_endState_joinFact k r with hend | hend
    · exact hs.of_facts_eq hend
    · refine Env.Fits.of_facts_eq ?_ hend
      unfold State.afterJoin
      dsimp only
      split
      · exact c.setBlockFacts hs ((hs f c.mem l).join hr)
      · exact hs
  gives _ _ := ⟨⟩

/-- Facts of the widths of their variables may be joined. -/
theorem joinFacts_maintains (c : Checked e f) {m : Facts} (hm : m.AllHave f.Allows) :
    Maintains e.Fits (joinFacts f l m) fun _ ↦ True where
  keeps := by
    intro s hs
    rcases endState_joinFacts m with ⟨-, hend⟩ | hend
    · rw [hend]
      exact c.setBlockFacts hs (hm.filter _)
    · rw [hend]
      refine (Maintains.forM fun e hmem ↦ ?_).keeps hs
      refine .bind (c.joinFact_maintains ?_) fun _ _ ↦ .pure ⟨⟩
      exact hm e.1 e.2 (OrderedMap.get?_eq_some_iff.2 hmem)
  gives _ _ := ⟨⟩

theorem counted_maintains (w : Width) : Maintains e.Fits (counted w) fun u ↦ u = w :=
  .ofExcept fun _ hu ↦ (counted_eq_ok.1 hu).2.symm

theorem resultWidth_maintains (t : Ty) : Maintains e.Fits (resultWidth t) fun w ↦ t = .int w := by
  unfold resultWidth
  cases t with
  | int w => exact (counted_maintains w).mono fun u hu ↦ by rw [hu]
  | ptr | void | array | named | literal => exact .throw _

/-! ## Values -/

/-- The range of a cast has the width of the target. -/
theorem castRange_maintains (c : Checked e f) {op : CastOp} {source target : Ty} {o : Operand}
    (ho : f.ReadsAtType o) : Maintains e.Fits (castRange e f l op source o target) fun r ↦
      ∀ q, r = some q → target = .int q.width := by
  have hresize {r : Range} {w : Width} (hw : target = .int w) :
      ∀ q, some (r.resize w) = some q → target = .int q.width := by
    rintro q ⟨⟩
    rw [hw, Range.width_resize]
  cases op with
  | trunc | zext =>
    refine .bind (c.rangeOf_maintains ho) fun r _ ↦ ?_
    exact .bind (resultWidth_maintains target) fun w hw ↦ .pure (hresize hw)
  | sext =>
    refine .bind (c.rangeOf_maintains ho) fun r _ ↦ ?_
    refine .bind (resultWidth_maintains target) fun w hw ↦ ?_
    refine .bind (.ofExcept fun q hq ↦ (Range.signExtendAt_eq_ok.1 hq).2.2) ?_
    rintro _ rfl
    refine .pure ?_
    rintro q ⟨⟩
    rw [hw, Range.width_signExtend]
  | ptrtoint =>
    refine .bind (resultWidth_maintains target) fun w hw ↦ .pure ?_
    rintro q ⟨⟩
    exact hw
  | bitcast =>
    unfold castRange
    dsimp only
    split
    · rename_i w _ hw
      refine .bind (c.rangeOf_maintains ho) fun r _ ↦ .bind (counted_maintains w) ?_
      rintro _ rfl
      exact .pure (hresize (by cases target <;> simp_all [Ty.width?]))
    · exact .pure (by rintro q ⟨⟩)
  | inttoptr => exact .pure (by rintro q ⟨⟩)

/-- The range of a phi has the width at which it starts. -/
theorem phiRange_maintains (c : Checked e f) {loops : OrderedSet Edge} {entries : List PhiEntry}
    {r : Range} (hreads : ∀ entry ∈ entries, f.ReadsAtType entry.value) :
    Maintains e.Fits (phiRange e f loops l r entries) fun q ↦ q.width = r.width := by
  induction entries generalizing r with
  | nil => exact .pure rfl
  | cons entry entries ih =>
    obtain ⟨hread, hreads⟩ := List.forall_mem_cons.1 hreads
    refine .bind (.ofExcept (Q := fun _ ↦ True) fun _ _ ↦ ⟨⟩) fun source _ ↦ ?_
    split
    · exact ih hreads
    · refine .bind (c.rangeOf_maintains hread) fun q _ ↦ ?_
      refine .bind (conformed_maintains r q) ?_
      rintro _ rfl
      refine (ih hreads).mono fun q' hq' ↦ ?_
      rw [hq', Range.width_union (Range.width_conform r q).symm]

section Instr

variable (c : Checked e f) (hi : i ∈ f.instrs)
include c hi

/-- The range of a value has the width of its type. -/
theorem valueRange_maintains {loops : OrderedSet Edge} {x : String} {v : Value}
    (ha : i.action = .assign x v) :
    Maintains e.Fits (valueRange e f loops l x v) fun r ↦
      ∀ q, r = some q → v.ty = .int q.width := by
  have htyped := c.typed i hi
  have hop := c.operand i hi
  simp only [Instr.operands] at hop
  rw [ha] at htyped hop
  cases v with
  | binary op ty a b =>
    refine .bind (c.rangeOf_maintains (hop a (by simp [Action.operands]))) fun r hr ↦ ?_
    refine .bind (c.rangeOf_maintains (hop b (by simp [Action.operands]))) fun q _ ↦ ?_
    refine .bind (conformed_maintains r q) ?_
    rintro _ rfl
    refine .pure ?_
    rintro _ ⟨⟩
    rw [BinaryOp.width_range op (Range.width_conform r q).symm, ← hr,
      htyped.1.ty_eq (by rw [hr]; rfl)]
    rfl
  | compare =>
    refine .pure ?_
    rintro _ ⟨⟩
    rfl
  | cast op source o target => exact c.castRange_maintains (hop o (by simp [Action.operands]))
  | select ty cond a b =>
    simp only [valueRange]
    split
    · refine .bind (c.rangeOf_maintains (hop a (by simp [Action.operands]))) fun r hr ↦ ?_
      refine .bind (c.rangeOf_maintains (hop b (by simp [Action.operands]))) fun q _ ↦ ?_
      refine .bind (conformed_maintains r q) ?_
      rintro _ rfl
      refine .pure ?_
      rintro _ ⟨⟩
      rw [Range.width_union (Range.width_conform r q).symm, ← hr,
        htyped.2.1.ty_eq (by rw [hr]; rfl)]
      rfl
    · exact .pure (by rintro _ ⟨⟩)
  | phi ty entries =>
    cases ty with
    | int w =>
      refine .bind (counted_maintains w) ?_
      rintro _ rfl
      refine .bind (c.phiRange_maintains fun entry hentry ↦ ?_) fun r hr ↦ .pure ?_
      · exact hop _ (by simpa [Action.operands] using ⟨entry, hentry, rfl⟩)
      · rintro _ ⟨⟩
        rw [hr]
        rfl
    | ptr | void | array | named | literal => exact .pure (by rintro _ ⟨⟩)
  | load ty p =>
    simp only [valueRange]
    split
    · refine .bind (c.rangeOf_maintains (c.readsAtType_of_assign hi ha)) fun r hr ↦ .pure ?_
      rintro _ ⟨⟩
      exact hr
    · exact .pure (by rintro _ ⟨⟩)
  | alloca | field | elem | call => exact .pure (by rintro _ ⟨⟩)

/-! ## Actions -/

theorem visitStore_maintains {ty : Ty} {value address : Operand}
    (ha : i.action = .store ty value address) :
    Maintains e.Fits (visitStore e f l i value address) fun _ ↦ True := by
  have htyped := c.typed i hi
  have hop := c.operand i hi
  simp only [Instr.operands] at hop
  rw [ha] at htyped hop
  have hstored (r : Range) : Maintains e.Fits (offerStored e f i address r) fun _ ↦ True := by
    refine .bind (.ofExcept (Q := fun _ ↦ True) fun _ _ ↦ ⟨⟩) fun location _ ↦ ?_
    split
    · exact offer_maintains _ _ _
    · exact .pure ⟨⟩
  -- The address is no integer, so that its fact may have any width.
  have hallows (k : Subject) (hk : address.subject? = some k) (w : Width) : f.Allows k w := by
    rintro x u rfl hu
    cases address with
    | var y t =>
      cases hk
      rw [hop _ (by simp [Action.operands]) x t rfl, Option.some.injEq, htyped.2] at hu
      cases hu
    | symbol | literal => cases hk
  unfold visitStore
  split
  · exact .pure ⟨⟩
  · refine .bind (c.rangeOf_maintains (hop value (by simp [Action.operands]))) fun r _ ↦ ?_
    split
    · rename_i k hk
      exact .bind (c.joinFact_maintains (hallows k hk _)) fun _ _ ↦ hstored r
    · exact hstored r

omit hi in
theorem offerArgs_maintains {call : Call} (hargs : ∀ o ∈ call.args, f.ReadsAtType o)
    (callee : String) : Maintains e.Fits (offerArgs e f l i call callee) fun _ ↦ True := by
  unfold offerArgs
  split
  · exact .pure ⟨⟩
  · split
    · exact .pure ⟨⟩
    · refine .anyOf ?_
      rintro ⟨arg, index⟩ harg
      simp only [offerArg]
      split
      · exact .pure ⟨⟩
      · refine .bind (c.rangeOf_maintains (hargs arg ?_)) fun r _ ↦ offer_maintains _ _ _
        exact List.mem_of_mem_take (List.fst_mem_of_mem_zipIdx harg)

theorem visitCall_maintains {call : Call} (hc : i.call? = some call) (site : Site) :
    Maintains e.Fits (visitCall e f l site i call) fun _ ↦ True := by
  have hargs (o : Operand) (ho : o ∈ call.args) : f.ReadsAtType o :=
    c.operand i hi o (i.mem_operands_of_call? hc ho)
  unfold visitCall
  dsimp only
  split
  · exact .pure ⟨⟩
  · refine .bind (.anyOf fun callee _ ↦ c.offerArgs_maintains hargs callee) fun changed _ ↦ ?_
    split
    · rename_i x hx
      have ha := i.action_of_call? hc hx
      have hreads : f.ReadsAtType (.var x call.returns) := c.readsAtType_of_assign hi ha
      refine .bind (Q := fun _ ↦ True) ?_ fun _ _ ↦ .pure ⟨⟩
      unfold offerResult
      split
      · exact .pure ⟨⟩
      · refine .bind (c.rangeOf_maintains hreads) fun r hr ↦ ?_
        exact .bind (c.joinFact_maintains (hreads.allows hr)) fun _ _ ↦ offer_maintains _ _ _
    · exact .pure ⟨⟩

theorem visitReturn_maintains {ty : Ty} {value : Operand}
    (ha : i.action = .finish (.ret ty value)) :
    Maintains e.Fits (visitReturn e f l i ty value) fun _ ↦ True := by
  have hvalue : f.ReadsAtType value :=
    c.operand i hi value (by simp [Instr.operands, Action.operands, ha])
  unfold visitReturn
  split
  · exact .pure ⟨⟩
  · exact .bind (c.rangeOf_maintains hvalue) fun r _ ↦ offer_maintains _ _ _

theorem perform_maintains (loops : OrderedSet Edge) (site : Site) :
    Maintains e.Fits (perform e f loops l site i) fun _ ↦ True := by
  unfold perform
  split
  · rename_i x call ha
    exact c.visitCall_maintains hi (by simp [Instr.call?, ha]) site
  · rename_i call ha
    exact c.visitCall_maintains hi (by simp [Instr.call?, ha]) site
  · rename_i x v _ ha
    refine .bind (c.valueRange_maintains hi ha) fun r hr ↦ ?_
    split
    · rename_i q
      have hallows := (c.readsAtType_of_assign hi ha).allows (hr q rfl)
      exact .bind (c.joinFact_maintains hallows) fun _ _ ↦ .pure ⟨⟩
    · exact .pure ⟨⟩
  · rename_i ha
    exact c.visitStore_maintains hi ha
  · rename_i ha
    exact c.visitReturn_maintains hi ha
  · exact .pure ⟨⟩

end Instr

/-- Every fact still has the width of its variable after a visit. -/
theorem visit_maintains (c : Checked e f) {b : Block} (hb : b ∈ f.blocks)
    (loops : OrderedSet Edge) {p : Site × Instr} (hp : p ∈ b.sites f.name) :
    Maintains e.Fits (visit e f loops l p) fun _ ↦ True := by
  have hi : p.2 ∈ f.instrs := mem_instrs_of_mem_sites hb hp
  unfold visit
  dsimp only
  split
  · exact .bind (.throw (Q := fun _ ↦ True) _) fun _ _ ↦ c.perform_maintains hi loops p.1
  · exact c.perform_maintains hi loops p.1

/-! ## Edges -/

/-- What a comparison tells about its operands can be a fact about them. -/
theorem allHave_refine {op : Comparison} {lhs rhs : Operand} {r q : Range}
    (hlhs : f.ReadsAtType lhs) (hrhs : f.ReadsAtType rhs) (hr : lhs.ty = .int r.width)
    (hq : rhs.ty = .int q.width) : (op.refine lhs rhs r (r.conform q)).AllHave f.Allows := by
  have hright {m : Facts} (hm : m.AllHave f.Allows) {y : String} {w : Width}
      (hy : rhs = .var y (.int w)) (p : Range) :
      Facts.AllHave f.Allows (m.insert (.var y) (p.resize w)) := by
    subst hy
    refine hm.insert (hrhs.allows ?_)
    rw [Range.width_resize]
  unfold Comparison.refine
  cases lhs with
  | var x t =>
    have hleft : Facts.AllHave f.Allows
        (.ofList [(.var x, r.intersect (op.allowed (r.conform q)))]) := by
      refine Facts.AllHave.empty.insert (hlhs.allows ?_)
      rw [Range.width_intersect (by simp)]
      exact hr
    dsimp only
    split
    · exact hright hleft rfl _
    · exact hleft
  | symbol | literal =>
    dsimp only
    split
    · exact hright .empty rfl _
    · exact .empty

/-- A comparison tells of variables at their widths. -/
theorem comparedFacts_maintains (c : Checked e f) {op : Comparison} {lhs rhs : Operand}
    (hlhs : f.ReadsAtType lhs) (hrhs : f.ReadsAtType rhs) :
    Maintains e.Fits (comparedFacts e f l op lhs rhs) (Facts.AllHave f.Allows) := by
  refine .bind (c.rangeOf_maintains hlhs) fun r hr ↦ ?_
  refine .bind (c.rangeOf_maintains hrhs) fun q hq ↦ ?_
  refine .bind (conformed_maintains r q) ?_
  rintro _ rfl
  exact .pure (allHave_refine hlhs hrhs hr hq)

theorem switchedFacts_maintains (c : Checked e f) {x default target : String} {w : Width}
    {cases : List SwitchCase} (hcond : f.ReadsAtType (.var x (.int w))) :
    Maintains e.Fits (switchedFacts e f l x w default cases target) (Facts.AllHave f.Allows) := by
  refine .bind (counted_maintains w) ?_
  rintro _ rfl
  refine .bind (c.rangeOf_maintains hcond) fun r hr ↦ ?_
  obtain rfl : _ = r.width := Ty.int.inj hr
  have hwidth := (width_switchRegion r.width default cases target).symm
  rw [Range.paired_of_width_eq _ hwidth]
  refine .bind (.ofExcept (Q := fun q ↦ q.width = r.width) ?_) fun q hq ↦ ?_
  · rintro q ⟨⟩
    exact Range.width_intersect hwidth
  · refine .pure (Facts.AllHave.empty.insert (hcond.allows ?_))
    rw [hq]

theorem edgeFacts_maintains (c : Checked e f) {b : Block} (hb : b ∈ f.blocks) {target : String} :
    Maintains e.Fits (edgeFacts e f b target) (Facts.AllHave f.Allows) := by
  cases edgeCase e f b target with
  | silent heq =>
    rw [heq]
    exact .pure .empty
  | branch _ hdef _ _ heq =>
    obtain ⟨i, hi, x, ha⟩ := mem_instrs_of_condition hdef
    rw [heq]
    refine c.comparedFacts_maintains (c.operand i hi _ ?_) (c.operand i hi _ ?_) <;>
      simp [Instr.operands, Action.operands, ha]
  | switch hterm heq =>
    obtain ⟨i, hi, ha⟩ := mem_instrs_of_terminator? hb hterm
    rw [heq]
    exact c.switchedFacts_maintains
      (c.operand i hi _ (by simp [Instr.operands, Action.operands, ha]))

theorem mergeFrom_maintains (c : Checked e f) {source : Block} (hsource : source ∈ f.blocks) :
    Maintains e.Fits (mergeFrom e f l source) fun _ ↦ True := by
  refine .bind (c.edgeFacts_maintains hsource) fun refined hrefined ↦ ⟨?_, fun _ _ ↦ ⟨⟩⟩
  intro s hs
  exact (c.joinFacts_maintains ((hs f c.mem source.label).insertAll hrefined)).keeps hs

/-- Facts keep their widths as they come from other blocks. -/
theorem mergePredecessors_maintains (c : Checked e f) (g : Flow) (loops : OrderedSet Edge) :
    Maintains e.Fits (mergePredecessors e f g loops l) fun _ ↦ True := by
  refine .forM fun source _ ↦ ?_
  split
  · exact .pure ⟨⟩
  · split
    · rename_i b hb
      exact c.mergeFrom_maintains (Function.mem_of_block? hb).1
    · exact .pure ⟨⟩

/-- Every fact still has the width of its variable after a sweep over a block. -/
theorem sweepBlock_maintains (c : Checked e f) (g : Flow) (loops : OrderedSet Edge) {b : Block}
    (hb : b ∈ f.blocks) : Maintains e.Fits (sweepBlock e f g loops b) fun _ ↦ True := by
  refine .bind (c.mergePredecessors_maintains g loops) fun _ _ ↦ ?_
  exact .anyOf fun p hp ↦ c.visit_maintains hb loops hp

end Checked

/-! ## Runs -/

/-- All facts of the functions of the program can have their widths, and no fact is empty. -/
structure Env.Steady (e : Env) (s : State) : Prop where
  fits : e.Fits s
  filled : s.Filled

namespace Env.Steady

/-- At the start there are no facts. -/
theorem start (settings : Settings) (mode : WarningMode) : e.Steady (.start settings mode) :=
  ⟨fun _ _ _ _ _ hr ↦ (nomatch hr), fun _ _ _ _ hr ↦ (nomatch hr)⟩

theorem of_facts_eq (hs : e.Steady s) (h : t.facts = s.facts) : e.Steady t :=
  ⟨hs.fits.of_facts_eq h, (Extends.of_facts_eq h).filled hs.filled⟩

theorem beginFunction (hs : e.Steady s) (f : Function) : e.Steady (beginFunction f s) := by
  have hfacts (g l : String) : (Sweep.beginFunction f s).blockFacts g l = ∅ ∨
      (Sweep.beginFunction f s).blockFacts g l = s.blockFacts g l := by
    by_cases hg : g = f.name
    · rw [hg, blockFacts_beginFunction]
      exact .inl rfl
    · unfold State.blockFacts Sweep.beginFunction
      rw [OrderedMap.get?_insert_of_ne _ _ hg]
      exact .inr rfl
  refine ⟨fun g hg l ↦ ?_, fun g l k r hr ↦ ?_⟩
  · rcases hfacts g.name l with heq | heq
    · rw [heq]
      exact .empty
    · rw [heq]
      exact hs.fits g hg l
  · rcases hfacts g l with heq | heq
    · rw [heq] at hr
      cases hr
    · rw [heq] at hr
      exact hs.filled g l k r hr

end Env.Steady

theorem seed_steady : Maintains e.Steady (seed e) fun _ ↦ True := by
  refine .forM fun leaf _ ↦ .bind (.ofExcept (Q := fun _ ↦ True) fun _ _ ↦ ⟨⟩) fun leaf _ ↦ ?_
  have hoffer : Maintains e.Steady (offer leaf.location.id leaf.range none) fun _ ↦ True :=
    ⟨fun hs ↦ hs.of_facts_eq (facts_endState_offer _ _ _), fun _ _ ↦ ⟨⟩⟩
  exact .bind hoffer fun _ _ ↦ .pure ⟨⟩

section Runs

variable (hchecked : ∀ f ∈ e.program.functions, Checked e f)
include hchecked

theorem sweepBlock_steady (hf : f ∈ e.program.functions) (g : Flow) (loops : OrderedSet Edge)
    {b : Block} (hb : b ∈ f.blocks) :
    Maintains e.Steady (sweepBlock e f g loops b) fun _ ↦ True where
  keeps := by
    intro s hs
    have hcomposed : Composed e f b.label (fun _ ↦ True) (fun _ ↦ True)
        (sweepBlock e f g loops b) := .sweepBlock (.trivial f) hf (fun _ _ ↦ ⟨⟩) g loops hb
    exact ⟨((hchecked f hf).sweepBlock_maintains g loops hb).keeps hs.fits,
      (hcomposed.extends_endState s).filled hs.filled⟩
  gives _ _ := ⟨⟩

/-- Between sweeps over functions all facts have the widths of their variables. -/
theorem sweepFunction_steady (hf : f ∈ e.program.functions) :
    Maintains e.Steady (sweepFunction e f) fun _ ↦ True := by
  refine .bind (.ofExcept (Q := fun _ ↦ True) fun _ _ ↦ ⟨⟩) fun loops _ ↦ ?_
  refine .bind (.ofExcept (Q := fun _ ↦ True) fun _ _ ↦ ⟨⟩) fun g _ ↦ ?_
  refine .bind (.modify fun s hs ↦ hs.beginFunction f) fun _ _ ↦ ?_
  exact .anyOf fun b hb ↦ sweepBlock_steady hchecked hf g loops hb

theorem round_steady : Maintains e.Steady (round e) fun _ ↦ True := by
  refine .bind (.modify fun s hs ↦ hs.of_facts_eq rfl) fun _ _ ↦ ?_
  exact .anyOf fun f hf ↦ sweepFunction_steady hchecked (mem_functions_of_mem_defined hf)

theorem Reaches.steady (h : Reaches e s t) (hs : e.Steady s) : e.Steady t := by
  induction h with
  | refl => exact hs
  | tail _ hstep ih => exact (round_steady hchecked).keeps_of_ok ih hstep

end Runs

/-- A run from a state sweeps over a block of a function in some round, and passes through another
state there. -/
def Sweeping (e : Env) (s t : State) : Prop :=
  ∃ s₁ s₂ s₃ s₄ f b loops g,
    (seed e).run s = .ok () s₁ ∧ Reaches e s₁ s₂ ∧
    Comes (sweepFunction e) e.defined (beginRound e s₂) f s₃ ∧
    f.backEdges = .ok loops ∧ f.flow = .ok g ∧
    Comes (sweepBlock e f g loops) f.blocks (beginFunction f s₃) b s₄ ∧
    IsMoment e f b.label (sweepBlock e f g loops b) s₄ t

/-- Two operands that are read one after the other have ranges of one width. -/
def ReadAlike (e : Env) (f : Function) (s : State) (a b : Operand) : Prop :=
  ∀ l r q t u, (rangeOf e f l a).run s = .ok r t → (rangeOf e f l b).run t = .ok q u →
    r.width = q.width

/-- The ranges that a function brings together have one width: the operands of an operator, the
alternatives of a select, a value of a phi and the union of those before it, the operands of a
comparison and what it allows, and the condition of a switch and the values of a case. -/
structure MeetAtOneWidth (e : Env) (f : Function) (s : State) : Prop where
  binary : ∀ i ∈ f.instrs, ∀ x op ty a b, i.action = .assign x (.binary op ty a b) →
    ReadAlike e f s a b
  select : ∀ i ∈ f.instrs, ∀ x ty c a b, i.action = .assign x (.select ty c a b) →
    ReadAlike e f s a b
  phi : ∀ i ∈ f.instrs, ∀ x w before entry after,
    i.action = .assign x (.phi (.int w) (before ++ entry :: after)) →
    ∀ loops l source r q t u, (phiRange e f loops l (.empty w) before).run s = .ok r t →
      (rangeOf e f source entry.value).run t = .ok q u → r.width = q.width
  branch : ∀ i ∈ f.instrs, ∀ x c ty a b, i.action = .assign x (.compare c ty a b) →
    ∀ l r q t u, (rangeOf e f l a).run s = .ok r t → (rangeOf e f l b).run t = .ok q u →
      r.width = q.width ∧ ∀ op : Comparison,
        r.width = (op.allowed q).width ∧ q.width = (op.allowed r).width
  switch : ∀ i ∈ f.instrs, ∀ ty x w default cases,
    i.action = .finish (.switch ty (.var x (.int w)) default cases) →
    ∀ l r t target, (rangeOf e f l (.var x (.int w))).run s = .ok r t →
      r.width = (switchRegion w default cases target).width

/-- Operands of one type that are read one after the other. -/
theorem Checked.readAlike (c : Checked e f) (hs : e.Fits s) {a b : Operand} {ty : Ty}
    (ha : f.ReadsAtType a) (hb : f.ReadsAtType b) (hta : a.Suits ty) (htb : b.Suits ty) :
    ReadAlike e f s a b := by
  intro l r q t u hr hq
  have hreadA := c.rangeOf_maintains (l := l) ha
  have hwr := hreadA.gives hs hr
  have hwq := (c.rangeOf_maintains hb).gives (hreadA.keeps_of_ok hs hr) hq
  have hty : a.ty = b.ty :=
    (hta.ty_eq (by rw [hwr]; rfl)).trans (htb.ty_eq (by rw [hwq]; rfl)).symm
  rw [hwr, hwq] at hty
  exact Ty.int.inj hty

/-- Where all facts fit, the ranges that an instruction combines have one width. -/
theorem Checked.meetAtOneWidth (c : Checked e f) (hs : e.Fits s) : MeetAtOneWidth e f s where
  binary := by
    intro i hi x op ty a b ha
    have htyped := c.typed i hi
    have hop := c.operand i hi
    rw [ha] at htyped
    simp only [Instr.operands, ha] at hop
    exact c.readAlike hs (hop a (by simp [Action.operands])) (hop b (by simp [Action.operands]))
      htyped.1 htyped.2
  select := by
    intro i hi x ty cond a b ha
    have htyped := c.typed i hi
    have hop := c.operand i hi
    rw [ha] at htyped
    simp only [Instr.operands, ha] at hop
    exact c.readAlike hs (hop a (by simp [Action.operands])) (hop b (by simp [Action.operands]))
      htyped.2.1 htyped.2.2
  phi := by
    intro i hi x w before entry after ha loops l source r q t u hr hq
    have htyped := c.typed i hi
    have hop := c.operand i hi
    rw [ha] at htyped
    simp only [Instr.operands, ha] at hop
    have hreads (p : PhiEntry) (hp : p ∈ before ++ entry :: after) : f.ReadsAtType p.value :=
      hop _ (List.mem_map_of_mem hp)
    have hunion : Maintains e.Fits (phiRange e f loops l (.empty w) before) fun q ↦ q.width = w :=
      c.phiRange_maintains fun p hp ↦ hreads p (List.mem_append_left _ hp)
    have hread := c.rangeOf_maintains (l := source) (hreads entry (by simp))
    have hwidth := hread.gives (hunion.keeps_of_ok hs hr) hq
    have hty := (htyped entry (by simp)).ty_eq (by rw [hwidth]; rfl)
    rw [hwidth] at hty
    exact (hunion.gives hs hr).trans (Ty.int.inj hty).symm
  branch := by
    intro i hi x op ty a b ha l r q t u hr hq
    have htyped := c.typed i hi
    have hop := c.operand i hi
    rw [ha] at htyped
    simp only [Instr.operands, ha] at hop
    have hwidth := c.readAlike hs (hop a (by simp [Action.operands]))
      (hop b (by simp [Action.operands])) htyped.1 htyped.2 l r q t u hr hq
    refine ⟨hwidth, fun op ↦ ?_⟩
    rw [Comparison.width_allowed, Comparison.width_allowed]
    exact ⟨hwidth, hwidth.symm⟩
  switch := by
    intro i hi ty x w default cases ha l r t target hr
    have hop := c.operand i hi (.var x (.int w)) (by simp [Instr.operands, Action.operands, ha])
    have hwidth := (c.rangeOf_maintains hop).gives hs hr
    rw [width_switchRegion]
    exact (Ty.int.inj hwidth).symm

/-- Facts stand at every moment of every sweep as they do at its end. -/
theorem steady_of_sweeping (hchecked : ∀ f ∈ e.program.functions, Checked e f)
    (hs : e.Steady s) (h : Sweeping e s t) : e.Steady t := by
  obtain ⟨s₁, s₂, s₃, s₄, f, b, loops, g, hseed, hreaches, hfunction, -, -, hblock, hmoment⟩ := h
  have hs₂ := hreaches.steady hchecked (seed_steady.keeps_of_ok hs hseed)
  have hround : e.Steady (beginRound e s₂) := hs₂.of_facts_eq rfl
  obtain ⟨hf, hs₃⟩ := Maintains.of_comes
    (fun f hf ↦ sweepFunction_steady hchecked (mem_functions_of_mem_defined hf)) hfunction hround
  have hmem := mem_functions_of_mem_defined hf
  obtain ⟨hb, hs₄⟩ := Maintains.of_comes (fun b hb ↦ sweepBlock_steady hchecked hmem g loops hb)
    hblock (hs₃.beginFunction f)
  have hend := (sweepBlock_steady hchecked hmem g loops hb).keeps hs₄
  obtain ⟨hbefore, hafter⟩ := hmoment.extends
  refine ⟨fun g' hg' l k r hr ↦ ?_, hbefore.filled hs₄.filled⟩
  obtain ⟨q, hq, hwidth, -⟩ := hafter.kept g'.name l k r hr
  rw [← hwidth]
  exact hend.fits g' hg' l k q hq

/-- At every moment of every sweep over an accepted program that was read from a text, a fact about
a variable of an integer type is a range that has a member, of the width of that type, and the
ranges that its functions bring together have one width. -/
theorem width_of_sweeping {text : String} {mode : WarningMode}
    (hparse : Program.parse text = .ok e.program) (hsound : e.program.isSound = true)
    (h : Sweeping e (.start e.settings mode) t) (hf : f ∈ e.program.functions) :
    (∀ l x w r, f.varTypes.get? x = some (.int w) →
      (t.blockFacts f.name l).get? (.var x) = some r → r.isEmpty = false ∧ r.width = w) ∧
    MeetAtOneWidth e f t := by
  have hchecked (g : Function) (hg : g ∈ e.program.functions) : Checked e g :=
    .checked_of_parse hparse hsound hg
  have hsteady := steady_of_sweeping hchecked (.start e.settings mode) h
  refine ⟨fun l x w r hx hr ↦ ⟨hsteady.filled _ l _ r hr, ?_⟩,
    (hchecked f hf).meetAtOneWidth hsteady.fits⟩
  exact hsteady.fits f hf l _ r hr x w rfl hx

/-! ## A word that is read as a byte -/

open Width (byte word)

/-- A global of sixteen bits is read as eight, and a pointer has a fact of sixteen. -/
def narrowingText : String :=
  "global @g: i16 = 300\nfunction @f() -> i8 \x7b\nentry:\n  %p = alloca i16\n" ++
    "  store i16 -1, %p\n  %x = load i8 @g\n  %y = add i8 %x, 1\n  ret i8 %y\n\x7d\n"

def narrowing : Function where
  name := "f"
  params := []
  returns := .int byte
  isVararg := false
  blocks := [⟨"entry", [
    ⟨.assign "p" (.alloca (.int word)), 4⟩,
    ⟨.store (.int word) (.literal 65535 word) (.var "p" .ptr), 5⟩,
    ⟨.assign "x" (.load (.int byte) (.symbol "g")), 6⟩,
    ⟨.assign "y" (.binary .add (.int byte) (.var "x" (.int byte)) (.literal 1 byte)), 7⟩,
    ⟨.finish (.ret (.int byte) (.var "y" (.int byte))), 8⟩]⟩]

def narrowingEnv : Env :=
  .ofProgram ⟨[], [⟨"g", .int word, some (.int 300)⟩], [narrowing]⟩ countingEnv.settings

theorem isSound_narrowing : narrowingEnv.program.isSound = true :=
  Function.isSound_of_allAvailable rfl rfl (by decide) (by decide) (by decide) (by decide)

/-- Before the block returns, its facts have the widths of the pointer's memory and of the byte. -/
theorem exists_sweeping_narrowing :
    ∃ t, Sweeping narrowingEnv (.start narrowingEnv.settings .always) t ∧
      (t.blockFacts narrowing.name "entry").get? (.var "p") = some (.singleton word 65535) ∧
      (t.blockFacts narrowing.name "entry").get? (.var "x") = some (.singleton byte 44) := by
  let s₁ := endState (seed narrowingEnv) (.start narrowingEnv.settings .always)
  have hseed : (seed narrowingEnv).run (.start narrowingEnv.settings .always) = .ok () s₁ :=
    run_of_result? (by decide +kernel)
  have hmem : narrowing ∈ narrowingEnv.program.functions := List.mem_singleton_self _
  let s₄ := beginFunction narrowing (beginRound narrowingEnv s₁)
  -- The moment is after four of the five instructions, in the first round.
  refine ⟨_, ⟨s₁, s₁, beginRound narrowingEnv s₁, s₄, narrowing, _, ∅, ⟨["entry"], []⟩, hseed,
    .refl, ⟨[], [], false, rfl, rfl⟩, ?_, rfl, ⟨[], [], false, rfl, rfl⟩,
    isMoment_take hmem (List.mem_singleton_self _) _ _ s₄ 4⟩, ?_, ?_⟩
  · cbv
  · decide +kernel
  · decide +kernel

/-- The pointer has a fact of another width, and the byte that is read through it has one of its
own. -/
theorem width_of_sweeping_narrowing :
    Program.parse narrowingText = .ok narrowingEnv.program ∧
    narrowingEnv.program.isSound = true ∧
    ∃ t, Sweeping narrowingEnv (.start narrowingEnv.settings .always) t ∧
      narrowing ∈ narrowingEnv.program.functions ∧
      ∃ p x, (t.blockFacts narrowing.name "entry").get? (.var "p") = some p ∧ p.width ≠ byte ∧
        (t.blockFacts narrowing.name "entry").get? (.var "x") = some x ∧
        x.isEmpty = false ∧ x.width = byte ∧ MeetAtOneWidth narrowingEnv narrowing t := by
  have hparse : Program.parse narrowingText = .ok narrowingEnv.program := by decide +kernel
  have hmem : narrowing ∈ narrowingEnv.program.functions := List.mem_singleton_self _
  obtain ⟨t, ht, hp, hx⟩ := exists_sweeping_narrowing
  obtain ⟨hwidth, hmeet⟩ := width_of_sweeping hparse isSound_narrowing ht hmem
  obtain ⟨hfilled, hbyte⟩ := hwidth "entry" "x" byte _ (by decide) hx
  exact ⟨hparse, isSound_narrowing, t, ht, hmem, _, _, hp, by decide, hx, hfilled, hbyte, hmeet⟩

end Sweep

end RangeFlow
