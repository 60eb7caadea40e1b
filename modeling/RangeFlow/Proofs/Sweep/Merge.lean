import RangeFlow.Proofs.Sweep.Transfer

/-!
# Facts that are brought into a block

A run that takes an edge has words that the facts on the edge allow.  Of every variable that the
block it leaves has a fact about, the block it comes to then has a fact that allows its word,
whichever other blocks lead there.
-/

namespace RangeFlow

namespace Sweep

namespace Scope

variable {c : Scope} {s t : State} {l x : String} {r q : Range} {m : Facts}

/-! ## Edges -/

/-- What is told of a variable has the width of its type. -/
theorem Typed.apt_told (hm : c.Typed m) {w : Width} (hx : c.Fits x w) :
    c.Apt x (c.told m x w) := by
  unfold told
  cases hr : m.get? (.var x) with
  | some r => exact .inr (hm x r hr)
  | none =>
    cases hempty : (c.paramRange x w).isEmpty with
    | true => exact .inl hempty
    | false =>
      obtain ⟨t, ht⟩ := exists_type_of_paramRange hempty
      right
      rw [Option.getD_none, width_paramRange, ht, hx t ht]

/-- What is seen of an operand has the width of its type. -/
theorem Typed.apt_seen (hm : c.Typed m) {i : Instr} (hi : i ∈ c.fn.instrs) {ty : Ty}
    (ho : .var x ty ∈ i.operands) (hty : ty.isInt = true) : c.Apt x (c.seen m (.var x ty)) := by
  cases ty with
  | int w => exact hm.apt_told (fits_of_mem hi ho)
  | ptr | void | array | named | literal => cases hty

/-- An intersection at one width is as apt as the range that it narrows. -/
theorem Apt.intersect (h : c.Apt x r) (hw : r.width = q.width) : c.Apt x (r.intersect q) := by
  rcases h with h | h
  · have heq : r.intersect q = r := by
      unfold Range.intersect
      simp [h]
    rw [heq]
    exact .inl h
  · rw [← Range.width_intersect hw] at h
    exact .inr h

/-- A run leaves a block along an edge. -/
def Takes (c : Scope) (b : Block) (l : String) (ρ : Values) : Prop :=
  ∃ t before, b.terminator? = some t ∧ t.eval? ρ = some (.goto l) ∧ Follows c.fn before ρ

/-- What facts on an edge have to satisfy: they are of the types of their variables, and allow the
words of a run that takes the edge. -/
structure Refines (c : Scope) (s : State) (b : Block) (l : String) (m : Facts) : Prop where
  apt : ∀ x r, m.get? (.var x) = some r → c.Apt x r
  holds : ∀ ρ, c.Takes b l ρ → c.Covers (c.facts s b.label) ρ →
    ∀ x v r, ρ x = some v → m.get? (.var x) = some r → r.Holds v

theorem Refines.empty (b : Block) : c.Refines s b l ∅ :=
  ⟨fun x r h ↦ by simp at h, fun ρ _ _ x v r _ h ↦ by simp at h⟩

variable {b : Block} {cond : Operand}

/-- A branch on a comparison is taken as its operands compare. -/
theorem holds_of_takes {ifTrue ifFalse : String} (hb : b ∈ c.fn.blocks)
    (hterm : b.terminator? = some (.jnz cond ifTrue ifFalse)) {ρ : Values} (hρ : c.Takes b l ρ)
    {op : Comparison} {ty : Ty} {lhs rhs : Operand}
    (hdef : cond.var?.bind c.fn.definition? = some (.compare op ty lhs rhs)) :
    ∃ y z, lhs.read? ρ = some y ∧ rhs.read? ρ = some z ∧
      (if l = ifTrue then op else op.invert).holds y.width.bits y.val z.val = true := by
  obtain ⟨t, before, ht, hgoto, hfollows⟩ := hρ
  rw [hterm] at ht
  cases ht
  obtain ⟨i, hi, hact⟩ := mem_instrs_of_terminator? hb hterm
  have hplain := c.orderly.plain i hi
  simp only [Instr.isPlain, hact, Terminator.isPlain, Bool.and_eq_true, decide_eq_true_eq] at hplain
  obtain ⟨v, hv, hgoto⟩ := Option.bind_eq_some_iff.1 hgoto
  obtain ⟨z, hz, hdef⟩ := Option.bind_eq_some_iff.1 hdef
  obtain ⟨ty', rfl⟩ : ∃ ty', cond = .var z ty' := by
    cases cond with
    | var z' ty' =>
      cases hz
      exact ⟨ty', rfl⟩
    | literal | symbol => cases hz
  have hcompare := hfollows.compared z op ty lhs rhs hdef v (Operand.read?_var hv) ⟨none, ρ⟩
  obtain ⟨p, q, hp, hq, -, rfl⟩ := eval?_compare_eq_some.1 hcompare
  refine ⟨p, q, hp, hq, ?_⟩
  have hone : Width.one.wrap 1 = 1 := rfl
  have hl : (if op.holds p.width.bits p.val q.val then ifTrue else ifFalse) = l := by
    cases hop : op.holds p.width.bits p.val q.val <;>
      simpa [hop, Word.val_ofInt, hone] using hgoto
  rw [← hl]
  exact Comparison.holds_of_taken hplain.2 _ _ _

/-- The facts that a comparison tells are apt if the ranges of its operands are. -/
theorem apt_of_refine {op : Comparison} {a b : Operand} {lhs rhs : Range}
    (hw : lhs.width = rhs.width) (ha : ∀ x ty, a = .var x ty → c.Apt x lhs)
    (hb : ∀ x w, b = .var x (.int w) → w = rhs.width ∧ c.Apt x rhs)
    (h : (op.refine a b lhs rhs).get? (.var x) = some r) : c.Apt x r := by
  rcases Comparison.get?_refine h with ⟨ty, rfl, rfl⟩ | ⟨w, rfl, rfl⟩
  · exact (ha x ty rfl).intersect (by rw [hw, Comparison.width_allowed])
  · obtain ⟨rfl, hrhs⟩ := hb x w rfl
    have hwidth : rhs.width = (op.swap.allowed lhs).width := by rw [Comparison.width_allowed, hw]
    have hresize : (rhs.intersect (op.swap.allowed lhs)).resize rhs.width =
        rhs.intersect (op.swap.allowed lhs) := by
      rw [← Range.width_intersect hwidth, Range.resize_width]
    rw [hresize]
    exact hrhs.intersect hwidth

/-- The facts that a tested comparison yields on one of its two edges are right there. -/
theorem comparedFacts_refines (hs : c.Good s) (hb : b ∈ c.fn.blocks) {ifTrue ifFalse : String}
    (hterm : b.terminator? = some (.jnz cond ifTrue ifFalse)) {op : Comparison} {ty : Ty}
    {lhs rhs : Operand} (hdef : cond.var?.bind c.fn.definition? = some (.compare op ty lhs rhs))
    (h : (comparedFacts c.env c.fn b.label (if l = ifTrue then op else op.invert) lhs rhs).run s =
      .ok m t) : c.Moves nothing s t ∧ c.Refines s b l m := by
  simp only [comparedFacts, run_bind_eq_ok, run_pure_eq_ok] at h
  obtain ⟨p, u, hp, q', u', hq', q, _, hq, rfl, rfl⟩ := h
  obtain ⟨i, hi, z, hact⟩ := mem_instrs_of_condition hdef
  have hplain := c.orderly.plain i hi
  simp only [Instr.isPlain, hact, Value.isPlain, Bool.and_eq_true, decide_eq_true_eq] at hplain
  obtain ⟨⟨hint, hl⟩, hr⟩ := hplain
  have hops : i.operands = [lhs, rhs] := by simp [Instr.operands, hact, Action.operands]
  obtain ⟨hmoves, hty, hw, ⟨m₁, hm₁, hpm⟩, ⟨m₂, hm₂, hqm⟩, hread⟩ :=
    rangeOf_pair_moves hs hi (by simp [hops]) (by simp [hops]) (hl.trans hr.symm) hp hq' hq
  refine ⟨hmoves, ⟨fun x r ↦ apt_of_refine hw ?_ ?_, fun ρ hρ hcov x v r hv hr' ↦ ?_⟩⟩
  · rintro x ty' rfl
    rw [hpm]
    exact hm₁.apt_seen hi (by simp [hops]) (by rw [← hl] at hint; exact hint)
  · rintro x w rfl
    have hqw : w = q.width := by
      rw [← hw]
      exact Ty.int.inj ((hr.trans hl.symm).trans hty)
    refine ⟨hqw, ?_⟩
    rw [hqm]
    exact hm₂.apt_seen hi (by simp [hops]) rfl
  · obtain ⟨y, z, hy, hz, hholds⟩ := holds_of_takes hb hterm hρ hdef
    have hyp := (hread ρ hcov).1 y hy
    have hzq := (hread ρ hcov).2 z hz
    rw [hyp.1] at hholds
    exact Comparison.holds_of_refine hy hz hyp hzq hw hholds hv hr'

/-- The facts that a switch yields on the edge to a block are right there. -/
theorem switchedFacts_refines (hs : c.Good s) (hb : b ∈ c.fn.blocks) {ty : Ty} {y default : String}
    {w : Width} {cases : List SwitchCase}
    (hterm : b.terminator? = some (.switch ty (.var y (.int w)) default cases))
    (h : (switchedFacts c.env c.fn b.label y w default cases l).run s = .ok m t) :
    c.Moves nothing s t ∧ c.Refines s b l m := by
  obtain ⟨i, hi, hact⟩ := mem_instrs_of_terminator? hb hterm
  have ho : .var y (.int w) ∈ i.operands := by simp [Instr.operands, hact, Action.operands]
  simp only [switchedFacts, counted, run_bind_eq_ok, run_ofExcept_eq_ok, run_pure_eq_ok,
    counted_eq_ok] at h
  obtain ⟨_, _, ⟨⟨-, rfl⟩, rfl⟩, p, u, hp, q, _, ⟨hq, rfl⟩, rfl, rfl⟩ := h
  obtain ⟨hmoves, rfl, hty⟩ := rangeOf_moves hs hi ho hp
  have hw : (c.seen (c.facts s b.label) (.var y (.int w))).width =
      (switchRegion w default cases l).width := by
    rw [width_switchRegion]
    exact (Ty.int.inj hty).symm
  rw [Range.paired_of_width_eq _ hw] at hq
  cases hq
  refine ⟨hmoves, ⟨fun x r hr ↦ ?_, fun ρ hρ hcov x v r hv hr ↦ ?_⟩⟩
  · obtain ⟨rfl, rfl⟩ := Comparison.get?_singleFact hr
    exact ((hs.typed b.label).apt_seen hi ho rfl).intersect hw
  · obtain ⟨rfl, rfl⟩ := Comparison.get?_singleFact hr
    obtain ⟨tm, before, htm, hgoto, -⟩ := hρ
    rw [hterm] at htm
    cases htm
    obtain ⟨v', hv', hgoto⟩ := Option.bind_eq_some_iff.1 hgoto
    cases hgoto
    obtain rfl : v' = v := by
      rw [Operand.read?_var hv'] at hv
      exact Option.some.inj hv
    obtain rfl : w = v'.width := Ty.int.inj (Operand.ty_of_read? hv')
    refine ⟨?_, Range.mem_intersect hw (hcov.mem_seen hi ho hv') (mem_switchRegion _ _ _)⟩
    rw [Range.width_intersect hw]
    exact Ty.int.inj hty

/-- The facts on an edge allow the words of a run that takes it. -/
theorem edgeFacts_refines (hs : c.Good s) (hb : b ∈ c.fn.blocks)
    (h : (edgeFacts c.env c.fn b l).run s = .ok m t) :
    c.Moves nothing s t ∧ c.Refines s b l m := by
  cases edgeCase c.env c.fn b l with
  | silent heq =>
    rw [heq] at h
    obtain ⟨rfl, rfl⟩ := run_pure_eq_ok.1 h
    exact ⟨.refl hs, .empty b⟩
  | branch hterm hdef _ _ heq => exact comparedFacts_refines hs hb hterm hdef (heq ▸ h)
  | switch hterm heq => exact switchedFacts_refines hs hb hterm (heq ▸ h)

/-! ## Merging -/

def anyAt (l : String) : String → String → Prop := fun k _ ↦ k = l

/-- No fact loses a member. -/
def Grows (m m' : Facts) : Prop :=
  ∀ x r, m.get? (.var x) = some r → ∃ r', m'.get? (.var x) = some r' ∧ ∀ n ∈ r, n ∈ r'

theorem Grows.trans {m₁ m₂ m₃ : Facts} (h : Grows m₁ m₂) (h' : Grows m₂ m₃) : Grows m₁ m₃ := by
  intro x r hr
  obtain ⟨r', hr', hsub⟩ := h x r hr
  obtain ⟨r'', hr'', hsub'⟩ := h' x r' hr'
  exact ⟨r'', hr'', fun n hn ↦ hsub' n (hsub n hn)⟩

/-- The words of a run that leaves a block come to be covered by another one, as far as the block
has facts about them. -/
def Brings (c : Scope) (m m' : Facts) (ρ : Values) : Prop :=
  ∀ x v r, c.Fits x v.width → ρ x = some v → m.get? (.var x) = some r →
    ∃ r', m'.get? (.var x) = some r' ∧ v.val ∈ r'

/-- The facts of some other blocks have been brought into a block. -/
structure Merged (c : Scope) (l : String) (sources : String → Prop) (s t : State) : Prop where
  moves : c.Moves (anyAt l) s t
  grows : Grows (c.facts s l) (c.facts t l)
  brings : ∀ b ∈ c.fn.blocks, sources b.label → b.label ≠ l → ∀ ρ, c.Takes b l ρ →
    c.Covers (c.facts s b.label) ρ → c.Brings (c.facts s b.label) (c.facts t l) ρ

namespace Merged

variable {u : State} {X Y : String → Prop}

theorem refl (hs : c.Good s) : c.Merged l (fun _ ↦ False) s s :=
  ⟨.refl hs, fun _ r hr ↦ ⟨r, hr, fun _ ↦ id⟩, fun _ _ ↦ False.elim⟩

/-- Facts of some blocks and then of others have been brought along. -/
theorem trans (h : c.Merged l X s u) (h' : c.Merged l Y u t) :
    c.Merged l (fun k ↦ X k ∨ Y k) s t := by
  refine ⟨h.moves.trans h'.moves, h.grows.trans h'.grows, ?_⟩
  intro b hb hsource hne ρ hρ hcov x v r hx hv hr
  rcases hsource with hX | hY
  · obtain ⟨r', hr', hmem⟩ := h.brings b hb hX hne ρ hρ hcov x v r hx hv hr
    obtain ⟨r'', hr'', hsub⟩ := h'.grows x r' hr'
    exact ⟨r'', hr'', hsub _ hmem⟩
  · have hcov' := h.moves.covers hcov fun _ heq ↦ absurd heq hne
    have hr' := (h.moves.gains b.label).kept x r hne hr
    exact h'.brings b hb hY hne ρ hρ hcov' x v r hx hv hr'

/-- What has been brought from more blocks has been brought from fewer. -/
theorem mono (h : c.Merged l X s t) (hXY : ∀ b ∈ c.fn.blocks, Y b.label → X b.label) :
    c.Merged l Y s t := ⟨h.moves, h.grows, fun b hb hY ↦ h.brings b hb (hXY b hb hY)⟩

end Merged

theorem mergeFrom_merged (hs : c.Good s) (hb : b ∈ c.fn.blocks) {a : Unit}
    (h : (mergeFrom c.env c.fn l b).run s = .ok a t) : c.Merged l (· = b.label) s t := by
  simp only [mergeFrom, run_bind_eq_ok, run_get_eq_ok] at h
  obtain ⟨refined, u, hedge, _, _, ⟨rfl, rfl⟩, hjoin⟩ := h
  obtain ⟨hu, happ⟩ := edgeFacts_refines hs hb hedge
  obtain ⟨hwithin, hget⟩ := joinFacts_within hu.good.key hjoin
  have hin (x : String) : ((u.blockFacts c.fn.name b.label).insertAll refined.entries).get?
      (.var x) = (refined.get? (.var x)).or ((c.facts u b.label).get? (.var x)) :=
    OrderedMap.get?_insertAll_entries _ _ _
  have htyped : c.Typed (c.facts t l) := by
    refine (hu.good.typed l).of_joined (fun x r hr ↦ ?_) fun x ↦ hget (.var x)
    rw [hin] at hr
    rcases Option.or_eq_some_iff.1 hr with hr | ⟨-, hr⟩
    · exact happ.apt x r hr
    · exact .inr (hu.good.typed b.label x r hr)
  have hall : c.Gains (anyAt l l) (c.facts u l) (c.facts t l) := .of_forall fun _ ↦ rfl
  refine ⟨hu.of_nothing.trans (hwithin.moves hu.good htyped hall), ?_, ?_⟩
  · intro x r hr
    have hr := (hu.gains l).kept x r id hr
    obtain ⟨r', hr', -, hsub⟩ :=
      Facts.exists_joined_of_old r ((refined.get? (.var x)).or
        ((c.facts u b.label).get? (.var x)))
    exact ⟨r', by rw [hget, hin, hr, hr'], hsub⟩
  · intro b' hb' hlabel _ ρ hρ hcov x v r hx hv hr
    obtain rfl := c.orderly.eq_of_label hb' hb hlabel
    have hkept := (hu.gains b'.label).kept x r id hr
    have hmem : v.val ∈ r := by
      have := hcov x v hx hv
      rwa [told, hr] at this
    -- The fact that comes in is the one on the edge, or else that of the block.
    obtain ⟨q, hq, hqw, hvq⟩ : ∃ q, (refined.get? (.var x)).or
        ((c.facts u b'.label).get? (.var x)) = some q ∧ q.width = v.width ∧ v.val ∈ q := by
      cases href : refined.get? (.var x) with
      | some q =>
        have hq := happ.holds ρ hρ hcov x v q hv href
        exact ⟨q, rfl, hq.1.symm, hq.2⟩
      | none => exact ⟨r, hkept, (hs.typed b'.label).width_eq hr hx, hmem⟩
    obtain ⟨r', hr', -, hmem'⟩ := Facts.exists_joined_of_new ((c.facts u l).get? (.var x)) hvq
      fun p hp ↦ by rw [hqw]; exact (hu.good.typed l).width_eq hp hx
    exact ⟨r', by rw [hget, hin, hq, hr'], hmem'⟩

/-- A block is the one of its label. -/
theorem block?_label (hb : b ∈ c.fn.blocks) : c.fn.block? b.label = some b := by
  cases h : c.fn.block? b.label with
  | none => simpa using List.find?_eq_none.1 h b hb
  | some b' =>
    obtain ⟨hb', hl⟩ := Function.mem_of_block? h
    rw [c.orderly.eq_of_label hb' hb hl]

/-- Once the blocks before it are merged, each of them has brought its facts along. -/
theorem mergePredecessors_merged {g : Flow} (hs : c.Good s) {a : Unit}
    (h : (mergePredecessors c.env c.fn g ∅ l).run s = .ok a t) :
    c.Merged l (· ∈ g.predecessors l) s t := by
  unfold mergePredecessors at h
  generalize g.predecessors l = sources at h
  induction sources generalizing s with
  | nil =>
    obtain ⟨-, rfl⟩ := run_pure_eq_ok.1 h
    exact (Merged.refl hs).mono fun _ _ h ↦ List.not_mem_nil h
  | cons source sources ih =>
    obtain ⟨_, u, hfirst, hrest⟩ := run_bind_eq_ok.1 h
    dsimp only at hfirst
    rw [if_neg (OrderedSet.notMem_empty _)] at hfirst
    have hsource : c.Merged l (· = source) s u := by
      cases hblock : c.fn.block? source with
      | none =>
        simp only [hblock] at hfirst
        obtain ⟨-, rfl⟩ := run_pure_eq_ok.1 hfirst
        refine (Merged.refl hs).mono ?_
        rintro b hb rfl
        rw [block?_label hb] at hblock
        cases hblock
      | some b =>
        simp only [hblock] at hfirst
        obtain ⟨hb, rfl⟩ := Function.mem_of_block? hblock
        exact mergeFrom_merged hs hb hfirst
    exact (hsource.trans (ih hsource.moves.good hrest)).mono fun b _ hb ↦ List.mem_cons.1 hb

end Scope

end Sweep

end RangeFlow
