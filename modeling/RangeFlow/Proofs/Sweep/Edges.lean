import RangeFlow.Proofs.Sweep.Sees

/-!
# Facts on edges keep what is possible

The facts on an edge are about the operands that decide whether it is taken: those of the comparison
that a block branches on, or the condition of its switch.  If the state from which they are found
has the words of these operands, and control goes along the edge with them, then so have the facts.
-/

namespace RangeFlow

namespace Function

/-- The operands that decide where control goes at the end of a block. -/
def tested (f : Function) (b : Block) : List Operand :=
  match b.terminator? with
  | some (.jnz cond _ _) =>
    match cond.var?.bind f.definition? with
    | some (.compare _ _ lhs rhs) => [lhs, rhs]
    | _ => []
  | some (.switch _ cond _ _) => [cond]
  | _ => []

variable {f : Function} {b : Block} {cond lhs rhs : Operand} {ty : Ty}

/-- A branch on a comparison tests the operands that are compared. -/
theorem tested_of_branch {ifTrue ifFalse : String} {op : Comparison}
    (hterm : b.terminator? = some (.jnz cond ifTrue ifFalse))
    (hdef : cond.var?.bind f.definition? = some (.compare op ty lhs rhs)) :
    f.tested b = [lhs, rhs] := by
  unfold tested
  rw [hterm]
  dsimp only
  rw [hdef]

theorem tested_of_switch {default : String} {cases : List SwitchCase}
    (hterm : b.terminator? = some (.switch ty cond default cases)) : f.tested b = [cond] := by
  unfold tested
  rw [hterm]

/-- With the words that variables hold, control can go from a terminator to a block: a branch on a
comparison of integers, with two targets, goes where the outcome says. -/
inductive Goes (f : Function) (ρ : Values) : Terminator → String → Prop
  | branch {cond lhs rhs : Operand} {ifTrue ifFalse : String} {op : Comparison} {ty : Ty}
      {y z : Word} :
    cond.var?.bind f.definition? = some (.compare op ty lhs rhs) → ifTrue ≠ ifFalse →
    lhs.read? ρ = some y → rhs.read? ρ = some z →
      Goes f ρ (.jnz cond ifTrue ifFalse)
        (if op.holds y.width.bits y.val z.val then ifTrue else ifFalse)
  | switch {cond : Operand} {ty : Ty} {default label : String} {cases : List SwitchCase}
      {v : Word} :
    cond.read? ρ = some v → SwitchGoes v default cases label →
      Goes f ρ (.switch ty cond default cases) label

end Function

namespace Sweep

variable {e : Env} {f : Function} {l x : String} {s t : State} {m : Facts} {ρ : Values} {r : Range}
variable {b : Block} {cond lhs rhs o : Operand} {ifTrue target default : String} {op : Comparison}
variable {ty : Ty} {cases : List SwitchCase} {v : Word}

/-- An operand holds a word that is seen for it, if its variable does. -/
theorem Env.sees_of_read (hsuits : o.Suits ty) (hread : o.read? ρ = some v)
    (hvar : ∀ x u, o = .var x u → ∃ v, ρ x = some v ∧ e.Sees f s l o v) : e.Sees f s l o v := by
  cases o with
  | literal n w =>
    cases hread
    exact .literal hsuits.2.1
  | symbol name => cases hread
  | var x u =>
    obtain ⟨v', hv', hsees⟩ := hvar x u rfl
    rw [Operand.read?_var hread] at hv'
    cases hv'
    exact hsees

/-! ## Branches -/

/-- The comparison that decides a condition reads its operands at their types, which are one. -/
theorem Checked.operands_of_compare (c : Checked e f) (hs : e.Fits s)
    (hdef : cond.var?.bind f.definition? = some (.compare op ty lhs rhs)) :
    f.ReadsAtType lhs ∧ f.ReadsAtType rhs ∧ lhs.Suits ty ∧ rhs.Suits ty ∧
      ReadAlike e f s lhs rhs := by
  obtain ⟨i, hi, y, ha⟩ := mem_instrs_of_condition hdef
  have hop := c.operand i hi
  have htyped := c.typed i hi
  simp only [Instr.operands, ha] at hop
  rw [ha] at htyped
  have hlhs := hop lhs (by simp [Action.operands])
  have hrhs := hop rhs (by simp [Action.operands])
  exact ⟨hlhs, hrhs, htyped.1, htyped.2, c.readAlike hs hlhs hrhs htyped.1 htyped.2⟩

/-- What a comparison tells holds of words that compare so. -/
theorem Checked.holds_of_comparedFacts (c : Checked e f) (hs : e.Fits s)
    (hdef : cond.var?.bind f.definition? = some (.compare op ty lhs rhs)) {op' : Comparison}
    (hrun : (comparedFacts e f l op' lhs rhs).run s = .ok m t) {y z : Word}
    (hy : lhs.read? ρ = some y) (hz : rhs.read? ρ = some z) (hseesY : e.Sees f s l lhs y)
    (hseesZ : e.Sees f s l rhs z) (hholds : op'.holds y.width.bits y.val z.val = true)
    (hv : ρ x = some v) (hm : m.get? (.var x) = some r) : r.Holds v := by
  obtain ⟨hlhs, hrhs, -, -, halike⟩ := c.operands_of_compare hs hdef
  simp only [comparedFacts, run_bind_eq_ok, run_pure_eq_ok] at hrun
  obtain ⟨p, u, hp, q', u', hq', q, _, hq, rfl, rfl⟩ := hrun
  obtain ⟨rfl, hw, hreadP, hreadQ⟩ := halike.reads_pair hlhs hrhs hp hq' hq
  have hyp := hseesY.holds hreadP
  rw [hyp.1] at hholds
  exact Comparison.holds_of_refine hy hz hyp (hseesZ.holds hreadQ) hw hholds hv hm

/-! ## Switches -/

/-- What a switch tells holds of a word for which it goes to the block. -/
theorem Checked.holds_of_switchedFacts (c : Checked e f) (hs : e.Fits s) {z : String} {w : Width}
    (hcond : f.ReadsAtType (.var z (.int w)))
    (hrun : (switchedFacts e f l z w default cases target).run s = .ok m t) {y : Word}
    (hy : Operand.read? ρ (.var z (.int w)) = some y) (hsees : e.Sees f s l (.var z (.int w)) y)
    (hgoes : SwitchGoes y default cases target) (hv : ρ x = some v)
    (hm : m.get? (.var x) = some r) : r.Holds v := by
  simp only [switchedFacts, counted, run_bind_eq_ok, run_ofExcept_eq_ok, run_pure_eq_ok,
    counted_eq_ok] at hrun
  obtain ⟨_, _, ⟨⟨-, rfl⟩, rfl⟩, p, u, hp, q, _, ⟨hq, rfl⟩, rfl, rfl⟩ := hrun
  obtain ⟨rfl, rfl⟩ := Comparison.get?_singleFact hm
  rw [Operand.read?_var hy] at hv
  cases hv
  have hyp := hsees.holds ⟨u, hp⟩
  obtain rfl : w = p.width := Ty.int.inj ((c.rangeOf_maintains hcond).gives hs hp)
  have hw : p.width = (switchRegion p.width default cases target).width :=
    (width_switchRegion _ _ _ _).symm
  rw [Range.paired_of_width_eq _ hw] at hq
  cases hq
  have hregion := hgoes.mem_switchRegion
  rw [hyp.1] at hregion
  exact ⟨hyp.1.trans (Range.width_intersect hw).symm, Range.mem_intersect hw hyp.2 hregion⟩

/-! ## Edges -/

/-- The facts on an edge are about operands that are tested at the end of the block. -/
theorem exists_tested_of_edgeFacts (hrun : (edgeFacts e f b target).run s = .ok m t) {k : Subject}
    (hm : m.get? k = some r) : ∃ x ty, k = .var x ∧ .var x ty ∈ f.tested b := by
  cases edgeCase e f b target with
  | silent heq =>
    rw [heq] at hrun
    obtain ⟨rfl, -⟩ := run_pure_eq_ok.1 hrun
    cases hm
  | branch hterm hdef _ _ heq =>
    simp only [heq, comparedFacts, run_bind_eq_ok, run_pure_eq_ok] at hrun
    obtain ⟨p, _, -, _, _, -, q, _, -, rfl, -⟩ := hrun
    rw [f.tested_of_branch hterm hdef]
    cases k with
    | symbol z =>
      rw [Comparison.get?_refine_symbol] at hm
      cases hm
    | var x =>
      rcases Comparison.get?_refine hm with ⟨u, rfl, -⟩ | ⟨w, rfl, -⟩
      · exact ⟨x, u, rfl, by simp⟩
      · exact ⟨x, .int w, rfl, by simp⟩
  | @switch _ y _ w _ hterm heq =>
    simp only [heq, switchedFacts, run_bind_eq_ok, run_pure_eq_ok] at hrun
    obtain ⟨_, _, -, _, _, -, q, _, -, rfl, -⟩ := hrun
    rw [f.tested_of_switch hterm]
    rw [OrderedMap.ofList, OrderedMap.insertAll_cons, OrderedMap.insertAll_nil,
      OrderedMap.get?_insert] at hm
    split at hm
    · rename_i hk
      exact ⟨y, .int w, hk, List.mem_cons_self⟩
    · cases hm

/-- The facts on an edge are found if the integers that are tested can be read. -/
theorem Checked.exists_run_edgeFacts (c : Checked e f) (hs : e.Fits s) (hb : b ∈ f.blocks)
    (htested : ∀ o ∈ f.tested b, ∀ w, o.ty = .int w →
      countable w.bits = .ok () ∧ ∃ r, e.Reads f s b.label o r) :
    ∃ m t, (edgeFacts e f b target).run s = .ok m t := by
  cases edgeCase e f b target with
  | silent heq =>
    rw [heq]
    exact ⟨∅, s, rfl⟩
  | @branch _ lhs rhs _ _ _ _ hterm hdef hleft hright heq =>
    rw [heq]
    rw [f.tested_of_branch hterm hdef] at htested
    obtain ⟨hlhs, hrhs, -, -, halike⟩ := c.operands_of_compare hs hdef
    obtain ⟨v, hv⟩ := Ty.exists_of_isInt hleft
    obtain ⟨w, hw⟩ := Ty.exists_of_isInt hright
    obtain ⟨-, p, hp⟩ := htested lhs (by simp) v hv
    obtain ⟨-, q, hq⟩ := htested rhs (by simp) w hw
    obtain ⟨t, u, hp, hq, hconf⟩ := halike.exists_reads_pair hlhs hrhs hp hq
    exact ⟨_, u, run_bind_eq_ok.2 ⟨p, t, hp, run_bind_eq_ok.2 ⟨q, u, hq,
      run_bind_eq_ok.2 ⟨q, u, hconf, run_pure_eq_ok.2 ⟨rfl, rfl⟩⟩⟩⟩⟩
  | @switch _ x default w cases hterm heq =>
    rw [heq]
    rw [f.tested_of_switch hterm] at htested
    obtain ⟨i, hi, ha⟩ := mem_instrs_of_terminator? hb hterm
    have hcond := c.operand i hi (.var x (.int w)) (by simp [Instr.operands, Action.operands, ha])
    obtain ⟨hcount, r, t, hr⟩ := htested _ List.mem_cons_self w rfl
    obtain rfl : w = r.width := Ty.int.inj ((c.rangeOf_maintains hcond).gives hs hr)
    have hw : r.width = (switchRegion r.width default cases target).width :=
      (width_switchRegion _ _ _ _).symm
    have hpaired : Fault.ofRange (r.paired Range.intersect
        (switchRegion r.width default cases target)) =
        .ok (r.intersect (switchRegion r.width default cases target)) := by
      rw [Range.paired_of_width_eq _ hw]
      rfl
    exact ⟨_, t, run_bind_eq_ok.2 ⟨_, s, run_counted hcount, run_bind_eq_ok.2 ⟨r, t, hr,
      run_bind_eq_ok.2 ⟨_, t, run_ofExcept_eq_ok.2 ⟨hpaired, rfl⟩,
        run_pure_eq_ok.2 ⟨rfl, rfl⟩⟩⟩⟩⟩

/-- The facts on an edge that is possible have the words of its variables, if these are seen at the
end of the block. -/
theorem Checked.holds_of_edgeFacts (c : Checked e f) (hs : e.Fits s) (hb : b ∈ f.blocks)
    (hrun : (edgeFacts e f b target).run s = .ok m t) {term : Terminator}
    (hterm : b.terminator? = some term) (hgoes : f.Goes ρ term target)
    (hsees : ∀ x ty, .var x ty ∈ f.tested b →
      ∃ v, ρ x = some v ∧ e.Sees f s b.label (.var x ty) v)
    (hv : ρ x = some v) (hm : m.get? (.var x) = some r) : r.Holds v := by
  cases edgeCase e f b target with
  | silent heq =>
    rw [heq] at hrun
    obtain ⟨rfl, -⟩ := run_pure_eq_ok.1 hrun
    cases hm
  | branch hterm' hdef _ _ heq =>
    rw [heq] at hrun
    rw [f.tested_of_branch hterm' hdef] at hsees
    rw [hterm'] at hterm
    cases hterm
    cases hgoes with
    | branch hdef' hne hy hz =>
      rw [hdef'] at hdef
      cases hdef
      obtain ⟨-, -, hlhs, hrhs, -⟩ := c.operands_of_compare hs hdef'
      refine c.holds_of_comparedFacts hs hdef' hrun hy hz (Env.sees_of_read hlhs hy ?_)
        (Env.sees_of_read hrhs hz ?_) (Comparison.holds_of_taken hne _ _ _) hv hm
      · rintro x u rfl
        exact hsees x u (by simp)
      · rintro x u rfl
        exact hsees x u (by simp)
  | @switch _ z _ w _ hterm' heq =>
    rw [heq] at hrun
    rw [f.tested_of_switch hterm'] at hsees
    obtain ⟨i, hi, ha⟩ := mem_instrs_of_terminator? hb hterm'
    rw [hterm'] at hterm
    cases hterm
    cases hgoes with
    | switch hy hswitch =>
      have hcond := c.operand i hi (.var z (.int w)) (by simp [Instr.operands, Action.operands, ha])
      have htyped := c.typed i hi
      rw [ha] at htyped
      refine c.holds_of_switchedFacts hs hcond hrun hy (Env.sees_of_read htyped.1 hy ?_) hswitch
        hv hm
      rintro x u ⟨⟩
      exact hsees z (.int w) List.mem_cons_self

/-- At every moment of every sweep over an accepted program, the facts on an edge are found if the
integers that are tested at the end of the block can be read, and are about variables among these;
and if control can go along the edge with words that are seen there, then the facts have them. -/
theorem edgeFacts_sound {text : String} {mode : WarningMode}
    (hparse : Program.parse text = .ok e.program) (hsound : e.program.isSound = true)
    (h : Sweeping e (.start e.settings mode) s) (hf : f ∈ e.program.functions)
    (hb : b ∈ f.blocks) (target : String) :
    ((∀ o ∈ f.tested b, ∀ w, o.ty = .int w →
        countable w.bits = .ok () ∧ ∃ r, e.Reads f s b.label o r) →
      ∃ m t, (edgeFacts e f b target).run s = .ok m t) ∧
    ∀ m t, (edgeFacts e f b target).run s = .ok m t →
      (∀ k r, m.get? k = some r → ∃ x ty, k = .var x ∧ .var x ty ∈ f.tested b) ∧
      ∀ term ρ, b.terminator? = some term → f.Goes ρ term target →
        (∀ x ty, .var x ty ∈ f.tested b →
          ∃ v, ρ x = some v ∧ e.Sees f s b.label (.var x ty) v) →
        ∀ x r, m.get? (.var x) = some r → ∃ v, ρ x = some v ∧ r.Holds v := by
  have hchecked (g : Function) (hg : g ∈ e.program.functions) : Checked e g :=
    .checked_of_parse hparse hsound hg
  have hfits := (steady_of_sweeping hchecked (.start e.settings mode) h).fits
  have c := hchecked f hf
  refine ⟨c.exists_run_edgeFacts hfits hb, fun m t hrun ↦
    ⟨fun k r ↦ exists_tested_of_edgeFacts hrun, fun term ρ hterm hgoes hsees x r hm ↦ ?_⟩⟩
  obtain ⟨y, ty, hxy, hy⟩ := exists_tested_of_edgeFacts hrun hm
  cases hxy
  obtain ⟨v, hv, -⟩ := hsees x ty hy
  exact ⟨v, hv, c.holds_of_edgeFacts hfits hb hrun hterm hgoes hsees hv hm⟩

/-! ## A branch on a bound -/

open Width (byte)

/-- The low bits of a parameter are compared with a literal. -/
def boundingText : String :=
  "function @f(i8 %x) -> i8 \x7b\nentry:\n  %y = and i8 %x, 15\n  %c = ult i8 %y, 10\n" ++
    "  jnz %c, @low, @high\nlow:\n  ret i8 %y\nhigh:\n  ret i8 %x\n\x7d\n"

def boundingEntry : Block :=
  ⟨"entry", [
    ⟨.assign "y" (.binary .and (.int byte) (.var "x" (.int byte)) (.literal 15 byte)), 3⟩,
    ⟨.assign "c" (.compare .ult (.int byte) (.var "y" (.int byte)) (.literal 10 byte)), 4⟩,
    ⟨.finish (.jnz (.var "c" .i1) "low" "high"), 5⟩]⟩

def bounding : Function where
  name := "f"
  params := [⟨"x", .int byte⟩]
  returns := .int byte
  isVararg := false
  blocks := [boundingEntry,
    ⟨"low", [⟨.finish (.ret (.int byte) (.var "y" (.int byte))), 7⟩]⟩,
    ⟨"high", [⟨.finish (.ret (.int byte) (.var "x" (.int byte))), 9⟩]⟩]

/-- The argument comes from outside. -/
def boundingEnv : Env := .ofProgram ⟨[], [], [bounding]⟩ ⟨2, none, ["arg.f.0"], Nat.zero_lt_two⟩

def boundingFlow : Flow := ⟨["entry", "low", "high"], [⟨"entry", "low"⟩, ⟨"entry", "high"⟩]⟩

theorem isSound_bounding : boundingEnv.program.isSound = true :=
  Function.isSound_of_allAvailable rfl rfl (by decide) (by decide) (by decide) (by decide)

/-- The state after some instructions of the entry, in the first round. -/
def boundingState (n : Nat) : State :=
  endState (do
      mergePredecessors boundingEnv bounding boundingFlow ∅ boundingEntry.label
      anyOf (visit boundingEnv bounding ∅ boundingEntry.label)
        ((boundingEntry.sites bounding.name).take n))
    (beginFunction bounding (beginRound boundingEnv (.start boundingEnv.settings .always)))

/-- The sweep passes through the states after the instructions of the entry. -/
theorem sweeping_boundingState (n : Nat) :
    Sweeping boundingEnv (.start boundingEnv.settings .always) (boundingState n) :=
  ⟨_, _, _, _, bounding, boundingEntry, ∅, boundingFlow, rfl, .refl, ⟨[], [], false, rfl, rfl⟩,
    by cbv, rfl, ⟨[], _, false, rfl, rfl⟩,
    isMoment_take (List.mem_singleton_self _) List.mem_cons_self _ _ _ n⟩

/-- On the edge to the lower half the variable is known to be below ten. -/
theorem edgeFacts_sound_bounding :
    Program.parse boundingText = .ok boundingEnv.program ∧
    boundingEnv.program.isSound = true ∧
    Sweeping boundingEnv (.start boundingEnv.settings .always) (boundingState 3) ∧
    bounding ∈ boundingEnv.program.functions ∧ boundingEntry ∈ bounding.blocks ∧
    ∃ m t, (edgeFacts boundingEnv bounding boundingEntry "low").run (boundingState 3) = .ok m t ∧
      m.get? (.var "y") = some (.ofBounds byte 0 10) ∧
      (Range.ofBounds byte 0 10).Holds (.ofInt byte 7) := by
  have hparse : Program.parse boundingText = .ok boundingEnv.program := by decide +kernel
  have hmem : bounding ∈ boundingEnv.program.functions := List.mem_singleton_self _
  have hentry : boundingEntry ∈ bounding.blocks := List.mem_cons_self
  have hsweeping := sweeping_boundingState 3
  have hrun := run_of_result? (m := edgeFacts boundingEnv bounding boundingEntry "low")
    (s := boundingState 3) (a := .ofList [(.var "y", .ofBounds byte 0 10)]) (by decide +kernel)
  have hread := run_of_result? (m := rangeOf boundingEnv bounding "entry" (.var "y" (.int byte)))
    (s := boundingState 3) (a := .ofBounds byte 0 16) (by decide +kernel)
  obtain ⟨-, hfacts⟩ := edgeFacts_sound hparse isSound_bounding hsweeping hmem hentry "low"
  obtain ⟨-, hsound⟩ := hfacts _ _ hrun
  have hgoes : bounding.Goes (Values.set (fun _ ↦ none) "y" (.ofInt byte 7))
      (.jnz (.var "c" .i1) "low" "high") "low" := by
    have hdef : (Operand.var "c" .i1).var?.bind bounding.definition? =
        some (.compare .ult (.int byte) (.var "y" (.int byte)) (.literal 10 byte)) := rfl
    have hread : (Operand.var "y" (.int byte)).read?
        (Values.set (fun _ ↦ none) "y" (.ofInt byte 7)) = some (.ofInt byte 7) := rfl
    have hlow := Function.Goes.branch hdef (by decide : "low" ≠ "high") hread rfl
    exact hlow
  have hm : OrderedMap.get? (.ofList [(Subject.var "y", Range.ofBounds byte 0 10)] : Facts)
      (.var "y") = some (.ofBounds byte 0 10) := rfl
  have hsees (x : String) (ty : Ty) (hx : .var x ty ∈ bounding.tested boundingEntry) :
      ∃ v, Values.set (fun _ ↦ none) "y" (.ofInt byte 7) x = some v ∧
        boundingEnv.Sees bounding (boundingState 3) boundingEntry.label (.var x ty) v := by
    change _ ∈ [Operand.var "y" (.int byte), .literal 10 byte] at hx
    simp only [List.mem_cons, Operand.var.injEq, reduceCtorEq, List.not_mem_nil, or_false] at hx
    obtain ⟨rfl, rfl⟩ := hx
    exact ⟨_, rfl, _, ⟨_, hread⟩, by decide, by decide⟩
  obtain ⟨v, hv, hholds⟩ := hsound _ _ rfl hgoes hsees "y" _ hm
  cases hv
  exact ⟨hparse, isSound_bounding, hsweeping, hmem, hentry, _, _, hrun, hm, hholds⟩

end Sweep

end RangeFlow
