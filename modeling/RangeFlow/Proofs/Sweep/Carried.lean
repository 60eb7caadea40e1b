import RangeFlow.Proofs.Range.Arith
import RangeFlow.Proofs.Sweep.Settles

/-!
# Instructions that can be carried out

An instruction of an accepted program is carried out if it can be analysed, and an instruction that
is carried out can be analysed.  One lemma says so for every kind of value, and one for every kind
of action; the result of a value always has the width of its type.
-/

namespace RangeFlow

namespace Sweep

namespace Ground

variable {c : Ground} {l : String} {b : Block} {i : Instr}

/-! ## Values -/

theorem counted_settles {w : Width} (h : c.env.Able → w.isShort = true) :
    c.Settles (counted w) fun u ↦ u = w := by
  refine .ofExcept (fun u hu ↦ (counted_eq_ok.1 hu).2.symm) fun hA ↦ ⟨w, ?_⟩
  exact counted_eq_ok.2 ⟨Width.countable_of_isShort (h hA), rfl⟩

/-- The result of an analysable value has a width. -/
theorem resultWidth_settles {t : Ty} (hint : c.env.Able → t.isInt = true)
    (hshort : c.env.Able → t.isShort = true) : c.Settles (resultWidth t) fun w ↦ t = .int w := by
  unfold resultWidth
  cases t with
  | int w => exact (counted_settles hshort).mono fun u hu ↦ by rw [hu]
  | ptr | void | array | named | literal =>
    refine .throw fun hA ↦ ?_
    cases hint hA

/-- The range of a cast has the width of the target. -/
theorem castRange_settles {op : CastOp} {source target : Ty} {o : Operand} (ho : c.Reads o)
    (hshort : c.env.Able → target.isShort = true)
    (hA : c.env.Able → (Value.cast op source o target).isAnalysable = true) :
    c.Settles (castRange c.env c.fn l op source o target) fun r ↦
      (∀ q, r = some q → target = .int q.width) ∧
        (Value.cast op source o target).isAnalysable = true := by
  have hresize {r : Range} {w : Width} (hw : target = .int w) :
      ∀ q, some (r.resize w) = some q → target = .int q.width := by
    rintro q ⟨⟩
    rw [hw, Range.width_resize]
  cases op with
  | trunc | zext =>
    have hboth (hAble : c.env.Able) : o.ty.isInt = true ∧ target.isInt = true :=
      Bool.and_eq_true_iff.1 (hA hAble)
    refine .bind (rangeOf_settles ho fun hAble ↦ (hboth hAble).1) fun r hr ↦ ?_
    refine .bind (resultWidth_settles (fun hAble ↦ (hboth hAble).2) hshort) fun w hw ↦ ?_
    refine .pure ⟨hresize hw, ?_⟩
    simp [Value.isAnalysable, hr.ty, hw, Ty.isInt, Ty.width?]
  | sext =>
    have hwidths (hAble : c.env.Able) : ∃ v w, o.ty = .int v ∧ target = .int w ∧
        v.bits ≤ w.bits := by
      have hle := hA hAble
      obtain ⟨v, w, hv, hw⟩ := Ty.exists_of_isNoWider hle
      simp only [Value.isAnalysable, hv, hw, Ty.isNoWider, decide_eq_true_eq] at hle
      exact ⟨v, w, hv, hw, hle⟩
    have hint (hAble : c.env.Able) : o.ty.isInt = true ∧ target.isInt = true := by
      obtain ⟨v, w, hv, hw, -⟩ := hwidths hAble
      rw [hv, hw]
      exact ⟨rfl, rfl⟩
    refine .bind (rangeOf_settles ho fun hAble ↦ (hint hAble).1) fun r hr ↦ ?_
    refine .bind (resultWidth_settles (fun hAble ↦ (hint hAble).2) hshort) fun w hw ↦ ?_
    refine .bind (.ofExcept (fun q hq ↦ Range.signExtendAt_eq_ok.1 hq) ?_) ?_
    · intro hAble
      obtain ⟨v, u, hv, hu, hle⟩ := hwidths hAble
      obtain rfl : r.width = v := Ty.int.inj (hr.ty.symm.trans hv)
      obtain rfl : w = u := Ty.int.inj (hw.symm.trans hu)
      have hw' := hshort hAble
      rw [hw] at hw'
      exact ⟨_, Range.signExtendAt_eq_ok.2 ⟨hle, Width.countable_of_isShort hw', rfl⟩⟩
    · rintro q ⟨hle, -, rfl⟩
      refine .pure ⟨?_, ?_⟩
      · rintro q ⟨⟩
        rw [hw, Range.width_signExtend]
      · simp only [Value.isAnalysable, hr.ty, hw, Ty.isNoWider]
        exact decide_eq_true hle
  | ptrtoint =>
    refine .bind (resultWidth_settles hA hshort) fun w hw ↦ .pure ⟨?_, ?_⟩
    · rintro q ⟨⟩
      exact hw
    · rw [hw]
      rfl
  | bitcast =>
    unfold castRange
    dsimp only
    split
    · rename_i v w hv hw
      obtain rfl : target = .int w := by
        cases target <;> simp_all [Ty.width?]
      refine .bind (rangeOf_settles ho fun hAble ↦ ?_) fun r hr ↦ ?_
      · simpa [Value.isAnalysable, Ty.isInt, hv, hw] using hA hAble
      · refine .bind (counted_settles hshort) fun u hu ↦ .pure ⟨hresize (by rw [hu]), ?_⟩
        simp [Value.isAnalysable, hr.ty, Ty.isInt, Ty.width?]
    · rename_i hnone
      refine .pure ⟨?_, ?_⟩
      · rintro q ⟨⟩
      · cases hv : source.width? with
        | none => simp [Value.isAnalysable, Ty.isInt, hv]
        | some v =>
          cases hw : target.width? with
          | none => simp [Value.isAnalysable, Ty.isInt, hw]
          | some w => exact absurd hw (hnone v w hv)
  | inttoptr =>
    refine .pure ⟨?_, rfl⟩
    rintro q ⟨⟩

theorem target_settles {label : String} (h : c.fn.hasBlock label = true) :
    c.Settles (ofExcept (c.fn.target label)) fun l ↦ l = label := by
  have htarget : c.fn.target label = .ok label := by rw [Function.target, if_pos h]
  refine .ofExcept (fun l hl ↦ ?_) fun _ ↦ ⟨label, htarget⟩
  rw [htarget, Except.ok.injEq] at hl
  exact hl.symm

/-- The range of a phi has the width of the phi. -/
theorem phiRange_settles {entries : List PhiEntry} {r : Range}
    (hr : c.env.Able → r.width.isShort = true) (hreads : ∀ e ∈ entries, c.Reads e.value)
    (hlabels : ∀ e ∈ entries, c.fn.hasBlock e.label = true)
    (hA : c.env.Able → ∀ e ∈ entries, (⟨e.label, l⟩ : Edge) ∉ c.loops → e.value.ty.isInt = true) :
    c.Settles (phiRange c.env c.fn c.loops l r entries) fun q ↦ q.width = r.width ∧
      ∀ e ∈ entries, (⟨e.label, l⟩ : Edge) ∉ c.loops → e.value.ty.isInt = true := by
  induction entries generalizing r with
  | nil => exact .pure ⟨rfl, fun _ he ↦ absurd he List.not_mem_nil⟩
  | cons e es ih =>
    obtain ⟨hread, hreads⟩ := List.forall_mem_cons.1 hreads
    obtain ⟨hlabel, hlabels⟩ := List.forall_mem_cons.1 hlabels
    have hAs (hAble : c.env.Able) := (List.forall_mem_cons.1 (hA hAble)).2
    refine .bind (target_settles hlabel) ?_
    rintro _ rfl
    split
    · rename_i hloop
      refine (ih hr hreads hlabels hAs).mono fun q hq ↦ ⟨hq.1, ?_⟩
      exact List.forall_mem_cons.2 ⟨fun hnot ↦ absurd hloop hnot, hq.2⟩
    · rename_i hloop
      refine .bind (rangeOf_settles hread fun hAble ↦ hA hAble e List.mem_cons_self hloop)
        fun q hq ↦ ?_
      refine .bind (conformed_settles hr hq.short) ?_
      rintro _ rfl
      have hunion : (r.union (r.conform q)).width = r.width :=
        Range.width_union (Range.width_conform r q).symm
      refine (ih (by rwa [hunion]) hreads hlabels hAs).mono fun q' hq' ↦ ?_
      refine ⟨hq'.1.trans hunion, List.forall_mem_cons.2 ⟨fun _ ↦ ?_, hq'.2⟩⟩
      rw [hq.ty]
      rfl

/-- The result of an instruction can have a fact of the width of its type. -/
theorem fits_of_assign (hi : i ∈ c.fn.instrs) {x : String} {v : Value} {w : Width}
    (ha : i.action = .assign x v) (hty : v.ty = .int w) (hx : c.Located x) :
    c.Fits (.var x) w where
  short := by
    intro hA
    have hv := (reads_of_assign hi ha).short hA
    rw [Operand.ty, hty] at hv
    exact hv
  typed := by
    intro y u hy hu
    cases hy
    rw [c.typing.result i hi x v ha, hty, Option.some.injEq, Ty.int.injEq] at hu
    exact ⟨hu, hx⟩

theorem paramIndex?_of_assign (hi : i ∈ c.fn.instrs) {x : String} {v : Value}
    (ha : i.action = .assign x v) : c.fn.paramIndex? x = none := by
  have hfresh := c.typing.fresh i hi x (by simp [Instr.result?, ha])
  rw [Function.paramIndex?, List.findIdx?_eq_none_iff]
  intro p hp
  have hne : p.name ≠ x := fun heq ↦ hfresh (List.mem_map.2 ⟨p, hp, heq⟩)
  simpa using hne

/-- Only of a loaded value the address has to be followed. -/
theorem located_of_assign (hi : i ∈ c.fn.instrs) {x : String} {v : Value}
    (ha : i.action = .assign x v)
    (hload : ∀ t a, v = .load t a → ∃ l, c.env.program.memoryLocation c.fn a = .ok l) :
    c.Located x := by
  unfold Located Program.valueLocation
  dsimp only
  rw [paramIndex?_of_assign hi ha, c.typing.definition?_of_assign hi ha]
  cases v with
  | load t a => exact hload t a rfl
  | call | binary | compare | cast | select | phi | alloca | field | elem => exact ⟨_, rfl⟩

/-- The address of a load is followed to an end, as it was when the load was located. -/
theorem ends_of_located (hi : i ∈ c.fn.instrs) {x : String} {t : Ty} {a : Operand}
    (ha : i.action = .assign x (.load t a)) (hx : c.Located x) : c.fn.Ends a := by
  obtain ⟨l, hl⟩ := hx
  unfold Program.valueLocation at hl
  dsimp only at hl
  rw [paramIndex?_of_assign hi ha, c.typing.definition?_of_assign hi ha] at hl
  exact Program.ends_of_memoryLocation hl

/-- What is found for a value: a range that its variable can have as a fact, and that the
instruction can be analysed. -/
def Found (c : Ground) (b : Block) (i : Instr) (x : String) (r : Option Range) : Prop :=
  (∀ q, r = some q → c.Fits (.var x) q.width) ∧ i.action.IsAnalysable c.fn c.loops b.label

/-- A range of the type of a value is a fact that its variable can have. -/
theorem found_of_ty (hi : i ∈ c.fn.instrs) {x : String} {v : Value} (ha : i.action = .assign x v)
    (hload : ∀ t a, v ≠ .load t a) {r : Option Range} (hr : ∀ q, r = some q → v.ty = .int q.width)
    (hana : i.action.IsAnalysable c.fn c.loops b.label) : c.Found b i x r := by
  refine ⟨fun q hq ↦ fits_of_assign hi ha (hr q hq) ?_, hana⟩
  exact located_of_assign hi ha fun t a h ↦ absurd h (hload t a)

section Values

variable {x : String} (hb : b ∈ c.fn.blocks) (hib : i ∈ b.instrs)
include hb hib

theorem mem_instrs : i ∈ c.fn.instrs := List.mem_flatMap.2 ⟨b, hb, hib⟩

theorem binary_settles {op : BinaryOp} {ty : Ty} {lhs rhs : Operand}
    (ha : i.action = .assign x (.binary op ty lhs rhs)) :
    c.Settles (valueRange c.env c.fn c.loops b.label x (.binary op ty lhs rhs))
      (c.Found b i x) := by
  have hi := mem_instrs hb hib
  have hops : i.operands = [lhs, rhs] := by simp [Instr.operands, Action.operands, ha]
  have hA (hAble : c.env.Able) : lhs.ty.isInt = true ∧ rhs.ty.isInt = true := by
    have := isAnalysable_of_able hAble hb hib
    rw [ha] at this
    exact Bool.and_eq_true_iff.1 this
  have htyped := c.typed i hi
  rw [ha] at htyped
  refine .bind (rangeOf_settles (reads_of_mem hi (by simp [hops])) fun h ↦ (hA h).1) fun r hr ↦ ?_
  refine .bind (rangeOf_settles (reads_of_mem hi (by simp [hops])) fun h ↦ (hA h).2) fun q hq ↦ ?_
  refine .bind (conformed_settles hr.short hq.short) ?_
  rintro _ rfl
  have hint : lhs.ty.isInt = true ∧ rhs.ty.isInt = true := by
    rw [hr.ty, hq.ty]
    exact ⟨rfl, rfl⟩
  refine .pure (found_of_ty hi ha (by rintro t a ⟨⟩) ?_ ?_)
  · rintro _ ⟨⟩
    rw [BinaryOp.width_range op (Range.width_conform r q).symm, ← hr.ty, htyped.1.ty_eq hint.1]
    rfl
  · rw [ha]
    exact Bool.and_eq_true_iff.2 hint

theorem select_settles {ty : Ty} {cond lhs rhs : Operand}
    (ha : i.action = .assign x (.select ty cond lhs rhs)) :
    c.Settles (valueRange c.env c.fn c.loops b.label x (.select ty cond lhs rhs))
      (c.Found b i x) := by
  have hi := mem_instrs hb hib
  have hops : i.operands = [cond, lhs, rhs] := by simp [Instr.operands, Action.operands, ha]
  have htyped := c.typed i hi
  rw [ha] at htyped
  cases hty : ty.isInt with
  | false =>
    simp only [valueRange, hty, Bool.false_eq_true, if_false]
    refine .pure (found_of_ty hi ha (by rintro t a ⟨⟩) (by rintro q ⟨⟩) ?_)
    rw [ha]
    simp [Action.IsAnalysable, Value.isAnalysable, hty]
  | true =>
    simp only [valueRange, hty, if_true]
    have hA (hAble : c.env.Able) : lhs.ty.isInt = true ∧ rhs.ty.isInt = true := by
      have := isAnalysable_of_able hAble hb hib
      rw [ha] at this
      simpa [Action.IsAnalysable, Value.isAnalysable, hty] using this
    refine .bind (rangeOf_settles (reads_of_mem hi (by simp [hops])) fun h ↦ (hA h).1)
      fun r hr ↦ ?_
    refine .bind (rangeOf_settles (reads_of_mem hi (by simp [hops])) fun h ↦ (hA h).2)
      fun q hq ↦ ?_
    refine .bind (conformed_settles hr.short hq.short) ?_
    rintro _ rfl
    have hint : lhs.ty.isInt = true ∧ rhs.ty.isInt = true := by
      rw [hr.ty, hq.ty]
      exact ⟨rfl, rfl⟩
    refine .pure (found_of_ty hi ha (by rintro t a ⟨⟩) ?_ ?_)
    · rintro _ ⟨⟩
      rw [Range.width_union (Range.width_conform r q).symm, ← hr.ty, htyped.2.1.ty_eq hint.1]
      rfl
    · rw [ha]
      simp [Action.IsAnalysable, Value.isAnalysable, hint]

theorem phi_settles {ty : Ty} {entries : List PhiEntry}
    (ha : i.action = .assign x (.phi ty entries)) :
    c.Settles (valueRange c.env c.fn c.loops b.label x (.phi ty entries)) (c.Found b i x) := by
  have hi := mem_instrs hb hib
  have hlabels : i.labels = entries.map PhiEntry.label := by
    simp [Instr.labels, Action.labels, ha]
  have hops : i.operands = entries.map PhiEntry.value := by
    simp [Instr.operands, Action.operands, ha]
  have hshort := (reads_of_assign hi ha).short
  cases ty with
  | int w =>
    refine .bind (counted_settles hshort) ?_
    rintro _ rfl
    refine .bind (phiRange_settles hshort ?_ ?_ ?_) fun r hr ↦ ?_
    · exact fun e he ↦ reads_of_mem hi (by rw [hops]; exact List.mem_map_of_mem he)
    · exact fun e he ↦
        hasBlock_of_isSound c.sound c.mem hi (by rw [hlabels]; exact List.mem_map_of_mem he)
    · intro hAble
      have := isAnalysable_of_able hAble hb hib
      rw [ha] at this
      exact this rfl
    · refine .pure (found_of_ty hi ha (by rintro t a ⟨⟩) ?_ ?_)
      · rintro _ ⟨⟩
        rw [hr.1]
        rfl
      · rw [ha]
        exact fun _ ↦ hr.2
  | ptr | void | array | named | literal =>
    refine .pure (found_of_ty hi ha (by rintro t a ⟨⟩) (by rintro q ⟨⟩) ?_)
    rw [ha]
    rintro ⟨⟩

theorem load_settles {ty : Ty} {address : Operand} (ha : i.action = .assign x (.load ty address)) :
    c.Settles (valueRange c.env c.fn c.loops b.label x (.load ty address)) (c.Found b i x) := by
  have hi := mem_instrs hb hib
  have hreads := reads_of_assign hi ha
  cases hty : ty.isInt with
  | false =>
    simp only [valueRange, hty, Bool.false_eq_true, if_false]
    refine .pure ⟨by rintro q ⟨⟩, ?_⟩
    rw [ha]
    intro hint
    rw [hty] at hint
    cases hint
  | true =>
    simp only [valueRange, hty, if_true]
    refine .bind (rangeOf_settles hreads fun _ ↦ hty) fun r hr ↦ .pure ⟨?_, ?_⟩
    · rintro _ ⟨⟩
      exact hr.fits hreads
    · rw [ha]
      exact fun _ ↦ ends_of_located hi ha (hr.located x ty rfl)

theorem cast_settles {op : CastOp} {source target : Ty} {o : Operand}
    (ha : i.action = .assign x (.cast op source o target)) :
    c.Settles (valueRange c.env c.fn c.loops b.label x (.cast op source o target))
      (c.Found b i x) := by
  have hi := mem_instrs hb hib
  have hops : i.operands = [o] := by simp [Instr.operands, Action.operands, ha]
  refine (castRange_settles (reads_of_mem hi (by simp [hops])) (reads_of_assign hi ha).short
    fun hAble ↦ ?_).mono fun r hr ↦ ?_
  · have := isAnalysable_of_able hAble hb hib
    rw [ha] at this
    exact this
  · refine found_of_ty hi ha (by rintro t a ⟨⟩) hr.1 ?_
    rw [ha]
    exact hr.2

/-- The range of a value is found, whatever it is computed by; calls apart. -/
theorem valueRange_settles {v : Value} (ha : i.action = .assign x v)
    (hcall : ∀ call, v ≠ .call call) :
    c.Settles (valueRange c.env c.fn c.loops b.label x v) (c.Found b i x) := by
  have hi := mem_instrs hb hib
  cases v with
  | binary => exact binary_settles hb hib ha
  | cast => exact cast_settles hb hib ha
  | select => exact select_settles hb hib ha
  | phi => exact phi_settles hb hib ha
  | load => exact load_settles hb hib ha
  | compare =>
    refine .pure (found_of_ty hi ha (by rintro t a ⟨⟩) ?_ ?_)
    · rintro _ ⟨⟩
      rfl
    · rw [ha]
      rfl
  | alloca | field | elem =>
    refine .pure (found_of_ty hi ha (by rintro t a ⟨⟩) (by rintro q ⟨⟩) ?_)
    rw [ha]
    rfl
  | call call => exact absurd rfl (hcall call)

end Values

/-! ## Instructions -/

/-- A range of an operand that is read can be offered. -/
theorem offerFrom_settles (hi : i ∈ c.fn.instrs) {id : String} {o : Operand} {r : Range}
    (hr : c.Gives o r) : c.Settles (offer id r (some ⟨i, c.fn.name⟩)) fun _ ↦ True := by
  refine offer_settles hr.short fun hA origin horigin ↦ ?_
  cases horigin
  exact Program.instr_isWritable hA.2 c.mem hi

theorem visitStore_settles (hb : b ∈ c.fn.blocks) (hib : i ∈ b.instrs) {ty : Ty}
    {value address : Operand} (ha : i.action = .store ty value address) :
    c.Settles (visitStore c.env c.fn b.label i value address) fun _ ↦
      i.action.IsAnalysable c.fn c.loops b.label := by
  have hi := mem_instrs hb hib
  have hops : i.operands = [value, address] := by simp [Instr.operands, Action.operands, ha]
  have haddress : c.Reads address := reads_of_mem hi (by simp [hops])
  have hptr := c.typed i hi
  rw [ha] at hptr
  rw [ha]
  cases hint : value.ty.isInt with
  | false =>
    simp only [visitStore, hint, Bool.not_false, if_true]
    refine .pure fun h ↦ ?_
    rw [hint] at h
    cases h
  | true =>
    simp only [visitStore, hint, Bool.not_true, Bool.false_eq_true, if_false]
    refine .bind (rangeOf_settles (reads_of_mem hi (by simp [hops])) fun _ ↦ hint) fun r hr ↦ ?_
    have hend : c.Settles (offerStored c.env c.fn i address r) fun _ ↦
        (Action.store ty value address).IsAnalysable c.fn c.loops b.label := by
      refine .bind (.ofExcept (Q := fun _ ↦ c.fn.Ends address) ?_ fun hAble ↦ ?_) fun l hends ↦ ?_
      · exact fun l hl ↦ Program.ends_of_memoryLocation hl
      · have := isAnalysable_of_able hAble hb hib
        rw [ha] at this
        exact exists_memoryLocation_of_able hAble (this hint)
      · split
        · exact (offerFrom_settles hi hr).mono fun _ _ _ ↦ hends
        · exact .pure fun _ ↦ hends
    -- The address is no integer, so that its fact may have any width.
    have hfits (k : Subject) (hk : address.subject? = some k) : c.Fits k r.width := by
      refine ⟨hr.short, ?_⟩
      rintro x u rfl hu
      cases address with
      | var y t =>
        cases hk
        rw [haddress.type x t rfl, Option.some.injEq, hptr.2] at hu
        cases hu
      | symbol | literal => cases hk
    split
    · rename_i k hk
      exact .bind (joinFact_settles (hfits k hk)) fun _ _ ↦ hend
    · exact hend

theorem offerArg_settles (hi : i ∈ c.fn.instrs) {g : Function} {arg : Operand × Nat}
    (harg : c.Reads arg.1) : c.Settles (offerArg c.env c.fn l i g arg) fun _ ↦ True := by
  obtain ⟨o, index⟩ := arg
  cases hint : o.ty.isInt with
  | false =>
    simp only [offerArg, hint, Bool.not_false, if_true]
    exact .pure ⟨⟩
  | true =>
    simp only [offerArg, hint, Bool.not_true, Bool.false_eq_true, if_false]
    refine .bind (rangeOf_settles harg fun _ ↦ hint) fun r hr ↦ ?_
    exact offerFrom_settles hi hr

/-- The arguments of a call are offered to a function that it can invoke. -/
theorem offerArgs_settles (hi : i ∈ c.fn.instrs) {call : Call} {callee : String}
    (hargs : ∀ o ∈ call.args, c.Reads o) :
    c.Settles (offerArgs c.env c.fn l i call callee) fun _ ↦ True := by
  unfold offerArgs
  split
  · exact .pure ⟨⟩
  · split
    · exact .pure ⟨⟩
    · rename_i g _ _
      refine (Settles.anyOf (P := fun _ ↦ True) fun arg harg ↦ ?_).mono fun _ _ ↦ ⟨⟩
      refine offerArg_settles hi (hargs _ ?_)
      exact List.mem_of_mem_take (List.fst_mem_of_mem_zipIdx harg)

theorem offerResult_settles (hi : i ∈ c.fn.instrs) {x : String} {call : Call}
    (ha : i.action = .assign x (.call call)) :
    c.Settles (offerResult c.env c.fn l i x call.returns) fun _ ↦ True := by
  have hreads : c.Reads (.var x call.returns) := reads_of_assign hi ha
  cases hint : call.returns.isInt with
  | false =>
    simp only [offerResult, hint, Bool.not_false, if_true]
    exact .pure ⟨⟩
  | true =>
    simp only [offerResult, hint, Bool.not_true, Bool.false_eq_true, if_false]
    refine .bind (rangeOf_settles hreads fun _ ↦ hint) fun r hr ↦ ?_
    refine .bind (joinFact_settles (hr.fits hreads)) fun _ _ ↦ ?_
    exact offerFrom_settles hi hr

theorem visitCall_settles (hi : i ∈ c.fn.instrs) {site : Site} {call : Call}
    (hc : i.call? = some call) (hargs : ∀ o ∈ call.args, c.Reads o) :
    c.Settles (visitCall c.env c.fn l site i call) fun _ ↦ True := by
  unfold visitCall
  dsimp only
  split
  · exact .pure ⟨⟩
  · refine .bind ((Settles.anyOf (P := fun _ ↦ True) fun callee _ ↦ offerArgs_settles hi hargs).mono
      fun _ _ ↦ ⟨⟩) fun changed (_ : True) ↦ ?_
    split
    · rename_i x hx
      have ha := i.action_of_call? hc hx
      exact .bind (offerResult_settles hi ha) fun _ _ ↦ .pure ⟨⟩
    · exact .pure ⟨⟩

theorem visitReturn_settles (hb : b ∈ c.fn.blocks) (hib : i ∈ b.instrs) {ty : Ty} {value : Operand}
    (ha : i.action = .finish (.ret ty value)) :
    c.Settles (visitReturn c.env c.fn b.label i ty value) fun _ ↦
      i.action.IsAnalysable c.fn c.loops b.label := by
  have hi := mem_instrs hb hib
  have hops : i.operands = [value] := by simp [Instr.operands, Action.operands, ha]
  rw [ha]
  cases hint : ty.isInt with
  | false =>
    simp only [visitReturn, hint, Bool.not_false, if_true]
    refine .pure fun h ↦ ?_
    rw [hint] at h
    cases h
  | true =>
    simp only [visitReturn, hint, Bool.not_true, Bool.false_eq_true, if_false]
    refine .bind (rangeOf_settles (reads_of_mem hi (by simp [hops])) fun hAble ↦ ?_) fun r hr ↦ ?_
    · have := isAnalysable_of_able hAble hb hib
      rw [ha] at this
      exact this hint
    · refine (offerFrom_settles hi hr).mono fun _ _ _ ↦ ?_
      rw [hr.ty]
      rfl

/-- An instruction that is carried out can be analysed. -/
theorem perform_settles (hb : b ∈ c.fn.blocks) (hib : i ∈ b.instrs) {site : Site} :
    c.Settles (perform c.env c.fn c.loops b.label site i) fun _ ↦
      i.action.IsAnalysable c.fn c.loops b.label := by
  have hi := mem_instrs hb hib
  unfold perform
  split
  · rename_i x call ha
    refine (visitCall_settles hi (by simp [Instr.call?, ha]) fun o ho ↦ ?_).mono fun _ _ ↦ ?_
    · exact reads_of_mem hi (by simp [Instr.operands, Action.operands, ha, ho])
    · rw [ha]
      rfl
  · rename_i call ha
    refine (visitCall_settles hi (by simp [Instr.call?, ha]) fun o ho ↦ ?_).mono fun _ _ ↦ ?_
    · exact reads_of_mem hi (by simp [Instr.operands, Action.operands, ha, ho])
    · rw [ha]
      exact ⟨⟩
  · rename_i x v hcall ha
    refine .bind (valueRange_settles hb hib ha fun call hv ↦ ?_) fun r hr ↦ ?_
    · exact hcall call hv
    · split
      · rename_i q
        exact .bind (joinFact_settles (hr.1 q rfl)) fun _ _ ↦ .pure hr.2
      · exact .pure hr.2
  · rename_i ha
    exact visitStore_settles hb hib ha
  · rename_i ha
    exact visitReturn_settles hb hib ha
  · rename_i t hret ha
    refine .pure ?_
    rw [ha]
    cases t with
    | ret ty v => exact absurd rfl (hret ty v)
    | jmp | jnz | switch | retVoid | unreachable => exact ⟨⟩

theorem visit_settles (hb : b ∈ c.fn.blocks) {p : Site × Instr} (hp : p ∈ b.sites c.fn.name) :
    c.Settles (visit c.env c.fn c.loops b.label p) fun _ ↦
      p.2.action.IsAnalysable c.fn c.loops b.label := by
  obtain ⟨site, i⟩ := p
  obtain ⟨⟨j, n⟩, hmem, heq⟩ := List.mem_map.1 hp
  cases heq
  have hib : i ∈ b.instrs := List.fst_mem_of_mem_zipIdx hmem
  unfold visit
  rw [c.modeled]
  exact perform_settles hb hib

end Ground

end Sweep

end RangeFlow
