import RangeFlow.Proofs.Range.Arith
import RangeFlow.Proofs.Range.Resize
import RangeFlow.Proofs.Sweep.Told

/-!
# Instructions and edges

The word that an instruction assigns is in the range that the sweep gives to its result, and a run
that takes an edge has words that the facts on the edge allow, provided that the words it had before
were covered.
-/

namespace RangeFlow

namespace Sweep

namespace Scope

variable {c : Scope} {s t : State} {l : String} {r : Range} {i : Instr}

/-! ## Values -/

/-- A range has the word of a value whenever the facts cover the words that the value reads: those
of the block, or for a phi those of the block that control comes from. -/
def Bounds (c : Scope) (s : State) (l : String) (v : Value) (r : Range) : Prop :=
  ∀ a ρ y, c.Covers (c.facts s l) ρ →
    (∀ p, a.source = some p → c.Covers (c.facts s p) a.values) → v.eval? a ρ = some y → r.Holds y

/-- A value gets a range of its type that has its word, and no other fact is set. -/
def Ranges (c : Scope) (s t : State) (l : String) (v : Value) (r? : Option Range) : Prop :=
  c.Moves nothing s t ∧ ∃ r, r? = some r ∧ v.ty = .int r.width ∧ c.Bounds s l v r

/-- Two operands of one width are read one after the other. -/
theorem rangeOf_pair_moves (hs : c.Good s) (hi : i ∈ c.fn.instrs) {a b : Operand}
    (ha : a ∈ i.operands) (hb : b ∈ i.operands) (hty : a.ty = b.ty) {lhs rhs rhs' : Range}
    {u u' : State} (hlhs : (rangeOf c.env c.fn l a).run s = .ok lhs u)
    (hrhs : (rangeOf c.env c.fn l b).run u = .ok rhs' u')
    (hconf : (conformed lhs rhs').run u' = .ok rhs t) :
    c.Moves nothing s t ∧ a.ty = .int lhs.width ∧ lhs.width = rhs.width ∧
      (∃ m, c.Typed m ∧ lhs = c.seen m a) ∧ (∃ m, c.Typed m ∧ rhs = c.seen m b) ∧
      ∀ ρ, c.Covers (c.facts s l) ρ → (∀ y, a.read? ρ = some y → lhs.Holds y) ∧
        ∀ z, b.read? ρ = some z → rhs.Holds z := by
  obtain ⟨hu, rfl, hla⟩ := rangeOf_moves hs hi ha hlhs
  obtain ⟨hu', rfl, hrb⟩ := rangeOf_moves hu.good hi hb hrhs
  obtain ⟨ht, rfl⟩ := conformed_moves hu'.good hconf
  have hw : (c.seen (c.facts s l) a).width = (c.seen (c.facts u l) b).width := by
    rw [← hty, hla] at hrb
    exact Ty.int.inj hrb
  have hconform : (c.seen (c.facts s l) a).conform (c.seen (c.facts u l) b) =
      c.seen (c.facts u l) b := if_pos hw
  rw [hconform]
  refine ⟨hu.trans (hu'.trans ht), hla, hw, ⟨_, hs.typed l, rfl⟩, ⟨_, hu.good.typed l, rfl⟩,
    fun ρ hρ ↦ ⟨fun y hy ↦ ?_, fun z hz ↦ ?_⟩⟩
  · have hwidth := Operand.ty_of_read? hy
    rw [hla] at hwidth
    exact ⟨(Ty.int.inj hwidth).symm, hρ.mem_seen hi ha hy⟩
  · have hwidth := Operand.ty_of_read? hz
    rw [hrb] at hwidth
    exact ⟨(Ty.int.inj hwidth).symm,
      (hu.covers hρ fun _ ↦ False.elim).mem_seen hi hb hz⟩

section Kinds

variable {loops : OrderedSet Edge} {x : String} {ty : Ty} {a b o : Operand} {r? : Option Range}

theorem binary_ranges (hs : c.Good s) (hi : i ∈ c.fn.instrs) {op : BinaryOp}
    (hact : i.action = .assign x (.binary op ty a b))
    (h : (valueRange c.env c.fn loops l x (.binary op ty a b)).run s = .ok r? t) :
    c.Ranges s t l (.binary op ty a b) r? := by
  have hplain := c.orderly.plain i hi
  simp only [Instr.isPlain, hact, Value.isPlain, Bool.and_eq_true, decide_eq_true_eq] at hplain
  obtain ⟨⟨-, hta⟩, htb⟩ := hplain
  simp only [valueRange, run_bind_eq_ok, run_pure_eq_ok] at h
  obtain ⟨lhs, u, hlhs, rhs', u', hrhs, rhs, _, hconf, rfl, rfl⟩ := h
  have hops : i.operands = [a, b] := by simp [Instr.operands, hact, Action.operands]
  obtain ⟨hmoves, hty, hw, -, -, hread⟩ := rangeOf_pair_moves hs hi (by simp [hops])
    (by simp [hops]) (hta.trans htb.symm) hlhs hrhs hconf
  have hwidth : (op.range lhs rhs).width = lhs.width := BinaryOp.width_range op hw
  refine ⟨hmoves, _, rfl, by rw [hwidth, ← hty, hta]; rfl, ?_⟩
  intro k ρ y hρ _ hy
  simp only [Value.eval?, Option.bind_eq_bind, Option.bind_eq_some_iff] at hy
  obtain ⟨p, hp, q, hq, hy⟩ := hy
  split at hy
  · obtain ⟨z, hz, hy⟩ := Option.bind_eq_some_iff.1 hy
    cases hy
    have hpl := (hread ρ hρ).1 p hp
    have hqr := (hread ρ hρ).2 q hq
    rw [hpl.1] at hz
    have hmem := BinaryOp.eval?_mem hw hpl.2 hqr.2 hz
    have hlt := Range.lt_card_of_mem hmem
    rw [hwidth, ← hpl.1] at hlt
    refine ⟨by rw [hwidth]; exact hpl.1, ?_⟩
    rw [Word.val_ofInt, p.width.wrap_natCast_of_lt hlt]
    exact hmem
  · cases hy

/-- A comparison is ranged rightly, by both its results. -/
theorem compare_ranges (hs : c.Good s) {op : Comparison}
    (h : (valueRange c.env c.fn loops l x (.compare op ty a b)).run s = .ok r? t) :
    c.Ranges s t l (.compare op ty a b) r? := by
  obtain ⟨rfl, rfl⟩ := run_pure_eq_ok.1 h
  refine ⟨.refl hs, _, rfl, rfl, ?_⟩
  intro k ρ y _ _ hy
  obtain ⟨p, q, -, -, -, rfl⟩ := eval?_compare_eq_some.1 hy
  exact ⟨rfl, Range.mem_full.2 (Width.wrap_lt_card _ _)⟩

/-- A select is ranged rightly, by either of its operands. -/
theorem select_ranges (hs : c.Good s) (hi : i ∈ c.fn.instrs)
    (hact : i.action = .assign x (.select ty o a b))
    (h : (valueRange c.env c.fn loops l x (.select ty o a b)).run s = .ok r? t) :
    c.Ranges s t l (.select ty o a b) r? := by
  have hplain := c.orderly.plain i hi
  simp only [Instr.isPlain, hact, Value.isPlain, Bool.and_eq_true, decide_eq_true_eq] at hplain
  obtain ⟨⟨⟨hint, -⟩, hta⟩, htb⟩ := hplain
  simp only [valueRange, hint, if_true, run_bind_eq_ok, run_pure_eq_ok] at h
  obtain ⟨lhs, u, hlhs, rhs', u', hrhs, rhs, _, hconf, rfl, rfl⟩ := h
  have hops : i.operands = [o, a, b] := by simp [Instr.operands, hact, Action.operands]
  obtain ⟨hmoves, hty, hw, -, -, hread⟩ := rangeOf_pair_moves hs hi (by simp [hops])
    (by simp [hops]) (hta.trans htb.symm) hlhs hrhs hconf
  have hwidth : (lhs.union rhs).width = lhs.width := Range.width_union hw
  refine ⟨hmoves, _, rfl, by rw [hwidth, ← hty, hta]; rfl, ?_⟩
  intro k ρ y hρ _ hy
  obtain ⟨p, -, hy⟩ := Option.bind_eq_some_iff.1 hy
  split at hy
  · have hyl := (hread ρ hρ).1 y hy
    exact ⟨by rw [hwidth]; exact hyl.1, Range.mem_union hw (.inl hyl.2)⟩
  · have hyr := (hread ρ hρ).2 y hy
    exact ⟨by rw [hwidth, hw]; exact hyr.1, Range.mem_union hw (.inr hyr.2)⟩

/-- The range of a phi covers the words that come from any of its blocks. -/
theorem phiRange_moves (hs : c.Good s) (hi : i ∈ c.fn.instrs) {entries : List PhiEntry}
    (hops : ∀ entry ∈ entries, entry.value ∈ i.operands)
    {first : Range} (hty : ∀ entry ∈ entries, entry.value.ty = .int first.width)
    (h : (phiRange c.env c.fn ∅ l first entries).run s = .ok r t) :
    c.Moves nothing s t ∧ r.width = first.width ∧ (∀ n ∈ first, n ∈ r) ∧
      ∀ entry ∈ entries, ∀ ρ y, c.Covers (c.facts s entry.label) ρ →
        entry.value.read? ρ = some y → y.val ∈ r := by
  induction entries generalizing s first with
  | nil =>
    obtain ⟨rfl, rfl⟩ := run_pure_eq_ok.1 h
    exact ⟨.refl hs, rfl, fun _ ↦ id, fun _ h ↦ (List.not_mem_nil h).elim⟩
  | cons entry entries ih =>
    obtain ⟨source, _, hsource, h⟩ := run_bind_eq_ok.1 h
    obtain ⟨htarget, rfl⟩ := run_ofExcept_eq_ok.1 hsource
    obtain rfl := target_eq_ok htarget
    rw [if_neg (OrderedSet.notMem_empty _)] at h
    simp only [run_bind_eq_ok] at h
    obtain ⟨value', u, hvalue, value, u', hconf, hrest⟩ := h
    obtain ⟨hu, rfl, hw⟩ := rangeOf_moves hs hi (hops entry List.mem_cons_self) hvalue
    obtain ⟨hu', rfl⟩ := conformed_moves (W := nothing) hu.good hconf
    rw [hty entry List.mem_cons_self] at hw
    have hconform : first.conform (c.seen (c.facts s entry.label) entry.value) =
      c.seen (c.facts s entry.label) entry.value := if_pos (Ty.int.inj hw)
    rw [hconform] at hrest
    have hwidth := Range.width_union (Ty.int.inj hw)
    have hmoves := hu.trans hu'
    obtain ⟨ht, hrw, hfirst, hmem⟩ := ih hu'.good (fun e he ↦ hops e (List.mem_cons_of_mem _ he))
      (fun e he ↦ by rw [hwidth]; exact hty e (List.mem_cons_of_mem _ he)) hrest
    refine ⟨hmoves.trans ht, hrw.trans hwidth, fun n hn ↦ ?_, fun e he ρ y hρ hy ↦ ?_⟩
    · exact hfirst n (Range.mem_union (Ty.int.inj hw) (.inl hn))
    · rcases List.mem_cons.1 he with rfl | he
      · refine hfirst _ (Range.mem_union (Ty.int.inj hw) (.inr ?_))
        exact hρ.mem_seen hi (hops e List.mem_cons_self) hy
      · exact hmem e he ρ y (hmoves.covers hρ fun _ ↦ False.elim) hy

/-- A phi is ranged rightly in a function without back edges. -/
theorem phi_ranges (hs : c.Good s) (hi : i ∈ c.fn.instrs) {entries : List PhiEntry}
    (hact : i.action = .assign x (.phi ty entries))
    (h : (valueRange c.env c.fn ∅ l x (.phi ty entries)).run s = .ok r? t) :
    c.Ranges s t l (.phi ty entries) r? := by
  have hplain := c.orderly.plain i hi
  simp only [Instr.isPlain, hact, Value.isPlain, Bool.and_eq_true, List.all_eq_true,
    decide_eq_true_eq] at hplain
  obtain ⟨hint, hentries⟩ := hplain
  cases ty with
  | ptr | void | array | named | literal => cases hint
  | int w =>
    simp only [valueRange, Ty.width?, counted, run_bind_eq_ok, run_ofExcept_eq_ok, run_pure_eq_ok,
      counted_eq_ok] at h
    obtain ⟨_, _, ⟨⟨-, rfl⟩, rfl⟩, r, _, hphi, rfl, rfl⟩ := h
    have hops : ∀ entry ∈ entries, entry.value ∈ i.operands := by
      intro entry he
      simp only [Instr.operands, hact, Action.operands]
      exact List.mem_map_of_mem he
    obtain ⟨hmoves, hrw, -, hmem⟩ := phiRange_moves hs hi hops hentries hphi
    refine ⟨hmoves, r, rfl, by rw [hrw]; rfl, ?_⟩
    intro k ρ y _ hsource hy
    simp only [Value.eval?, Option.bind_eq_bind, Option.bind_eq_some_iff] at hy
    obtain ⟨p, hp, entry, hfind, hy⟩ := hy
    have he := List.mem_of_find?_eq_some hfind
    obtain rfl : entry.label = p := by simpa using List.find?_some hfind
    have hwidth := Operand.ty_of_read? hy
    rw [hentries entry he] at hwidth
    refine ⟨?_, hmem entry he k.values y (hsource _ hp) hy⟩
    rw [hrw, ← Ty.int.inj hwidth]
    rfl

/-- Truncation and extension by zeros resize the range of the operand. -/
theorem resize_ranges (hs : c.Good s) (hi : i ∈ c.fn.instrs) (ho : o ∈ i.operands) {op : CastOp}
    {w : Width} (hop : ∀ v, op.eval? v w = some (.ofInt w v.val))
    (h : (do
      let r ← rangeOf c.env c.fn l o
      return some (r.resize (← resultWidth (.int w)))).run s = .ok r? t) :
    c.Ranges s t l (.cast op ty o (.int w)) r? := by
  simp only [resultWidth, Ty.width?, counted, run_bind_eq_ok, run_ofExcept_eq_ok, run_pure_eq_ok,
    counted_eq_ok] at h
  obtain ⟨r, u, hr, _, _, ⟨⟨-, rfl⟩, rfl⟩, rfl, rfl⟩ := h
  obtain ⟨hmoves, rfl, -⟩ := rangeOf_moves hs hi ho hr
  refine ⟨hmoves, _, rfl, by rw [Range.width_resize]; rfl, ?_⟩
  intro k ρ y hρ _ hy
  obtain ⟨v, hv, hy⟩ := Option.bind_eq_some_iff.1 hy
  rw [hop] at hy
  cases hy
  exact ⟨(Range.width_resize _ _).symm, Range.wrap_mem_resize (hρ.mem_seen hi ho hv)⟩

theorem sext_ranges (hs : c.Good s) (hi : i ∈ c.fn.instrs) (ho : o ∈ i.operands) {w : Width}
    (h : (castRange c.env c.fn l .sext ty o (.int w)).run s = .ok r? t) :
    c.Ranges s t l (.cast .sext ty o (.int w)) r? := by
  simp only [castRange, resultWidth, Ty.width?, counted, run_bind_eq_ok, run_ofExcept_eq_ok,
    run_pure_eq_ok, counted_eq_ok] at h
  obtain ⟨r, u, hr, _, _, ⟨⟨-, rfl⟩, rfl⟩, r', _, ⟨hext, rfl⟩, rfl, rfl⟩ := h
  obtain ⟨hmoves, rfl, hty⟩ := rangeOf_moves hs hi ho hr
  obtain ⟨-, -, rfl⟩ := Range.signExtendAt_eq_ok.1 hext
  refine ⟨hmoves, _, rfl, by rw [Range.width_signExtend]; rfl, ?_⟩
  intro k ρ y hρ _ hy
  obtain ⟨v, hv, hy⟩ := Option.bind_eq_some_iff.1 hy
  cases hy
  have hwidth := Operand.ty_of_read? hv
  rw [hty] at hwidth
  refine ⟨(Range.width_signExtend _ _).symm, ?_⟩
  rw [Word.val_ofInt, ← Ty.int.inj hwidth]
  exact Range.wrap_signed_mem_signExtend (hρ.mem_seen hi ho hv)

/-- A cast in its proper direction is one of three, and gives an integer. -/
theorem cases_of_isPlain_cast {op : CastOp} {target : Ty}
    (h : (Value.cast op ty o target).isPlain = true) :
    (op = .trunc ∨ op = .zext ∨ op = .sext) ∧ ∃ w, target = .int w := by
  cases op with
  | trunc =>
    simp only [Value.isPlain, Bool.and_eq_true] at h
    obtain ⟨v, -, rfl, -⟩ := Ty.exists_of_isNoWider h.2
    exact ⟨.inl rfl, v, rfl⟩
  | zext =>
    simp only [Value.isPlain, Bool.and_eq_true] at h
    obtain ⟨-, w, -, rfl⟩ := Ty.exists_of_isNoWider h.2
    exact ⟨.inr (.inl rfl), w, rfl⟩
  | sext =>
    simp only [Value.isPlain, Bool.and_eq_true] at h
    obtain ⟨-, w, -, rfl⟩ := Ty.exists_of_isNoWider h.2
    exact ⟨.inr (.inr rfl), w, rfl⟩
  | bitcast | ptrtoint | inttoptr => cases h

/-- A cast is ranged rightly, and one that is no integer cast has no range. -/
theorem cast_ranges (hs : c.Good s) (hi : i ∈ c.fn.instrs) {op : CastOp} {target : Ty}
    (hact : i.action = .assign x (.cast op ty o target))
    (h : (valueRange c.env c.fn loops l x (.cast op ty o target)).run s = .ok r? t) :
    c.Ranges s t l (.cast op ty o target) r? := by
  have hplain := c.orderly.plain i hi
  simp only [Instr.isPlain, hact] at hplain
  have ho : o ∈ i.operands := by simp [Instr.operands, hact, Action.operands]
  obtain ⟨rfl | rfl | rfl, w, rfl⟩ := cases_of_isPlain_cast hplain
  · exact resize_ranges hs hi ho (fun _ ↦ rfl) h
  · exact resize_ranges hs hi ho (fun _ ↦ rfl) h
  · exact sext_ranges hs hi ho h

/-- Every value of integer code gets a range that has its word. -/
theorem valueRange_ranges (hs : c.Good s) (hi : i ∈ c.fn.instrs) {v : Value}
    (hact : i.action = .assign x v)
    (h : (valueRange c.env c.fn ∅ l x v).run s = .ok r? t) : c.Ranges s t l v r? := by
  have hplain := c.orderly.plain i hi
  simp only [Instr.isPlain, hact] at hplain
  cases v with
  | binary => exact binary_ranges hs hi hact h
  | compare => exact compare_ranges hs h
  | cast => exact cast_ranges hs hi hact h
  | select => exact select_ranges hs hi hact h
  | phi => exact phi_ranges hs hi hact h
  | load | alloca | field | elem | call => cases hplain

end Kinds

/-! ## Instructions -/

section Visits

variable {site : Site} {x : String} {b : Bool} {ρ ρ' : Values}

/-- An assignment sets the fact about its variable, and covers the word it assigns. -/
theorem visit_assign (hs : c.Good s) (hi : i ∈ c.fn.instrs) {v : Value}
    (hact : i.action = .assign x v) (h : (visit c.env c.fn ∅ l (site, i)).run s = .ok b t) :
    c.Moves (fun k y ↦ k = l ∧ y = x) s t ∧
      ∀ a ρ y, c.Covers (c.facts s l) ρ →
        (∀ p, a.source = some p → c.Covers (c.facts s p) a.values) → v.eval? a ρ = some y →
          c.Covers (c.facts t l) (ρ.set x y) := by
  have hplain := c.orderly.plain i hi
  simp only [Instr.isPlain, hact] at hplain
  have hcall (call : Call) : v ≠ .call call := by
    rintro rfl
    cases hplain
  obtain ⟨r?, u, hr, -, -, hjoined⟩ := exists_valueRange_of_perform hact hcall (visit_eq_ok h)
  obtain ⟨hu, r, rfl, hty, hbounds⟩ := valueRange_ranges hs hi hact hr
  obtain ⟨_, hjoin⟩ := hjoined r rfl
  have hx : c.types.get? x = some (.int r.width) := by rw [← hty, c.orderly.result i hi x v hact]
  obtain ⟨ht, hmem⟩ := joinFact_moves hu.good hx hjoin
  have hmoves := hu.of_nothing.trans ht
  refine ⟨hmoves, fun a ρ y hρ hsource hy z w hz hw ↦ ?_⟩
  unfold Values.set at hw
  split at hw
  · rename_i hzx
    subst hzx
    cases hw
    obtain ⟨r', hr', hmem'⟩ := hmem y.val (hbounds a ρ y hρ hsource hy).2
    rw [told, hr']
    exact hmem'
  · rename_i hzx
    rw [(hmoves.gains l).told_eq (hmoves.good.typed l) (fun h ↦ hzx h.2) hz]
    exact hρ z w hz hw

/-- A return offers a range that the table has for the function already. -/
theorem visit_ret (hs : c.Good s) (hi : i ∈ c.fn.instrs) {ty : Ty} {o : Operand}
    (hact : i.action = .finish (.ret ty o))
    (h : (visit c.env c.fn ∅ l (site, i)).run s = .ok false t) :
    c.Moves nothing s t ∧ ∀ ρ v, c.Covers (c.facts s l) ρ → o.read? ρ = some v →
      ∃ stored, c.table.get? (Location.ret c.fn.name).id = some stored ∧
        stored.contains v.val = true := by
  have hplain := c.orderly.plain i hi
  simp only [Instr.isPlain, hact, Terminator.isPlain, Bool.and_eq_true] at hplain
  have ho : o ∈ i.operands := by simp [Instr.operands, hact, Action.operands]
  have h := visit_eq_ok h
  simp only [perform, hact] at h
  have hreturn := h
  unfold visitReturn at h
  rw [hplain.1] at h
  obtain ⟨r, u, hr, hoffer⟩ := run_bind_eq_ok.1 h
  have hcovered := covered_of_visitReturn hplain.1 hr hreturn
  obtain ⟨hu, rfl, -⟩ := rangeOf_moves hs hi ho hr
  refine ⟨hu.trans ?_, fun ρ v hρ hv ↦ ?_⟩
  · refine .of_eq hu.good ((Reports.offer _ _ _ u t false hoffer).eq_of_false rfl) ?_
    obtain ⟨log, -, -, rfl⟩ := run_offer_eq_ok.1 hoffer
    rfl
  · have hmem := hρ.mem_seen hi ho hv
    rw [hs.table] at hcovered
    rcases hcovered.subset with hempty | ⟨stored, hget, hsub⟩
    · rw [Range.not_isEmpty_of_mem hmem] at hempty
      cases hempty
    · exact ⟨stored, hget, Range.contains_iff.2 (hsub _ (Range.wrap_mem_conform hmem))⟩

/-- A terminator sets no fact, and what it returns is in the table. -/
theorem visit_finish (hs : c.Good s) (hi : i ∈ c.fn.instrs) {tm : Terminator}
    (hact : i.action = .finish tm) (h : (visit c.env c.fn ∅ l (site, i)).run s = .ok false t) :
    c.Moves nothing s t ∧ ∀ ρ v, c.Covers (c.facts s l) ρ → tm.eval? ρ = some (.ret v) →
      ∃ stored, c.table.get? (Location.ret c.fn.name).id = some stored ∧
        stored.contains v.val = true := by
  cases tm with
  | ret ty o =>
    obtain ⟨hmoves, hstored⟩ := visit_ret hs hi hact h
    refine ⟨hmoves, fun ρ v hρ hv ↦ ?_⟩
    obtain ⟨y, hy, hret⟩ := Option.bind_eq_some_iff.1 hv
    cases hret
    exact hstored ρ v hρ hy
  | jmp | jnz | switch | retVoid | unreachable =>
    have h := visit_eq_ok h
    simp only [perform, hact] at h
    obtain ⟨-, rfl⟩ := run_pure_eq_ok.1 h
    refine ⟨.refl hs, fun ρ v _ hv ↦ ?_⟩
    simp [Terminator.eval?, Option.bind_eq_some_iff] at hv

/-- What the results of some instructions are called, in one block. -/
def resultsAt (l : String) (is : List Instr) : String → String → Prop :=
  fun k x ↦ k = l ∧ x ∈ is.filterMap Instr.result?

/-- A visit sets the fact about the result of the instruction only. -/
theorem visit_moves (hs : c.Good s) (hi : i ∈ c.fn.instrs)
    (h : (visit c.env c.fn ∅ l (site, i)).run s = .ok false t) :
    c.Moves (resultsAt l [i]) s t := by
  have hplain := c.orderly.plain i hi
  unfold Instr.isPlain at hplain
  cases hact : i.action with
  | assign x v =>
    refine (visit_assign hs hi hact h).1.mono fun k y hy ↦ ?_
    have hx : i.result? = some x := by simp [Instr.result?, hact]
    simp [resultsAt, hx, hy]
  | finish tm => exact (visit_finish hs hi hact h).1.of_nothing
  | store | call =>
    rw [hact] at hplain
    cases hplain

/-- Visiting instructions sets facts about their results only. -/
theorem visits_moves {ps : List (Site × Instr)} (hs : c.Good s)
    (hps : ∀ p ∈ ps, p.2 ∈ c.fn.instrs)
    (h : (anyOf (visit c.env c.fn ∅ l) ps).run s = .ok false t) :
    c.Moves (resultsAt l (ps.map Prod.snd)) s t := by
  induction ps generalizing s with
  | nil =>
    obtain ⟨-, rfl⟩ := run_pure_eq_ok.1 h
    exact .refl hs
  | cons p ps ih =>
    obtain ⟨site, i⟩ := p
    obtain ⟨u, hu, hrest⟩ := run_anyOf_cons_eq_ok_false.1 h
    have hfirst := visit_moves hs (hps _ List.mem_cons_self) hu
    have hps' := ih hfirst.good (fun q hq ↦ hps q (List.mem_cons_of_mem _ hq)) hrest
    have hsub (is js : List Instr) (k x : String) (h : resultsAt l is k x) (hsub : is ⊆ js) :
        resultsAt l js k x := by
      obtain ⟨j, hj, hx⟩ := List.mem_filterMap.1 h.2
      exact ⟨h.1, List.mem_filterMap.2 ⟨j, hsub hj, hx⟩⟩
    refine (hfirst.mono fun k x hx ↦ hsub _ _ k x hx ?_).trans
      (hps'.mono fun k x hx ↦ hsub _ _ k x hx ?_)
    · simp
    · exact List.subset_cons_self _ _

/-- The words at the end of a block are covered if those at its start are, and a word that is
returned is in the table. -/
theorem visits_covers {ps : List (Site × Instr)} (hs : c.Good s)
    (hps : ∀ p ∈ ps, p.2 ∈ c.fn.instrs)
    (hends : ∀ i ∈ (ps.map Prod.snd).dropLast, i.isTerminator = false)
    (h : (anyOf (visit c.env c.fn ∅ l) ps).run s = .ok false t) {a : Arrival} {e : Exit}
    (hρ : c.Covers (c.facts s l) ρ)
    (hsource : ∀ p, a.source = some p → p ≠ l ∧ c.Covers (c.facts s p) a.values)
    (hrun : execute a ρ (ps.map Prod.snd) = some (ρ', e)) :
    c.Covers (c.facts t l) ρ' ∧ ∀ v, e = .ret v →
      ∃ stored, c.table.get? (Location.ret c.fn.name).id = some stored ∧
        stored.contains v.val = true := by
  induction ps generalizing s ρ with
  | nil => cases hrun
  | cons p ps ih =>
    obtain ⟨site, i⟩ := p
    have hi : i ∈ c.fn.instrs := hps _ List.mem_cons_self
    have hps' : ∀ q ∈ ps, q.2 ∈ c.fn.instrs := fun q hq ↦ hps q (List.mem_cons_of_mem _ hq)
    obtain ⟨u, hu, hrest⟩ := run_anyOf_cons_eq_ok_false.1 h
    rw [List.map_cons] at hrun hends
    unfold execute at hrun
    split at hrun
    · rename_i x v hact
      obtain ⟨y, hy, hrun⟩ := Option.bind_eq_some_iff.1 hrun
      obtain ⟨hmoves, hset⟩ := visit_assign hs hi hact hu
      have hne : ps ≠ [] := by
        rintro rfl
        cases hrun
      rw [List.dropLast_cons_of_ne_nil (by simpa using hne)] at hends
      refine ih hmoves.good hps' (fun j hj ↦ hends j (List.mem_cons_of_mem _ hj)) hrest
        (hset a ρ y hρ (fun p hp ↦ (hsource p hp).2) hy) (fun p hp ↦ ?_) hrun
      obtain ⟨hpl, hcov⟩ := hsource p hp
      exact ⟨hpl, hmoves.covers hcov fun _ hW ↦ absurd hW.1 hpl⟩
    · rename_i tm hact
      change i.action = .finish tm at hact
      obtain ⟨e', he, hret⟩ := Option.bind_eq_some_iff.1 hrun
      cases hret
      obtain rfl : ps = [] := by
        cases ps with
        | nil => rfl
        | cons q ps =>
          have := hends i (by simp)
          simp [Instr.isTerminator, Instr.terminator?, hact] at this
      obtain ⟨-, rfl⟩ := run_pure_eq_ok.1 hrest
      obtain ⟨hmoves, hstored⟩ := visit_finish hs hi hact hu
      refine ⟨hmoves.covers hρ fun _ ↦ False.elim, fun v hv ↦ ?_⟩
      subst hv
      exact hstored _ v hρ he
    · cases hrun
    · cases hrun

end Visits

end Scope

end Sweep

end RangeFlow
