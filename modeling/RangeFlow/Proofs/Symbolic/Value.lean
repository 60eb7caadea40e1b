import RangeFlow.Proofs.Symbolic.Describe

/-!
# Values of expressions

A solution gives a word to every variable so that the equations of the described instructions hold.
What an expression says is then true of the operand it describes: a constant is its value, and
operands with the same expression have the same value.  A recurrence says nothing by itself, so that
a solution has to give equal words to phis that recur alike.
-/

namespace RangeFlow

/-- The word of an operand, given those of the variables. -/
def Operand.valueIn (ρ : String → Nat) : Operand → Nat
  | .var x _ => ρ x
  | .literal v w => w.wrap v
  | .symbol _ => 0

/-- The result of a described operator on two words; quotients and remainders by zero are given. -/
def BinaryOp.result? (byZero : BinaryOp → Width → Nat → Nat) (w : Width) (op : BinaryOp)
    (x y : Nat) : Option Nat :=
  match op with
  | .add => some (w.wrap (x + y))
  | .and => some (x &&& y)
  | .urem => some (if y = 0 then byZero .urem w x else x % y)
  | .udiv => some (if y = 0 then byZero .udiv w x else x / y)
  | .lshr => some (if w.bits ≤ y then 0 else x >>> y)
  | _ => none

theorem BinaryOp.name_injective {op op' : BinaryOp} (h : op.name = op'.name) : op = op' := by
  cases op <;> cases op' <;> first | rfl | exact absurd h (by decide)

namespace Symbolic

/-- The phi that assigns the variable is described by the recurrence. -/
def RecursAs (f : Function) (x : String) (e : Expr) : Prop :=
  e.isRecurrence = true ∧ ∃ i ∈ f.instrs, ∃ t entries, i.action = .assign x (.phi t entries) ∧
    ∃ s, (exprOf f (.var x t)).run .fresh = .ok (some e) s

/-- Words for the variables of a function that satisfy the equations of its described
instructions. -/
structure Solution (f : Function) (byZero : BinaryOp → Width → Nat → Nat) (ρ : String → Nat) :
    Prop where
  word : ∀ x w, f.Uses (.var x (.int w)) → ρ x < w.card
  zext : ∀ i ∈ f.instrs, ∀ x source o w, i.action = .assign x (.cast .zext source o (.int w)) →
    ρ x = o.valueIn ρ
  binary : ∀ i ∈ f.instrs, ∀ x op w a b, i.action = .assign x (.binary op (.int w) a b) →
    ∀ v, op.result? byZero w (a.valueIn ρ) (b.valueIn ρ) = some v → ρ x = v
  phi : ∀ x y e, RecursAs f x e → RecursAs f y e → ρ x = ρ y

/-! ## Steps -/

/-- What a step says of the word of its operand and that of its result. -/
def Step.Holds (byZero : BinaryOp → Width → Nat → Nat) (w : Width) (u v : Nat) : Step → Prop
  | .extend => v = u
  | .operate op c => c < w.card ∧ op.result? byZero w u c = some v
  | .recur _ _ => True

@[simp] theorem Step.bits_form (w : Width) (step : Step) (e : Expr) :
    (step.form w e).bits = w.bits := by
  cases step <;> rfl

theorem Step.form_ne_constant {w : Width} {step : Step} {e : Expr} {v b : Int} :
    step.form w e ≠ .constant v b := by
  cases step <;> simp [form]

theorem Step.form_ne_unknownVar {w u : Width} {step : Step} {e : Expr} {f : Function} {x : String} :
    step.form w e ≠ unknownVar f x u := by
  cases step <;> simp [form, unknownVar]

theorem Step.form_injective {w w' : Width} {step step' : Step} {e e' : Expr}
    (h : step.form w e = step'.form w' e') : step = step' ∧ e = e' := by
  cases step with
  | extend =>
    cases step' with
    | extend => exact ⟨rfl, (Expr.zeroExtend.inj h).1⟩
    | operate | recur => cases h
  | operate op c =>
    cases step' with
    | operate op' c' =>
      obtain ⟨hop, he, hc, -⟩ := Expr.binary.inj h
      exact ⟨by rw [BinaryOp.name_injective hop, Int.ofNat.inj hc], he⟩
    | extend | recur => cases h
  | recur amount header =>
    cases step' with
    | recur amount' header' =>
      obtain ⟨he, ha, hh, -⟩ := Expr.recurrence.inj h
      exact ⟨by rw [Int.ofNat.inj ha, hh], he⟩
    | extend | operate => cases h

/-- Folding computes the result of the operator. -/
theorem result?_of_fold? {op : BinaryOp} {u c : Nat} {w : Width} {r : Int}
    (byZero : BinaryOp → Width → Nat → Nat) (h : fold? op u c w = some r) :
    ∃ m : Nat, r = m ∧ op.result? byZero w u c = some m := by
  unfold fold? at h
  split at h
  · cases h
    exact ⟨_, rfl, rfl⟩
  · cases h
    exact ⟨_, rfl, rfl⟩
  · split at h
    · cases h
    · rename_i hc
      cases h
      have hc : c ≠ 0 := by simpa using hc
      exact ⟨u % c, rfl, by simp [BinaryOp.result?, hc]⟩
  · split at h
    · cases h
    · rename_i hc
      cases h
      have hc : c ≠ 0 := by simpa using hc
      exact ⟨u / c, rfl, by simp [BinaryOp.result?, hc]⟩
  · split at h
    · rename_i hc
      cases h
      have hc : ¬w.bits ≤ c := by simpa using hc
      exact ⟨u >>> c, rfl, by simp [BinaryOp.result?, hc]⟩
    · cases h
  · cases h

/-- A step that can be computed from a constant gives the value. -/
theorem Step.value_of_fold? {step : Step} {w : Width} {u v : Nat} {b r : Int}
    {byZero : BinaryOp → Width → Nat → Nat} (hstep : step.Holds byZero w u v)
    (h : step.fold? w (.constant u b) = some r) : (v : Int) = r := by
  cases step with
  | extend =>
    cases h
    exact congrArg Int.ofNat hstep
  | operate op c =>
    obtain ⟨m, rfl, hm⟩ := result?_of_fold? byZero h
    rw [hstep.2] at hm
    cases hm
    rfl
  | recur => cases h

/-- A commutative operator gives the same either way. -/
theorem result?_comm {byZero : BinaryOp → Width → Nat → Nat} {w : Width} {op : BinaryOp}
    (h : isCommutative op = true) (x y : Nat) :
    op.result? byZero w x y = op.result? byZero w y x := by
  cases op with
  | add => simp [BinaryOp.result?, Int.add_comm]
  | and => simp [BinaryOp.result?, Nat.and_comm]
  | sub | mul | udiv | sdiv | urem | srem | shl | lshr | ashr | or | xor => cases h

/-- A described operator has a result, if quotients by zero are given. -/
theorem exists_result? (byZero : BinaryOp → Width → Nat → Nat) (w : Width) {op : BinaryOp}
    (h : isDescribed op = true) (x y : Nat) : ∃ v, op.result? byZero w x y = some v := by
  cases op with
  | add | and | urem | udiv | lshr => exact ⟨_, rfl⟩
  | sub | mul | sdiv | srem | shl | ashr | or | xor => cases h

variable {f : Function} {types : OrderedMap String Ty} {edges : OrderedSet Edge}
variable {byZero : BinaryOp → Width → Nat → Nat} {ρ : String → Nat}
variable {x : String} {w : Width} {o : Operand} {step : Step} {n m : Nat} {e : Expr}

namespace Solution

/-- In a solution an operand holds a word of its width. -/
theorem valueIn_lt_card (hρ : Solution f byZero ρ) (ho : f.Uses o) (hty : o.ty = .int w) :
    o.valueIn ρ < w.card := by
  cases o with
  | var x t =>
    obtain rfl : t = .int w := hty
    exact hρ.word x w ho
  | literal v u =>
    obtain rfl : u = w := Ty.int.inj hty
    exact u.wrap_lt_card v
  | symbol name => cases hty

/-- A described operation computes the word of its variable. -/
theorem holds_operate (hρ : Solution f byZero ρ) {i : Instr} (hi : i ∈ f.instrs) {op : BinaryOp}
    {a b : Operand} {c : Int} (ha : i.action = .assign x (.binary op (.int w) a b))
    (htys : a.ty = .int w ∧ b.ty = .int w) (hop : isDescribed op = true)
    (h : operandAndConstant? op a b = some (o, c)) :
    (Step.operate op (w.wrap c)).Holds byZero w (o.valueIn ρ) (ρ x) := by
  refine ⟨w.wrap_lt_card c, ?_⟩
  obtain ⟨v, hv⟩ := exists_result? byZero w hop (a.valueIn ρ) (b.valueIn ρ)
  rw [hρ.binary i hi x op w a b ha v hv, ← hv]
  rcases operandAndConstant?_eq_some h with ⟨rfl, u, rfl⟩ | ⟨rfl, hcomm, u, rfl⟩
  · obtain rfl : u = w := Ty.int.inj htys.2
    rfl
  · obtain rfl : u = w := Ty.int.inj htys.1
    exact result?_comm hcomm _ _

/-- A step is true of the words of its operand and its variable. -/
theorem holds_of_stepOf? (hρ : Solution f byZero ρ) (hc : Context f types edges)
    (hx : f.Uses (.var x (.int w))) (h : stepOf? f edges x w = some (o, step)) :
    step.Holds byZero w (o.valueIn ρ) (ρ x) := by
  obtain ⟨i, hi, header, v, ha, hstep⟩ := exists_assign_of_stepOf? h
  have hty := hc.ty_eq hx hi ha
  have hint := hc.integral i hi x v ha
  cases v with
  | cast op s a t =>
    cases op with
    | zext =>
      cases hstep
      obtain rfl : t = .int w := hty
      exact hρ.zext i hi x s o w ha
    | trunc | sext | bitcast | ptrtoint | inttoptr => cases hstep
  | binary op t a b =>
    obtain rfl : t = .int w := hty
    obtain ⟨hop, c, hoc, rfl⟩ := step?_binary hstep
    refine hρ.holds_operate hi ha ?_ hop hoc
    simpa [Value.isIntegral, Ty.isInt, Ty.width?] using hint
  | phi t entries =>
    obtain ⟨-, amount, rfl⟩ := step?_recur hstep
    trivial
  | compare | select | load | alloca | field | elem | call => cases hstep

end Solution

/-! ## Constants -/

/-- A variable without a step is opaque. -/
theorem describe_var_of_none (h : stepOf? f edges x w = none) :
    describe f edges n (.var x (.int w)) = some (unknownVar f x w) := by
  cases n with
  | zero => rfl
  | succ n => simp [describe, Ty.width?, h]

/-- A variable is described by its operand and its step, one level deeper. -/
theorem describe_var_of_some (h : stepOf? f edges x w = some (o, step)) :
    describe f edges (n + 1) (.var x (.int w)) =
      (describe f edges n o).map (step.apply w) := by
  simp [describe, Ty.width?, h]

/-- How the expression of an integer operand comes about. -/
inductive Origin (f : Function) (edges : OrderedSet Edge) : Nat → Operand → Expr → Prop
  | literal (n : Nat) (v : Int) (w : Width) :
    Origin f edges n (.literal v w) (.constant (w.wrap v) w.bits)
  | hidden (n : Nat) (x : String) (w : Width) :
    Origin f edges n (.var x (.int w)) (unknownVar f x w)
  | folded {n : Nat} {x : String} {w : Width} {o : Operand} {step : Step} {e : Expr} {v : Int}
    (h : stepOf? f edges x w = some (o, step)) (he : describe f edges n o = some e)
    (hv : step.fold? w e = some v) : Origin f edges (n + 1) (.var x (.int w)) (.constant v w.bits)
  | formed {n : Nat} {x : String} {w : Width} {o : Operand} {step : Step} {e : Expr}
    (h : stepOf? f edges x w = some (o, step)) (he : describe f edges n o = some e)
    (hv : step.fold? w e = none) : Origin f edges (n + 1) (.var x (.int w)) (step.form w e)

/-- Every description comes from a literal, an opaque variable or a step. -/
theorem origin_of_describe (hty : o.ty = .int w) (h : describe f edges n o = some e) :
    Origin f edges n o e := by
  cases o with
  | literal v u =>
    cases n <;> cases h <;> exact .literal _ v u
  | symbol name => cases hty
  | var x t =>
    obtain rfl : t = .int w := hty
    cases n with
    | zero =>
      cases h
      exact .hidden 0 x w
    | succ n =>
      cases hstep : stepOf? f edges x w with
      | none =>
        rw [describe_var_of_none hstep] at h
        cases h
        exact .hidden _ x w
      | some s =>
        obtain ⟨o, step⟩ := s
        rw [describe_var_of_some hstep] at h
        obtain ⟨e', he', rfl⟩ := Option.map_eq_some_iff.1 h
        unfold Step.apply
        split
        · rename_i v hv
          exact .folded hstep he' hv
        · rename_i hv
          exact .formed hstep he' hv

theorem bits_of_describe (hty : o.ty = .int w) (h : describe f edges n o = some e) :
    e.bits = w.bits := by
  cases origin_of_describe hty h with
  | literal | hidden | folded =>
    cases hty
    rfl
  | formed =>
    cases hty
    exact Step.bits_form _ _ _

/-- A constant is found at any greater depth as well. -/
theorem describe_constant_mono {v b : Int} (hc : Context f types edges) (ho : f.Uses o)
    (hty : o.ty = .int w) (h : describe f edges n o = some (.constant v b)) (hnm : n ≤ m) :
    describe f edges m o = some (.constant v b) := by
  induction n generalizing o w v b m with
  | zero =>
    cases origin_of_describe hty h with
    | literal => cases m <;> rfl
  | succ n ih =>
    obtain ⟨m, rfl⟩ : ∃ k, m = k + 1 := ⟨m - 1, by omega⟩
    generalize he : Expr.constant v b = e at h
    cases origin_of_describe hty h with
    | literal => exact h
    | hidden => cases he
    | formed => exact absurd he.symm Step.form_ne_constant
    | @folded _ x u o' step e' v' hstep he' hv =>
      obtain ⟨ho', u', hu', -⟩ := hc.exists_of_stepOf? ho hstep
      have hm : describe f edges m o' = some e' := by
        cases e' with
        | constant v' b' => exact ih ho' hu' he' (by omega)
        | unknown | zeroExtend | binary | recurrence => cases step <;> cases hv
      rw [describe_var_of_some hstep, hm, Option.map_some, Step.apply, hv]

/-- A constant is the value of the operand that it describes. -/
theorem Solution.valueIn_of_constant (hρ : Solution f byZero ρ) (hc : Context f types edges)
    (ho : f.Uses o) (hty : o.ty = .int w) {v b : Int}
    (h : describe f edges n o = some (.constant v b)) : (o.valueIn ρ : Int) = v := by
  induction n generalizing o w v b with
  | zero =>
    cases origin_of_describe hty h with
    | literal => rfl
  | succ n ih =>
    generalize he : Expr.constant v b = e at h
    cases origin_of_describe hty h with
    | literal =>
      cases he
      rfl
    | hidden => cases he
    | formed => exact absurd he.symm Step.form_ne_constant
    | @folded _ x u o' step e' v' hstep he' hv =>
      cases he
      cases hty
      obtain ⟨ho', u', hu', -⟩ := hc.exists_of_stepOf? ho hstep
      have hholds := hρ.holds_of_stepOf? hc ho hstep
      cases e' with
      | constant v' b' =>
        obtain rfl := ih ho' hu' he'
        exact Step.value_of_fold? hholds hv
      | unknown | zeroExtend | binary | recurrence => cases step <;> cases hv

/-! ## Equal expressions -/

theorem eq_of_bits_eq {u : Width} (h : (w.bits : Int) = u.bits) : w = u := by
  cases w
  cases u
  rw [Width.mk.injEq]
  exact Int.ofNat.inj h

/-- Opaque variables are told apart by their names and widths. -/
theorem unknownVar_injective {y : String} {u : Width} (h : unknownVar f x w = unknownVar f y u) :
    x = y ∧ w = u := by
  obtain ⟨hname, hbits⟩ := Expr.unknown.inj h
  exact ⟨String.append_right_inj _ |>.1 hname, eq_of_bits_eq hbits⟩

/-- Operands with one expression are described by a constant, or they are one variable, or variables
that take one step from operands with one expression. -/
theorem origins_alike {a b : Operand} (ha : Origin f edges n a e) (hb : Origin f edges n b e)
    (hty : a.ty = b.ty) :
    (∃ v c, e = .constant v c) ∨ a = b ∨
    ∃ k x y w oa ob step d, n = k + 1 ∧ a = .var x (.int w) ∧ b = .var y (.int w) ∧
      stepOf? f edges x w = some (oa, step) ∧ stepOf? f edges y w = some (ob, step) ∧
      describe f edges k oa = some d ∧ describe f edges k ob = some d ∧ e = step.form w d := by
  cases ha with
  | literal | folded => exact .inl ⟨_, _, rfl⟩
  | hidden n x w =>
    generalize he : unknownVar f x w = e at hb
    cases hb with
    | literal | folded => cases he
    | formed => exact absurd he.symm Step.form_ne_unknownVar
    | hidden y u =>
      obtain ⟨rfl, rfl⟩ := unknownVar_injective he
      exact .inr (.inl rfl)
  | @formed k x w oa step d hxa hda hva =>
    generalize he : step.form w d = e at hb
    cases hb with
    | literal | folded => exact absurd he Step.form_ne_constant
    | hidden => exact absurd he Step.form_ne_unknownVar
    | @formed _ y u ob step' d' hyb hdb hvb =>
      obtain ⟨rfl, rfl⟩ := Step.form_injective he
      obtain rfl : w = u := Ty.int.inj hty
      exact .inr (.inr ⟨k, x, y, w, oa, ob, step, d, rfl, rfl, rfl, hxa, hyb, hda, hdb, he.symm⟩)

/-- Operands with one expression have one width. -/
theorem width_eq_of_describe {a b : Operand} {u : Width} (hta : a.ty = .int w) (htb : b.ty = .int u)
    (ha : describe f edges n a = some e) (hb : describe f edges n b = some e) : w = u :=
  eq_of_bits_eq ((bits_of_describe hta ha).symm.trans (bits_of_describe htb hb))

/-- Operands with one expression have one expression at any greater depth. -/
theorem describe_eq_mono {a b : Operand} (hc : Context f types edges) (ha : f.Uses a)
    (hb : f.Uses b) (hta : a.ty = .int w) (htb : b.ty = .int w)
    (hea : describe f edges n a = some e) (heb : describe f edges n b = some e) (hnm : n ≤ m) :
    describe f edges m a = describe f edges m b := by
  induction n using Nat.strongRecOn generalizing a b w e m with
  | ind n ih =>
    rcases origins_alike (origin_of_describe hta hea) (origin_of_describe htb heb)
      (hta.trans htb.symm) with ⟨v, c, rfl⟩ | rfl |
        ⟨k, x, y, u, oa, ob, step, d, rfl, rfl, rfl, hxa, hyb, hda, hdb, -⟩
    · rw [describe_constant_mono hc ha hta hea hnm, describe_constant_mono hc hb htb heb hnm]
    · rfl
    · obtain ⟨m, rfl⟩ : ∃ j, m = j + 1 := ⟨m - 1, by omega⟩
      obtain ⟨hoa, ua, hua, -⟩ := hc.exists_of_stepOf? ha hxa
      obtain ⟨hob, ub, hub, -⟩ := hc.exists_of_stepOf? hb hyb
      obtain rfl := width_eq_of_describe hua hub hda hdb
      rw [describe_var_of_some hxa, describe_var_of_some hyb,
        ih k (Nat.lt_succ_self k) hoa hob hua hub hda hdb (by omega)]

/-- A question with an answer is answered at first, before the back edges are known. -/
theorem eq_of_answers {α : Type} {q : Oracle α} {v : α} (h : Answers edges q v) :
    ∃ s, q.run .fresh = .ok v s := by
  obtain ⟨s, -, hs⟩ := h .fresh (.inl rfl)
  exact ⟨s, hs⟩

/-- A variable that recurs at some depth recurs as the oracle says. -/
theorem recursAs_of_stepOf? (hc : Context f types edges) (hx : f.Uses (.var x (.int w)))
    {amount : Nat} {header : String} (h : stepOf? f edges x w = some (o, .recur amount header))
    {d : Expr} (hd : describe f edges (maxDepth - 1) o = some d) :
    RecursAs f x ((Step.recur amount header).form w d) := by
  obtain ⟨i, hi, header', v, ha, hstep⟩ := exists_assign_of_stepOf? h
  have hty := hc.ty_eq hx hi ha
  refine ⟨rfl, i, hi, .int w, ?_⟩
  have hanswer := hc.answers_exprWithin (n := maxDepth) hx
  have heq : describe f edges maxDepth (.var x (.int w)) =
      some ((Step.recur amount header).form w d) := by
    have hsucc : maxDepth = maxDepth - 1 + 1 := rfl
    rw [hsucc, describe_var_of_some h, hd]
    rfl
  rw [heq] at hanswer
  cases v with
  | phi t entries =>
    obtain rfl : t = .int w := hty
    exact ⟨entries, ha, eq_of_answers hanswer⟩
  | binary op t a b =>
    obtain ⟨-, c, -, hop⟩ := step?_binary hstep
    cases hop
  | cast op s a t => cases op <;> cases hstep
  | compare | select | load | alloca | field | elem | call => cases hstep

/-- **Equal expressions describe equal values.** -/
theorem Solution.valueIn_eq (hρ : Solution f byZero ρ) (hc : Context f types edges) {a b : Operand}
    (ha : f.Uses a) (hb : f.Uses b) (hta : a.ty = .int w) (htb : b.ty = .int w) (hn : n ≤ maxDepth)
    (hea : describe f edges n a = some e) (heb : describe f edges n b = some e) :
    a.valueIn ρ = b.valueIn ρ := by
  induction n using Nat.strongRecOn generalizing a b w e with
  | ind n ih =>
    rcases origins_alike (origin_of_describe hta hea) (origin_of_describe htb heb)
      (hta.trans htb.symm) with ⟨v, c, rfl⟩ | rfl |
        ⟨k, x, y, u, oa, ob, step, d, rfl, rfl, rfl, hxa, hyb, hda, hdb, -⟩
    · have h₁ := hρ.valueIn_of_constant hc ha hta hea
      have h₂ := hρ.valueIn_of_constant hc hb htb heb
      exact Int.ofNat.inj (h₁.trans h₂.symm)
    · rfl
    · obtain ⟨hoa, ua, hua, -⟩ := hc.exists_of_stepOf? ha hxa
      obtain ⟨hob, ub, hub, -⟩ := hc.exists_of_stepOf? hb hyb
      obtain rfl := width_eq_of_describe hua hub hda hdb
      have hx := hρ.holds_of_stepOf? hc ha hxa
      have hy := hρ.holds_of_stepOf? hc hb hyb
      have hval := ih k (Nat.lt_succ_self k) hoa hob hua hub (by omega) hda hdb
      rw [hval] at hx
      cases step with
      | extend => exact hx.trans hy.symm
      | operate op c => exact Option.some.inj (hx.2.symm.trans hy.2)
      | recur amount header =>
        -- The depth is that of a part, but the recurrences are equal at full depth as well.
        have hsub := describe_eq_mono hc hoa hob hua hub hda hdb (m := maxDepth - 1) (by omega)
        obtain ⟨d', hd'⟩ := hc.exists_describe (n := maxDepth - 1) hoa hua
        exact hρ.phi x y _ (recursAs_of_stepOf? hc ha hxa hd')
          (recursAs_of_stepOf? hc hb hyb (hsub ▸ hd'))

end Symbolic

end RangeFlow
