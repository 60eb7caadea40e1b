import RangeFlow.Proofs.Check.Definition
import RangeFlow.Proofs.Program.LoopFree
import RangeFlow.Symbolic.Oracle

/-!
# Expressions of operands

The oracle finds the back edges of a function when it first needs them, and keeps them.  In an
accepted function whose integer operations take operands of their own type no question fails, and
the expression of an operand is a function of the operand and the depth (`describe`): an operand is
opaque, or a step is taken from the expression of another operand.
-/

namespace RangeFlow

/-! ## Integer operations -/

/-- Integer operations take operands of their own type, and extensions do not narrow. -/
def Value.isIntegral : Value → Bool
  | .binary _ t a b => !t.isInt || (a.ty = t && b.ty = t)
  | .cast .zext _ a t => !t.isInt || a.ty.isNoWider t
  | .phi t entries => !t.isInt || entries.all fun e ↦ e.value.ty = t
  | _ => true

def Function.IsIntegral (f : Function) : Prop :=
  ∀ i ∈ f.instrs, ∀ x v, i.action = .assign x v → v.isIntegral = true

/-- An operand of some instruction. -/
def Function.Uses (f : Function) (o : Operand) : Prop := ∃ i ∈ f.instrs, o ∈ i.operands

namespace Symbolic

/-! ## Expressions without the search for loops -/

/-- What the assignment of a variable does with the value of an operand. -/
inductive Step
  | extend
  | operate (op : BinaryOp) (constant : Nat)
  | recur (amount : Nat) (header : String)
deriving DecidableEq

/-- The constant that a step gives, if it can be computed. -/
def Step.fold? (w : Width) : Step → Expr → Option Int
  | .extend, .constant v _ => some v
  | .operate op c, .constant v _ => Symbolic.fold? op v c w
  | _, _ => none

/-- The expression that names a step. -/
def Step.form (w : Width) : Step → Expr → Expr
  | .extend, e => .zeroExtend e w.bits
  | .operate op c, e => .binary op.name e c w.bits
  | .recur amount header, e => .recurrence e amount header w.bits

/-- The expression after a step, at a width. -/
def Step.apply (w : Width) (step : Step) (e : Expr) : Expr :=
  match step.fold? w e with
  | some v => .constant v w.bits
  | none => step.form w e

/-- The role of an entry of a phi, given the back edges. -/
def roleIn (f : Function) (edges : OrderedSet Edge) (header x : String) (e : PhiEntry) : Role :=
  if Edge.mk e.label header ∈ edges then
    ((e.value.var?.bind f.definition?).bind (increment? x)).getD .stop
  else .start e.value

/-- The operand and the step that the value of a variable is described by. -/
def step? (f : Function) (edges : OrderedSet Edge) (w : Width) (header x : String) :
    Value → Option (Operand × Step)
  | .cast .zext _ a _ => some (a, .extend)
  | .binary op _ a b =>
    if isDescribed op then
      (operandAndConstant? op a b).map fun (o, c) ↦ (o, .operate op (w.wrap c))
    else none
  | .phi _ entries =>
    if entries.length ≠ 2 then none
    else match startAndStep? (entries.map (roleIn f edges header x)) with
      | some (some start, some amount) => some (start, .recur (w.wrap amount) header)
      | _ => none
  | _ => none

def stepOf? (f : Function) (edges : OrderedSet Edge) (x : String) (w : Width) :
    Option (Operand × Step) :=
  (f.producer? x).bind fun (header, i) ↦ i.value?.bind (step? f edges w header x)

/-- The expression of an integer operand, no deeper than the bound. -/
def describe (f : Function) (edges : OrderedSet Edge) : Nat → Operand → Option Expr
  | _, .literal v w => some (.constant (w.wrap v) w.bits)
  | _, .symbol _ => none
  | 0, .var x t => t.width?.map (unknownVar f x)
  | depth + 1, .var x t =>
    t.width?.bind fun w ↦
      match stepOf? f edges x w with
      | some (o, step) => (describe f edges depth o).map (step.apply w)
      | none => some (unknownVar f x w)

/-! ## Steps stay among the operands of the function -/

/-- What is needed of a function to describe its operands. -/
structure Context (f : Function) (types : OrderedMap String Ty) (edges : OrderedSet Edge) : Prop
    extends Typing f types where
  integral : f.IsIntegral
  labels : ∀ i ∈ f.instrs, ∀ l ∈ i.labels, f.hasBlock l = true
  loops : f.backEdges = .ok edges

/-- An addition to the variable of the phi is no start. -/
theorem increment?_ne_start {x : String} {v : Value} {role : Role} (h : increment? x v = some role)
    (o : Operand) : role ≠ .start o := by
  unfold increment? at h
  repeat' split at h
  all_goals cases h <;> simp

/-- The start of a recurrence is the value of the entry. -/
theorem eq_of_roleIn_eq_start {f : Function} {edges : OrderedSet Edge} {header x : String}
    {e : PhiEntry} {o : Operand} (h : roleIn f edges header x e = .start o) : e.value = o := by
  unfold roleIn at h
  split at h
  · cases hrole : (e.value.var?.bind f.definition?).bind (increment? x) with
    | none => simp [hrole] at h
    | some role =>
      obtain ⟨v, -, hv⟩ := Option.bind_eq_some_iff.1 hrole
      rw [hrole, Option.getD_some] at h
      exact absurd h (increment?_ne_start hv o)
  · exact Role.start.inj h

theorem mem_of_startAndStep? {roles : List Role} {o : Operand} {amount : Option Int}
    (h : startAndStep? roles = some (some o, amount)) : .start o ∈ roles := by
  induction roles generalizing amount with
  | nil => cases h
  | cons role roles ih =>
    cases role with
    | stop => cases h
    | start o' =>
      obtain ⟨⟨s, k⟩, hs, heq⟩ := Option.map_eq_some_iff.1 h
      cases s with
      | none =>
        obtain ⟨rfl, -⟩ : o' = o ∧ k = amount := by simpa using heq
        exact List.mem_cons_self
      | some o'' =>
        obtain ⟨rfl, rfl⟩ : o'' = o ∧ k = amount := by simpa using heq
        exact List.mem_cons_of_mem _ (ih hs)
    | step v =>
      obtain ⟨⟨s, k⟩, hs, heq⟩ := Option.map_eq_some_iff.1 h
      obtain ⟨rfl, -⟩ := Prod.mk.inj heq
      exact List.mem_cons_of_mem _ (ih hs)
    | none =>
      obtain ⟨⟨s, k⟩, hs, heq⟩ := Option.map_eq_some_iff.1 h
      obtain ⟨rfl, -⟩ := Prod.mk.inj heq
      exact List.mem_cons_of_mem _ (ih hs)

/-- The operand of a described operation and its constant are its two operands. -/
theorem operandAndConstant?_eq_some {op : BinaryOp} {a b o : Operand} {c : Int}
    (h : operandAndConstant? op a b = some (o, c)) :
    (o = a ∧ ∃ v, b = .literal c v) ∨
      (o = b ∧ isCommutative op = true ∧ ∃ v, a = .literal c v) := by
  unfold operandAndConstant? at h
  split at h
  · cases h
    exact .inl ⟨rfl, _, rfl⟩
  · split at h
    · rename_i hcomm
      cases h
      exact .inr ⟨rfl, hcomm, _, rfl⟩
    · cases h
  · cases h

/-- A phi is described by the value of one of its entries and a recurrence. -/
theorem step?_recur {f : Function} {edges : OrderedSet Edge} {w : Width} {header x : String}
    {t : Ty} {entries : List PhiEntry} {o : Operand} {step : Step}
    (h : step? f edges w header x (.phi t entries) = some (o, step)) :
    (∃ e ∈ entries, e.value = o) ∧ ∃ amount, step = .recur amount header := by
  unfold step? at h
  dsimp only at h
  split at h
  · cases h
  · split at h
    · rename_i hroles
      cases h
      obtain ⟨e, he, hrole⟩ := List.mem_map.1 (mem_of_startAndStep? hroles)
      exact ⟨⟨e, he, eq_of_roleIn_eq_start hrole⟩, _, rfl⟩
    · cases h

/-- A described operation is described by its operand and its constant. -/
theorem step?_binary {f : Function} {edges : OrderedSet Edge} {w : Width} {header x : String}
    {op : BinaryOp} {t : Ty} {a b o : Operand} {step : Step}
    (h : step? f edges w header x (.binary op t a b) = some (o, step)) :
    isDescribed op = true ∧ ∃ c, operandAndConstant? op a b = some (o, c) ∧
      step = .operate op (w.wrap c) := by
  unfold step? at h
  dsimp only at h
  split at h
  · rename_i hop
    obtain ⟨⟨o', c⟩, hoc, heq⟩ := Option.map_eq_some_iff.1 h
    cases heq
    exact ⟨hop, c, hoc, rfl⟩
  · cases h

variable {f : Function} {types : OrderedMap String Ty} {edges : OrderedSet Edge}
variable {x : String} {w : Width} {o : Operand} {step : Step} {n : Nat}

/-- The producer of a variable is an instruction that assigns it. -/
theorem mem_of_producer? {header : String} {i : Instr} (h : f.producer? x = some (header, i)) :
    i ∈ f.instrs ∧ i.result? = some x := by
  obtain ⟨hmem, hx⟩ := List.mem_filter.1 (List.mem_of_getLast? h)
  obtain ⟨b, hb, hib⟩ := List.mem_flatMap.1 hmem
  obtain ⟨i', hi', heq⟩ := List.mem_map.1 hib
  cases heq
  exact ⟨List.mem_flatMap.2 ⟨b, hb, hi'⟩, by simpa using hx⟩

theorem assign_of_value? {i : Instr} {v : Value} (hv : i.value? = some v)
    (hx : i.result? = some x) : i.action = .assign x v := by
  cases ha : i.action with
  | assign y u => simp_all [Instr.value?, Instr.result?]
  | store | call | finish => simp [Instr.value?, ha] at hv

/-- A step comes from the assignment of the variable. -/
theorem exists_assign_of_stepOf? (h : stepOf? f edges x w = some (o, step)) :
    ∃ i ∈ f.instrs, ∃ header v, i.action = .assign x v ∧
      step? f edges w header x v = some (o, step) := by
  obtain ⟨⟨header, i⟩, hprod, hstep⟩ := Option.bind_eq_some_iff.1 h
  obtain ⟨v, hv, hstep⟩ := Option.bind_eq_some_iff.1 hstep
  obtain ⟨hi, hx⟩ := mem_of_producer? hprod
  exact ⟨i, hi, header, v, assign_of_value? hv hx, hstep⟩

/-- A variable is described by an operand of the instruction that assigns it. -/
theorem mem_operands_of_step? {i : Instr} {header : String} {v : Value}
    (ha : i.action = .assign x v) (h : step? f edges w header x v = some (o, step)) :
    o ∈ i.operands := by
  unfold Instr.operands
  rw [ha]
  cases v with
  | cast op s a t =>
    cases op with
    | zext =>
      cases h
      exact List.mem_singleton_self o
    | trunc | sext | bitcast | ptrtoint | inttoptr => cases h
  | binary op t a b =>
    obtain ⟨-, c, hoc, -⟩ := step?_binary h
    rcases operandAndConstant?_eq_some hoc with ⟨rfl, -⟩ | ⟨rfl, -⟩
    · exact List.mem_cons_self
    · exact List.mem_cons_of_mem _ List.mem_cons_self
  | phi t entries =>
    obtain ⟨⟨e, he, rfl⟩, -⟩ := step?_recur h
    exact List.mem_map_of_mem he
  | compare | select | load | alloca | field | elem | call => cases h

namespace Context

theorem ty_eq (hc : Context f types edges) (hx : f.Uses (.var x (.int w))) {i : Instr}
    (hi : i ∈ f.instrs) {v : Value} (ha : i.action = .assign x v) : v.ty = .int w := by
  obtain ⟨j, hj, ho⟩ := hx
  exact (hc.operand j hj x _ ho _ (hc.result i hi x v ha)).symm

/-- The operand of a step is an integer, and no wider than the result. -/
theorem ty_of_step? (hc : Context f types edges) {i : Instr} (hi : i ∈ f.instrs) {header : String}
    {v : Value} (ha : i.action = .assign x v) (hty : v.ty = .int w)
    (h : step? f edges w header x v = some (o, step)) :
    ∃ u, o.ty = .int u ∧ u.bits ≤ w.bits ∧ (step ≠ .extend → u = w) := by
  have hint := hc.integral i hi x v ha
  cases v with
  | cast op s a t =>
    cases op with
    | zext =>
      cases h
      obtain rfl : t = .int w := hty
      have hno : o.ty.isNoWider (.int w) = true := by
        simpa [Value.isIntegral, Ty.isInt, Ty.width?] using hint
      obtain ⟨u, w', hu, hw⟩ := Ty.exists_of_isNoWider hno
      cases hw
      rw [hu] at hno
      exact ⟨u, hu, by simpa [Ty.isNoWider] using hno, fun hne ↦ absurd rfl hne⟩
    | trunc | sext | bitcast | ptrtoint | inttoptr => cases h
  | binary op t a b =>
    obtain rfl : t = .int w := hty
    have hops : a.ty = .int w ∧ b.ty = .int w := by
      simpa [Value.isIntegral, Ty.isInt, Ty.width?] using hint
    obtain ⟨-, c, hoc, -⟩ := step?_binary h
    rcases operandAndConstant?_eq_some hoc with ⟨rfl, -⟩ | ⟨rfl, -⟩
    · exact ⟨w, hops.1, Nat.le_refl _, fun _ ↦ rfl⟩
    · exact ⟨w, hops.2, Nat.le_refl _, fun _ ↦ rfl⟩
  | phi t entries =>
    obtain rfl : t = .int w := hty
    have hall : ∀ e ∈ entries, e.value.ty = .int w := by
      simpa [Value.isIntegral, Ty.isInt, Ty.width?] using hint
    obtain ⟨⟨e, he, rfl⟩, -⟩ := step?_recur h
    exact ⟨w, hall e he, Nat.le_refl _, fun _ ↦ rfl⟩
  | compare | select | load | alloca | field | elem | call => cases h

/-- One step back from an integer variable: the operand is one of the function, and an integer. -/
theorem exists_of_stepOf? (hc : Context f types edges) (hx : f.Uses (.var x (.int w)))
    (h : stepOf? f edges x w = some (o, step)) :
    f.Uses o ∧ ∃ u, o.ty = .int u ∧ u.bits ≤ w.bits ∧ (step ≠ .extend → u = w) := by
  obtain ⟨i, hi, header, v, ha, hstep⟩ := exists_assign_of_stepOf? h
  exact ⟨⟨i, hi, mem_operands_of_step? ha hstep⟩,
    hc.ty_of_step? hi ha (hc.ty_eq hx hi ha) hstep⟩

/-- An integer operand has an expression. -/
theorem exists_describe (hc : Context f types edges) (ho : f.Uses o) (hty : o.ty = .int w) :
    ∃ e, describe f edges n o = some e := by
  induction n generalizing o w with
  | zero =>
    cases o with
    | literal v u => exact ⟨_, rfl⟩
    | symbol name => cases hty
    | var x t =>
      obtain rfl : t = .int w := hty
      exact ⟨_, rfl⟩
  | succ n ih =>
    cases o with
    | literal v u => exact ⟨_, rfl⟩
    | symbol name => cases hty
    | var x t =>
      obtain rfl : t = .int w := hty
      simp only [describe, Ty.width?, Option.bind_some]
      cases hstep : stepOf? f edges x w with
      | none => exact ⟨_, rfl⟩
      | some s =>
        obtain ⟨o, step⟩ := s
        obtain ⟨ho', u, hu, -⟩ := hc.exists_of_stepOf? ho hstep
        obtain ⟨e, he⟩ := ih ho' hu
        exact ⟨step.apply w e, by simp only [he, Option.map_some]⟩

end Context

/-! ## The oracle's answers -/

section Oracle

variable {α β : Type} {s t : Loops}

/-- The back edges are known, or were not asked for. -/
def Ready (edges : OrderedSet Edge) (s : Loops) : Prop := s = .fresh ∨ s = .found edges

/-- The answer to a question, whether the back edges are known or not. -/
def Answers (edges : OrderedSet Edge) (m : Oracle α) (a : α) : Prop :=
  ∀ s, Ready edges s → ∃ t, Ready edges t ∧ m.run s = .ok a t

theorem run_bind_of_eq_ok {m : Oracle α} {k : α → Oracle β} {a : α} (h : m.run s = .ok a t) :
    (m >>= k).run s = (k a).run t := by
  unfold EStateM.run at h ⊢
  simp only [bind, EStateM.bind, h]

theorem Answers.pure (a : α) : Answers edges (pure a) a := fun s hs ↦ ⟨s, hs, rfl⟩

/-- A question in two parts is answered if both are. -/
theorem Answers.bind {m : Oracle α} {k : α → Oracle β} {a : α} {b : β} (hm : Answers edges m a)
    (hk : Answers edges (k a) b) : Answers edges (m >>= k) b := by
  intro s hs
  obtain ⟨t, ht, hrun⟩ := hm s hs
  obtain ⟨u, hu, hrun'⟩ := hk t ht
  exact ⟨u, hu, by rw [run_bind_of_eq_ok hrun, hrun']⟩

theorem run_get (s : Loops) : (get : Oracle Loops).run s = .ok s s := rfl

theorem run_isBackEdge (source target : String) :
    (isBackEdge source target).run (.found edges) =
      .ok (decide (Edge.mk source target ∈ edges)) (.found edges) := rfl

theorem run_requestLoops (h : f.backEdges = .ok edges) (hs : Ready edges s) :
    (requestLoops f).run s = .ok () (.found edges) := by
  unfold requestLoops
  rcases hs with rfl | rfl
  · rw [run_bind_of_eq_ok (run_get .fresh), h]
    rfl
  · rfl

/-- With the back edges known, an entry is found to have its role. -/
theorem run_roleOf (edges : OrderedSet Edge) (header x : String) {e : PhiEntry}
    (h : f.hasBlock e.label = true) :
    (roleOf f header x e).run (.found edges) =
      .ok (roleIn f edges header x e) (.found edges) := by
  unfold roleOf roleIn
  rw [h]
  simp only [Bool.not_true, Bool.false_eq_true, if_false]
  rw [run_bind_of_eq_ok (run_isBackEdge e.label header)]
  simp only [decide_eq_true_eq]
  split
  · split
    · rename_i role hrole
      rw [hrole]
      rfl
    · rename_i hrole
      rw [hrole]
      rfl
  · rfl

/-- Roles are read up to the first one that rules a recurrence out, which decides anyway. -/
theorem run_rolesOf (edges : OrderedSet Edge) (header x : String) {es : List PhiEntry}
    (h : ∀ e ∈ es, f.hasBlock e.label = true) :
    ∃ roles, (rolesOf f header x es).run (.found edges) = .ok roles (.found edges) ∧
      startAndStep? roles = startAndStep? (es.map (roleIn f edges header x)) := by
  induction es with
  | nil => exact ⟨[], rfl, rfl⟩
  | cons e es ih =>
    obtain ⟨roles, hroles, heq⟩ := ih fun e' he' ↦ h e' (List.mem_cons_of_mem e he')
    have hrole := run_roleOf edges header x (h e List.mem_cons_self)
    unfold rolesOf
    rw [run_bind_of_eq_ok hrole, List.map_cons]
    split
    · rename_i hstop
      rw [hstop]
      exact ⟨_, rfl, rfl⟩
    · rename_i hstop
      rw [run_bind_of_eq_ok hroles]
      refine ⟨_, rfl, ?_⟩
      cases hr : roleIn f edges header x e with
      | stop => exact absurd hr hstop
      | start | step | none => simp only [startAndStep?, heq]

variable {recurse : Operand → Oracle (Option Expr)} {sub : Operand → Option Expr} {e : Expr}

/-- An integer operand has the expression that its description gives. -/
theorem answers_integerExpr (h : Answers edges (recurse o) (some e)) :
    Answers edges (integerExpr recurse o) e :=
  h.bind (.pure e)

/-- An extended operand has the expression that its description gives. -/
theorem answers_extendedExpr (h : Answers edges (recurse o) (some e)) :
    Answers edges (extendedExpr recurse w o) (Step.extend.apply w e) := by
  unfold extendedExpr
  refine (answers_integerExpr h).bind ?_
  cases e <;> exact .pure _

/-- A described operation has the expression that its description gives. -/
theorem answers_operationExpr {op : BinaryOp} {c : Nat} (h : Answers edges (recurse o) (some e)) :
    Answers edges (operationExpr recurse w op o c) ((Step.operate op c).apply w e) := by
  unfold operationExpr
  refine (answers_integerExpr h).bind ?_
  cases e with
  | constant v b =>
    simp only [Step.apply, Step.fold?]
    cases fold? op v c w <;> exact .pure _
  | unknown | zeroExtend | binary | recurrence => exact .pure _

/-- A phi has the expression that its description gives, if it has one. -/
theorem answers_recurrenceExpr? (hloops : f.backEdges = .ok edges) {header : String}
    {entries : List PhiEntry} {ty : Ty} (hlabels : ∀ e ∈ entries, f.hasBlock e.label = true)
    (h : ∀ o step, step? f edges w header x (.phi ty entries) = some (o, step) →
      ∃ e, sub o = some e ∧ Answers edges (recurse o) (some e)) :
    Answers edges (recurrenceExpr? f recurse w header x entries)
      ((step? f edges w header x (.phi ty entries)).bind fun (o, step) ↦
        (sub o).map (step.apply w)) := by
  unfold recurrenceExpr?
  simp only [step?] at h ⊢
  split
  · rename_i hlen
    exact .pure none
  · rename_i hlen
    intro s hs
    rw [run_bind_of_eq_ok (run_requestLoops hloops hs)]
    obtain ⟨roles, hroles, heq⟩ := run_rolesOf edges header x hlabels
    rw [run_bind_of_eq_ok hroles, heq]
    have hfound : Ready edges (.found edges) := .inr rfl
    rw [if_neg hlen] at h
    cases hss : startAndStep? (entries.map (roleIn f edges header x)) with
    | none => exact ⟨_, hfound, rfl⟩
    | some found =>
      obtain ⟨start, amount⟩ := found
      cases start with
      | none => exact ⟨_, hfound, rfl⟩
      | some start =>
        cases amount with
        | none => exact ⟨_, hfound, rfl⟩
        | some amount =>
          rw [hss] at h
          obtain ⟨e, he, hrec⟩ := h _ _ rfl
          obtain ⟨t, ht, hrun⟩ := (answers_integerExpr hrec) _ hfound
          refine ⟨t, ht, ?_⟩
          dsimp only
          rw [run_bind_of_eq_ok hrun, Option.bind_some]
          dsimp only
          rw [he]
          rfl

/-- The expression of an assigned variable, given those of the operands. -/
theorem answers_assignedExpr? (hloops : f.backEdges = .ok edges) {header : String} {v : Value}
    {i : Instr} (ha : i.action = .assign x v) (hlabels : ∀ l ∈ i.labels, f.hasBlock l = true)
    (h : ∀ o step, step? f edges w header x v = some (o, step) →
      ∃ e, sub o = some e ∧ Answers edges (recurse o) (some e)) :
    Answers edges (assignedExpr? f recurse w header x v)
      ((step? f edges w header x v).bind fun (o, step) ↦ (sub o).map (step.apply w)) := by
  cases v with
  | cast op s a t =>
    cases op with
    | zext =>
      obtain ⟨e, he, hrec⟩ := h a .extend rfl
      have hstep : ((step? f edges w header x (.cast .zext s a t)).bind fun (o, step) ↦
          (sub o).map (step.apply w)) = some (Step.extend.apply w e) := by
        simp [step?, he]
      rw [hstep]
      exact (answers_extendedExpr hrec).bind (.pure _)
    | trunc | sext | bitcast | ptrtoint | inttoptr => exact .pure none
  | binary op t a b =>
    unfold assignedExpr?
    simp only [step?] at h ⊢
    split
    · rename_i hop
      rw [if_pos hop] at h
      cases hoc : operandAndConstant? op a b with
      | none => exact .pure none
      | some oc =>
        rw [hoc] at h
        obtain ⟨e, he, hrec⟩ := h _ _ rfl
        rw [Option.map_some, Option.bind_some]
        dsimp only
        rw [he]
        exact (answers_operationExpr hrec).bind (.pure _)
    · exact .pure none
  | phi t entries =>
    refine answers_recurrenceExpr? hloops (fun e he ↦ hlabels e.label ?_) h
    unfold Instr.labels
    rw [ha]
    exact List.mem_map_of_mem he
  | compare | select | load | alloca | field | elem | call => exact .pure none

end Oracle

/-- The oracle answers every question about an operand of the function, with its description. -/
theorem Context.answers_exprWithin (hc : Context f types edges) (ho : f.Uses o) :
    Answers edges (exprWithin f n o) (describe f edges n o) := by
  induction n generalizing o with
  | zero =>
    cases o with
    | literal v w => exact .pure _
    | symbol name => exact .pure _
    | var x t => exact .pure _
  | succ n ih =>
    cases o with
    | literal v w => exact .pure _
    | symbol name => exact .pure _
    | var x t =>
      cases t with
      | int w =>
        simp only [exprWithin, describe, Ty.width?, Option.bind_some]
        have hsub : ∀ o step, stepOf? f edges x w = some (o, step) →
            ∃ e, describe f edges n o = some e ∧ Answers edges (exprWithin f n o) (some e) := by
          intro o step hstep
          obtain ⟨ho', u, hu, -⟩ := hc.exists_of_stepOf? ho hstep
          obtain ⟨e, he⟩ := hc.exists_describe (n := n) ho' hu
          exact ⟨e, he, he ▸ ih ho'⟩
        unfold stepOf? at hsub ⊢
        cases hprod : f.producer? x with
        | none => exact .pure _
        | some prod =>
          obtain ⟨header, ⟨action, line⟩⟩ := prod
          obtain ⟨hi, hx⟩ := mem_of_producer? hprod
          rw [hprod] at hsub
          cases action with
          | assign y v =>
            obtain rfl : y = x := by simpa [Instr.result?] using hx
            have hanswer := answers_assignedExpr? hc.loops rfl (hc.labels _ hi) hsub
            refine hanswer.bind ?_
            simp only [Option.bind_some, Instr.value?]
            cases hstep : step? f edges w header y v with
            | none => exact .pure _
            | some s =>
              obtain ⟨e, he, -⟩ := hsub s.1 s.2 (by simpa [Instr.value?] using hstep)
              simp only [Option.bind_some, he, Option.map_some]
              exact .pure _
          | store | call | finish => simp [Instr.result?] at hx
      | ptr | void | array | named | literal => exact .pure _

/-- The back edges and types of an accepted function whose integer operations are proper. -/
theorem exists_context {p : Program} (h : p.isSound = true) (hf : f ∈ p.functions)
    (hint : f.IsIntegral) (hne : f.blocks ≠ []) :
    ∃ edges, Context f (Function.firstTypes f.paramTypes f.instrs).1 edges := by
  obtain ⟨g, hg⟩ := exists_flow_of_isSound h hf
  obtain ⟨b, bs, hb⟩ := List.exists_cons_of_ne_nil hne
  have hloops : f.backEdges = .ok (g.backEdges b.label) := by
    unfold Function.backEdges Function.entry?
    rw [hg, hb]
    rfl
  exact ⟨_, { typing_of_isSound h hf hg with
    integral := hint
    labels := fun i hi l hl ↦ hasBlock_of_isSound h hf hi hl
    loops := hloops }⟩

end Symbolic

end RangeFlow
