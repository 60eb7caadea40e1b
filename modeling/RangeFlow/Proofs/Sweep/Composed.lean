import RangeFlow.Proofs.Flow.Graph
import RangeFlow.Proofs.Sweep.Monad
import RangeFlow.Sweep.Run

/-!
# What the parts of a sweep are made of

Everything that a sweep does in a block is put together from a few operations: it reads operands,
compares widths, joins facts to those of the block, looks at the facts of a block, and offers
ranges to the table.  `Composed` says so once, for a block, for the ids that are offered to and for
the operands that are read.  What these operations have in common then holds of every part of a
sweep, by induction on how it is composed.  What can be told on an edge is split into cases here
(`EdgeCase`), for all that is proved about facts on edges.
-/

namespace RangeFlow

namespace Instr

variable {i : Instr} {c : Call}

/-- A call stands alone or is assigned to a variable. -/
theorem action_cases_of_call? (h : i.call? = some c) :
    i.action = .call c ∨ ∃ x, i.action = .assign x (.call c) := by
  unfold call? at h
  split at h
  · rename_i x c' ha
    cases h
    exact .inr ⟨x, ha⟩
  · rename_i c' ha
    cases h
    exact .inl ha
  · cases h

theorem action_of_call? (h : i.call? = some c) {x : String} (hx : i.result? = some x) :
    i.action = .assign x (.call c) := by
  rcases action_cases_of_call? h with ha | ⟨y, ha⟩
  · simp [result?, ha] at hx
  · rw [result?, ha, Option.some.injEq] at hx
    rw [ha, hx]

/-- The arguments of a call are operands of its instruction. -/
theorem mem_operands_of_call? (h : i.call? = some c) {o : Operand} (ho : o ∈ c.args) :
    o ∈ i.operands := by
  rcases action_cases_of_call? h with ha | ⟨x, ha⟩ <;>
    simp [operands, Action.operands, ha, ho]

end Instr

namespace Sweep

/-- A part of a sweep that joins facts to those of one block only, offers ranges to the given ids
only, and reads the given operands only. -/
inductive Composed (e : Env) (f : Function) (label : String) (ids : String → Prop)
    (reads : Operand → Prop) : ∀ {α : Type}, SweepM α → Prop
  | pure {α : Type} (a : α) : Composed e f label ids reads (pure a)
  | throw {α : Type} (x : Fault) : Composed e f label ids reads (throw x : SweepM α)
  | bind {α β : Type} {m : SweepM α} {k : α → SweepM β} :
    Composed e f label ids reads m → (∀ a, Composed e f label ids reads (k a)) →
      Composed e f label ids reads (m >>= k)
  | read {o : Operand} (l : String) : reads o → Composed e f label ids reads (rangeOf e f l o)
  | conform (first second : Range) : Composed e f label ids reads (conformed first second)
  | join (subject : Subject) (r : Range) :
    Composed e f label ids reads (joinFact f label subject r)
  | joinAll (m : Facts) : Composed e f label ids reads (joinFacts f label m)
  | facts {α : Type} (l : String) {k : Facts → SweepM α} :
    (∀ m, Composed e f label ids reads (k m)) →
      Composed e f label ids reads (do k ((← get).blockFacts f.name l))
  | offer {id : String} (r : Range) (origin : Option Origin) :
    ids id → Composed e f label ids reads (offer id r origin)

namespace Composed

variable {e : Env} {f : Function} {label : String} {ids : String → Prop} {reads : Operand → Prop}
variable {α : Type}

theorem ofExcept (x : Except Fault α) : Composed e f label ids reads (ofExcept x) := by
  cases x with
  | ok a => exact .pure a
  | error x => exact .throw x

/-- What follows a computation that may fail matters only for its result. -/
theorem bindExcept {β : Type} {x : Except Fault α} {k : α → SweepM β}
    (h : ∀ a, x = .ok a → Composed e f label ids reads (k a)) :
    Composed e f label ids reads (Sweep.ofExcept x >>= k) := by
  cases x with
  | ok a =>
    have : Sweep.ofExcept (.ok a) >>= k = k a := pure_bind a k
    rw [this]
    exact h a rfl
  | error x => exact .throw x

theorem counted (w : Width) : Composed e f label ids reads (counted w) := .ofExcept _

theorem resultWidth (t : Ty) : Composed e f label ids reads (resultWidth t) := by
  unfold Sweep.resultWidth
  split
  · exact .counted _
  · exact .throw _

theorem anyOf {act : α → SweepM Bool} {as : List α}
    (h : ∀ a ∈ as, Composed e f label ids reads (act a)) :
    Composed e f label ids reads (anyOf act as) := by
  induction as with
  | nil => exact .pure _
  | cons a as ih =>
    exact .bind (h a List.mem_cons_self) fun _ ↦
      .bind (ih fun b hb ↦ h b (List.mem_cons_of_mem a hb)) fun _ ↦ .pure _

/-! ## Values -/

theorem castRange {op : CastOp} {source target : Ty} {o : Operand} (h : reads o) :
    Composed e f label ids reads (castRange e f label op source o target) := by
  unfold Sweep.castRange
  split
  · exact .bind (.read _ h) fun _ ↦ .bind (.resultWidth _) fun _ ↦ .pure _
  · exact .bind (.read _ h) fun _ ↦ .bind (.resultWidth _) fun _ ↦ .pure _
  · exact .bind (.read _ h) fun _ ↦ .bind (.resultWidth _) fun _ ↦
      .bind (.ofExcept _) fun _ ↦ .pure _
  · exact .bind (.resultWidth _) fun _ ↦ .pure _
  · split
    · exact .bind (.read _ h) fun _ ↦ .bind (.counted _) fun _ ↦ .pure _
    · exact .pure _
  · exact .pure _

theorem phiRange {loops : OrderedSet Edge} {target : String} {r : Range} {entries : List PhiEntry}
    (h : ∀ entry ∈ entries, reads entry.value) :
    Composed e f label ids reads (phiRange e f loops target r entries) := by
  induction entries generalizing r with
  | nil => exact .pure _
  | cons entry entries ih =>
    have ih := fun {r : Range} ↦ ih (r := r) fun x hx ↦ h x (List.mem_cons_of_mem entry hx)
    refine .bind (.ofExcept _) fun source ↦ ?_
    split
    · exact ih
    · exact .bind (.read _ (h entry List.mem_cons_self)) fun _ ↦ .bind (.conform _ _) fun _ ↦ ih

/-- The operands read for a value: those it names, and its own result if it is loaded. -/
def ValueReads (reads : Operand → Prop) (x : String) : Value → Prop
  | .binary _ _ a b => reads a ∧ reads b
  | .compare _ _ _ _ => True
  | .cast _ _ o _ => reads o
  | .select _ _ a b => reads a ∧ reads b
  | .phi _ entries => ∀ entry ∈ entries, reads entry.value
  | .load t _ => reads (.var x t)
  | .alloca _ | .field _ _ _ | .elem _ _ _ | .call _ => True

/-- A value reads the operands that it names, and its own result if it is loaded. -/
theorem valueRange {loops : OrderedSet Edge} {x : String} {v : Value} (h : ValueReads reads x v) :
    Composed e f label ids reads (valueRange e f loops label x v) := by
  cases v with
  | binary op t a b =>
    exact .bind (.read _ h.1) fun _ ↦ .bind (.read _ h.2) fun _ ↦
      .bind (.conform _ _) fun _ ↦ .pure _
  | compare => exact .pure _
  | cast op source o target => exact .castRange h
  | select t c a b =>
    simp only [Sweep.valueRange]
    split
    · exact .bind (.read _ h.1) fun _ ↦ .bind (.read _ h.2) fun _ ↦
        .bind (.conform _ _) fun _ ↦ .pure _
    · exact .pure _
  | phi t entries =>
    simp only [Sweep.valueRange]
    split
    · exact .bind (.counted _) fun _ ↦ .bind (.phiRange h) fun _ ↦ .pure _
    · exact .pure _
  | load t p =>
    simp only [Sweep.valueRange]
    split
    · exact .bind (.read _ h) fun _ ↦ .pure _
    · exact .pure _
  | alloca | field | elem | call => exact .pure _

end Composed

/-- The operands that a sweep over a function can read: those of its instructions, and the results
of loads and calls. -/
structure ReadBy (f : Function) (reads : Operand → Prop) : Prop where
  operand : ∀ i ∈ f.instrs, ∀ o ∈ i.operands, reads o
  loaded : ∀ i ∈ f.instrs, ∀ x t p, i.action = .assign x (.load t p) → reads (.var x t)
  called : ∀ i ∈ f.instrs, ∀ x c, i.action = .assign x (.call c) → reads (.var x c.returns)

theorem ReadBy.trivial (f : Function) : ReadBy f fun _ ↦ True :=
  ⟨fun _ _ _ _ ↦ ⟨⟩, fun _ _ _ _ _ _ ↦ ⟨⟩, fun _ _ _ _ _ ↦ ⟨⟩⟩

/-- The definition of a variable stands in an instruction of the function. -/
theorem mem_instrs_of_definition? {f : Function} {x : String} {v : Value}
    (h : f.definition? x = some v) : ∃ i ∈ f.instrs, i.action = .assign x v := by
  obtain ⟨⟨label, i⟩, hp, hv⟩ := Option.bind_eq_some_iff.1 h
  have hmem := List.mem_of_getLast? hp
  simp only [List.mem_filter, Function.labelled, List.mem_flatMap, List.mem_map,
    Prod.mk.injEq, decide_eq_true_eq] at hmem
  obtain ⟨⟨b, hb, i', hi, -, rfl⟩, hx⟩ := hmem
  refine ⟨i', List.mem_flatMap.2 ⟨b, hb, hi⟩, ?_⟩
  cases ha : i'.action with
  | assign y u =>
    simp only [Instr.result?, ha, Option.some.injEq] at hx
    simp only [Instr.value?, ha, Option.some.injEq] at hv
    rw [hx, hv]
  | store | call | finish => simp [Instr.result?, ha] at hx

/-- The terminator of a block stands in an instruction of the function. -/
theorem mem_instrs_of_terminator? {f : Function} {b : Block} {t : Terminator} (hb : b ∈ f.blocks)
    (h : b.terminator? = some t) : ∃ i ∈ f.instrs, i.action = .finish t := by
  obtain ⟨i, hi, ht⟩ := Option.bind_eq_some_iff.1 h
  refine ⟨i, List.mem_flatMap.2 ⟨b, hb, List.mem_of_getLast? hi⟩, ?_⟩
  cases ha : i.action with
  | finish u =>
    simp only [Instr.terminator?, ha, Option.some.injEq] at ht
    rw [ht]
  | assign | store | call => simp [Instr.terminator?, ha] at ht

/-- The value that decides a condition is made by an instruction of the function. -/
theorem mem_instrs_of_condition {f : Function} {cond : Operand} {v : Value}
    (h : cond.var?.bind f.definition? = some v) : ∃ i ∈ f.instrs, ∃ x, i.action = .assign x v := by
  obtain ⟨x, -, hx⟩ := Option.bind_eq_some_iff.1 h
  obtain ⟨i, hi, ha⟩ := mem_instrs_of_definition? hx
  exact ⟨i, hi, x, ha⟩

theorem map_snd_sites (b : Block) (name : String) : (b.sites name).map Prod.snd = b.instrs := by
  unfold Block.sites
  rw [List.map_map]
  exact List.zipIdx_map_fst 0 b.instrs

theorem mem_instrs_of_mem_sites {f : Function} {b : Block} (hb : b ∈ f.blocks) {name : String}
    {site : Site} {i : Instr} (h : (site, i) ∈ b.sites name) : i ∈ f.instrs := by
  obtain ⟨⟨i', n⟩, hmem, heq⟩ := List.mem_map.1 h
  cases heq
  exact List.mem_flatMap.2 ⟨b, hb, List.fst_mem_of_mem_zipIdx hmem⟩

/-! ## Ids that are offered to -/

/-- Return slots are among the ids that sweeps can update. -/
theorem ret_mem_updatedIds {e : Env} {f : Function} (hf : f ∈ e.program.functions) :
    (Location.ret f.name).id ∈ e.updatedIds :=
  List.mem_flatMap.2 ⟨f, hf, List.mem_cons_self⟩

/-- Parameters are among the ids that sweeps can update. -/
theorem arg_mem_updatedIds {e : Env} {g : Function} (hg : g ∈ e.program.functions) {index : Nat}
    (h : index < g.params.length) : (Location.arg g.name index).id ∈ e.updatedIds := by
  refine List.mem_flatMap.2 ⟨g, hg, ?_⟩
  simp only [List.cons_append, List.mem_cons, List.mem_append, List.mem_map, List.mem_range]
  exact .inr (.inl ⟨index, h, rfl⟩)

/-- What an instruction can update is among the ids that sweeps can. -/
theorem updatedId?_mem_updatedIds {e : Env} {f : Function} (hf : f ∈ e.program.functions)
    {i : Instr} (hi : i ∈ f.instrs) {id : String} (h : e.updatedId? f i = some id) :
    id ∈ e.updatedIds := by
  refine List.mem_flatMap.2 ⟨f, hf, ?_⟩
  simp only [List.cons_append, List.mem_cons, List.mem_append, List.mem_filterMap]
  exact .inr (.inr ⟨i, hi, h⟩)

/-! ## Facts on edges -/

section Edges

variable (e : Env) (f : Function)

/-- What a comparison tells that decides a branch. -/
def comparedFacts (l : String) (op : Comparison) (a b : Operand) : SweepM Facts := do
  let lhs ← rangeOf e f l a
  let rhs ← conformed lhs (← rangeOf e f l b)
  return op.refine a b lhs rhs

/-- What a switch on a variable tells. -/
def switchedFacts (l x : String) (w : Width) (default : String) (cases : List SwitchCase)
    (target : String) : SweepM Facts := do
  let u ← counted w
  let r ← rangeOf e f l (.var x (.int w))
  let q ← ofExcept (Fault.ofRange (Range.paired Range.intersect r
    (switchRegion u default cases target)))
  return .ofList [(.var x, q)]

/-- What an edge can tell: nothing, what a comparison of integers tells, or what a switch does.  A
comparison is inverted unless the edge is the one where it is true. -/
inductive EdgeCase (b : Block) (target : String) : Prop
  | silent (eq : edgeFacts e f b target = pure ∅)
  | branch {cond lhs rhs : Operand} {ifTrue ifFalse : String} {op : Comparison} {ty : Ty}
      (terminator : b.terminator? = some (.jnz cond ifTrue ifFalse))
      (definition : cond.var?.bind f.definition? = some (.compare op ty lhs rhs))
      (left : lhs.ty.isInt = true) (right : rhs.ty.isInt = true)
      (eq : edgeFacts e f b target =
        comparedFacts e f b.label (if target = ifTrue then op else op.invert) lhs rhs)
  | switch {ty : Ty} {x default : String} {w : Width} {cases : List SwitchCase}
      (terminator : b.terminator? = some (.switch ty (.var x (.int w)) default cases))
      (eq : edgeFacts e f b target = switchedFacts e f b.label x w default cases target)

theorem edgeCase (b : Block) (target : String) : EdgeCase e f b target := by
  generalize hm : edgeFacts e f b target = m
  have hcase := hm
  unfold edgeFacts at hcase
  split at hcase
  · rename_i hterm
    unfold branchFacts at hcase
    split at hcase
    · rename_i hdef
      split at hcase
      · rename_i hint
        rw [Bool.and_eq_true] at hint
        exact .branch hterm hdef hint.1 hint.2 (hm.trans hcase.symm)
      · exact .silent (hm.trans hcase.symm)
    · exact .silent (hm.trans hcase.symm)
  · rename_i hterm
    unfold switchFacts at hcase
    split at hcase
    · exact .switch hterm (hm.trans hcase.symm)
    · exact .silent (hm.trans hcase.symm)
  · exact .silent (hm.trans hcase.symm)

end Edges

namespace Composed

variable {e : Env} {f : Function} {label : String} {ids : String → Prop} {reads : Operand → Prop}

/-- The facts on an edge come from operands of the function. -/
theorem edgeFacts (hr : ReadBy f reads) {b : Block} (hb : b ∈ f.blocks) (target : String) :
    Composed e f label ids reads (edgeFacts e f b target) := by
  cases edgeCase e f b target with
  | silent heq =>
    rw [heq]
    exact .pure _
  | branch _ hdef _ _ heq =>
    obtain ⟨i, hi, x, ha⟩ := mem_instrs_of_condition hdef
    rw [heq]
    refine .bind (.read _ (hr.operand i hi _ ?_)) fun _ ↦
      .bind (.read _ (hr.operand i hi _ ?_)) fun _ ↦ .bind (.conform _ _) fun _ ↦ .pure _ <;>
        simp [Instr.operands, ha, Action.operands]
  | switch hterm heq =>
    obtain ⟨i, hi, ha⟩ := mem_instrs_of_terminator? hb hterm
    rw [heq]
    refine .bind (.counted _) fun _ ↦ .bind (.read _ (hr.operand i hi _ ?_)) fun _ ↦
      .bind (.ofExcept _) fun _ ↦ .pure _
    simp [Instr.operands, ha, Action.operands]

theorem mergeFrom (hr : ReadBy f reads) {b : Block} (hb : b ∈ f.blocks) :
    Composed e f label ids reads (mergeFrom e f label b) :=
  .bind (.edgeFacts hr hb label) fun refined ↦
    .facts (k := fun m ↦ joinFacts f label (m.insertAll refined.entries)) b.label fun _ ↦ .joinAll _

theorem forM {α : Type} {act : α → SweepM PUnit} {as : List α}
    (h : ∀ a ∈ as, Composed e f label ids reads (act a)) :
    Composed e f label ids reads (as.forM act) := by
  induction as with
  | nil => exact .pure _
  | cons a as ih =>
    exact .bind (h a List.mem_cons_self) fun _ ↦ ih fun b hb ↦ h b (List.mem_cons_of_mem a hb)

/-- Facts are brought in from the predecessors of a block. -/
theorem mergePredecessors (hr : ReadBy f reads) (g : Flow) (loops : OrderedSet Edge) :
    Composed e f label ids reads (mergePredecessors e f g loops label) := by
  refine .forM fun source _ ↦ ?_
  split
  · exact .pure _
  · split
    · rename_i b hb
      exact .mergeFrom hr (Function.mem_of_block? hb).1
    · exact .pure _

/-! ## Instructions -/

theorem offerStored {i : Instr} {t : Ty} {value address : Operand}
    (ha : i.action = .store t value address) (hids : ∀ id, e.updatedId? f i = some id → ids id)
    (r : Range) : Composed e f label ids reads (offerStored e f i address r) := by
  refine .bindExcept fun l hl ↦ ?_
  split
  · exact .offer _ _ (hids _ (by simp [Env.updatedId?, ha, hl, Except.toOption]))
  · exact .pure _

theorem visitStore (hr : ReadBy f reads) {i : Instr} (hi : i ∈ f.instrs) {t : Ty}
    {value address : Operand} (ha : i.action = .store t value address)
    (hids : ∀ id, e.updatedId? f i = some id → ids id) :
    Composed e f label ids reads (visitStore e f label i value address) := by
  have hops : i.operands = [value, address] := by simp [Instr.operands, ha, Action.operands]
  unfold Sweep.visitStore
  split
  · exact .pure _
  · refine .bind (.read _ (hr.operand i hi value (by simp [hops]))) fun r ↦ ?_
    split
    · exact .bind (.join _ _) fun _ ↦ .offerStored ha hids r
    · exact .offerStored ha hids r

/-- A call offers to the parameters of the functions that it can invoke. -/
theorem offerArgs (hr : ReadBy f reads) {i : Instr} (hi : i ∈ f.instrs) {c : Call}
    (hc : i.call? = some c) (hids : ∀ id ∈ e.updatedIds, ids id) (callee : String) :
    Composed e f label ids reads (offerArgs e f label i c callee) := by
  unfold Sweep.offerArgs
  split
  · exact .pure _
  · rename_i g hg
    have hmem : g ∈ e.program.functions := List.mem_of_find?_eq_some hg
    split
    · exact .pure _
    · refine .anyOf ?_
      rintro ⟨arg, index⟩ harg
      obtain ⟨hlt, hget⟩ := List.mem_zipIdx' harg
      have harg' : arg ∈ c.args := List.mem_of_mem_take (hget ▸ List.getElem_mem hlt)
      have hindex : index < g.params.length := by
        rw [List.length_take] at hlt
        omega
      unfold Sweep.offerArg
      dsimp only
      split
      · exact .pure _
      · refine .bind (.read _ (hr.operand i hi arg (i.mem_operands_of_call? hc harg'))) fun r ↦ ?_
        exact .offer _ _ (hids _ (arg_mem_updatedIds hmem hindex))

theorem visitCall (hr : ReadBy f reads) (hf : f ∈ e.program.functions) {i : Instr}
    (hi : i ∈ f.instrs) {c : Call} (hc : i.call? = some c) (hids : ∀ id ∈ e.updatedIds, ids id)
    (site : Site) : Composed e f label ids reads (visitCall e f label site i c) := by
  unfold Sweep.visitCall
  dsimp only
  split
  · exact .pure _
  · refine .bind (.anyOf fun callee _ ↦ .offerArgs hr hi hc hids callee) fun changed ↦ ?_
    split
    · rename_i x hx
      have ha := i.action_of_call? hc hx
      refine .bind ?_ fun _ ↦ .pure _
      unfold Sweep.offerResult
      split
      · exact .pure _
      · refine .bind (.read _ (hr.called i hi x c ha)) fun r ↦ .bind (.join _ _) fun _ ↦ ?_
        refine .offer _ _ (hids _ (updatedId?_mem_updatedIds hf hi ?_))
        simp [Env.updatedId?, ha]
    · exact .pure _

/-- A return offers to the return slot of its function. -/
theorem visitReturn (hr : ReadBy f reads) (hf : f ∈ e.program.functions) {i : Instr}
    (hi : i ∈ f.instrs) {t : Ty} {value : Operand} (ha : i.action = .finish (.ret t value))
    (hids : ∀ id ∈ e.updatedIds, ids id) :
    Composed e f label ids reads (visitReturn e f label i t value) := by
  have hops : i.operands = [value] := by simp [Instr.operands, ha, Action.operands]
  unfold Sweep.visitReturn
  split
  · exact .pure _
  · refine .bind (.read _ (hr.operand i hi value (by simp [hops]))) fun r ↦ ?_
    exact .offer _ _ (hids _ (ret_mem_updatedIds hf))

/-- What is read for a value is read by the function. -/
theorem valueReads_of_mem (hr : ReadBy f reads) {i : Instr} (hi : i ∈ f.instrs) {x : String}
    {v : Value} (ha : i.action = .assign x v) : ValueReads reads x v := by
  have hop := hr.operand i hi
  simp only [Instr.operands, ha] at hop
  cases v with
  | binary op t a b => exact ⟨hop a (by simp [Action.operands]), hop b (by simp [Action.operands])⟩
  | cast op t o u => exact hop o (by simp [Action.operands])
  | select t c a b => exact ⟨hop a (by simp [Action.operands]), hop b (by simp [Action.operands])⟩
  | phi t entries =>
    exact fun entry hentry ↦ hop _ (by simpa [Action.operands] using ⟨entry, hentry, rfl⟩)
  | load t p => exact hr.loaded i hi x t p ha
  | compare | alloca | field | elem | call => trivial

/-- An instruction is composed of such parts. -/
theorem perform (hr : ReadBy f reads) (hf : f ∈ e.program.functions)
    (hids : ∀ id ∈ e.updatedIds, ids id) (loops : OrderedSet Edge) {i : Instr} (hi : i ∈ f.instrs)
    (site : Site) : Composed e f label ids reads (perform e f loops label site i) := by
  unfold Sweep.perform
  split
  · rename_i x c ha
    exact .visitCall hr hf hi (by simp [Instr.call?, ha]) hids site
  · rename_i c ha
    exact .visitCall hr hf hi (by simp [Instr.call?, ha]) hids site
  · rename_i x v hne ha
    refine .bind (.valueRange (valueReads_of_mem hr hi ha)) fun r ↦ ?_
    split
    · exact .bind (.join _ _) fun _ ↦ .pure _
    · exact .pure _
  · rename_i t value address ha
    exact .visitStore hr hi ha fun id hid ↦ hids id (updatedId?_mem_updatedIds hf hi hid)
  · rename_i t value ha
    exact .visitReturn hr hf hi ha hids
  · exact .pure _

theorem visit (hr : ReadBy f reads) (hf : f ∈ e.program.functions)
    (hids : ∀ id ∈ e.updatedIds, ids id) (loops : OrderedSet Edge) {i : Instr} (hi : i ∈ f.instrs)
    (site : Site) : Composed e f label ids reads (visit e f loops label (site, i)) := by
  unfold Sweep.visit
  dsimp only
  split
  · exact .bind (.throw _) fun _ ↦ .perform hr hf hids loops hi site
  · exact .perform hr hf hids loops hi site

theorem sweepBlock (hr : ReadBy f reads) (hf : f ∈ e.program.functions)
    (hids : ∀ id ∈ e.updatedIds, ids id) (g : Flow) (loops : OrderedSet Edge) {b : Block}
    (hb : b ∈ f.blocks) : Composed e f b.label ids reads (sweepBlock e f g loops b) := by
  refine .bind (.mergePredecessors hr g loops) fun _ ↦ .anyOf ?_
  rintro ⟨site, i⟩ hi
  exact .visit hr hf hids loops (mem_instrs_of_mem_sites hb hi) site

end Composed

/-- The range of what is assigned is joined to the fact about the variable, if there is one and it
does not come from a call. -/
theorem exists_valueRange_of_perform {e : Env} {f : Function} {loops : OrderedSet Edge}
    {label x : String} {site : Site} {i : Instr} {v : Value} {b : Bool} {s t : State}
    (ha : i.action = .assign x v) (hv : ∀ c, v ≠ .call c)
    (h : (perform e f loops label site i).run s = .ok b t) :
    ∃ r u, (valueRange e f loops label x v).run s = .ok r u ∧ b = false ∧ (r = none → t = u) ∧
      ∀ q, r = some q → ∃ b', (joinFact f label (.var x) q).run u = .ok b' t := by
  unfold perform at h
  rw [ha] at h
  cases v with
  | call c => exact absurd rfl (hv c)
  | binary | compare | cast | select | phi | load | alloca | field | elem =>
    obtain ⟨r, u, hr, h⟩ := run_bind_eq_ok.1 h
    refine ⟨r, u, hr, ?_⟩
    cases r with
    | none =>
      obtain ⟨rfl, rfl⟩ := run_pure_eq_ok.1 h
      exact ⟨rfl, fun _ ↦ rfl, by simp⟩
    | some q =>
      obtain ⟨b', _, hjoin, h⟩ := run_bind_eq_ok.1 h
      obtain ⟨rfl, rfl⟩ := run_pure_eq_ok.1 h
      refine ⟨rfl, by simp, ?_⟩
      rintro _ ⟨⟩
      exact ⟨b', hjoin⟩

end Sweep

end RangeFlow
