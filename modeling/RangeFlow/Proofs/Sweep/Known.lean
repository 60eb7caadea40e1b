import RangeFlow.Proofs.Range.Inhabited
import RangeFlow.Proofs.Sweep.Moments
import RangeFlow.Proofs.Sweep.Settles

/-!
# What can be known

A sweep finds a range with a member only where other ranges have members: the result of an operator
needs its operands, a variable that reads ids needs one of them, and an id needs something that is
offered to it.  `Feeds` lists these rules, and what is `Known` is what they derive from nothing.
The rules speak of the instructions of a program and not of the order of its blocks.  In whatever
order the blocks are laid out, a run finds nothing that is not known (`known_of_run`).
-/

namespace RangeFlow

/-- What a range can be known of: an id, or a variable of a function. -/
inductive Topic
  | id (id : String)
  | var (function name : String)
deriving DecidableEq, Repr

/-- The variable that the range of an operand is that of, if it is one. -/
def Operand.topics (function : String) : Operand → List Topic
  | .var x _ => [.var function x]
  | .literal _ _ | .symbol _ => []

/-- Lists of operands: if all of one list have ranges with members, then the value has one, unless
it is a quotient. -/
def Value.supports : Value → List (List Operand)
  | .binary op _ a b => [op.reads a b]
  | .compare _ _ _ _ | .cast .ptrtoint _ _ _ => [[]]
  | .cast .trunc _ o _ | .cast .zext _ o _ | .cast .sext _ o _ => [[o]]
  | .cast .bitcast source o target => if source.isInt && target.isInt then [[o]] else []
  | .select t _ a b => if t.isInt then [[a], [b]] else []
  | .phi t entries => if t.isInt then entries.map fun entry ↦ [entry.value] else []
  | .cast .inttoptr _ _ _ | .load _ _ | .alloca _ | .field _ _ _ | .elem _ _ _ | .call _ => []

namespace Sweep

/-- If all topics of the list are known, then so is the other one. -/
inductive Feeds (e : Env) : List Topic → Topic → Prop
  | seeded {leaf : Leaf} : .ok leaf ∈ e.program.leaves → leaf.range.isEmpty = false →
    Feeds e [] (.id leaf.location.id)
  | tainted {f : Function} {x : String} {t : Ty} {ids : List String} {id : String} :
    f ∈ e.defined → e.sources f x t = .ok ids → id ∈ ids → e.settings.isTainted id = true →
      Feeds e [] (.var f.name x)
  | read {f : Function} {x : String} {t : Ty} {ids : List String} {id : String} :
    f ∈ e.defined → e.sources f x t = .ok ids → id ∈ ids → Feeds e [.id id] (.var f.name x)
  | value {f : Function} {i : Instr} {x : String} {v : Value} {os : List Operand} :
    f ∈ e.defined → i ∈ f.instrs → i.action = .assign x v → os ∈ v.supports →
      Feeds e (os.flatMap (Operand.topics f.name)) (.var f.name x)
  | stored {f : Function} {i : Instr} {t : Ty} {value address : Operand} {l : Location} :
    f ∈ e.defined → i ∈ f.instrs → i.action = .store t value address → value.ty.isInt = true →
    e.program.memoryLocation f address = .ok (some l) →
      Feeds e (value.topics f.name) (.id l.id)
  /-- What is stored through a pointer is kept as a fact about the pointer. -/
  | pointed {f : Function} {i : Instr} {t u : Ty} {value : Operand} {p : String} :
    f ∈ e.defined → i ∈ f.instrs → i.action = .store t value (.var p u) → value.ty.isInt = true →
      Feeds e (value.topics f.name) (.var f.name p)
  | returned {f : Function} {i : Instr} {t : Ty} {value : Operand} :
    f ∈ e.defined → i ∈ f.instrs → i.action = .finish (.ret t value) → t.isInt = true →
      Feeds e (value.topics f.name) (.id (Location.ret f.name).id)
  | passed {f g : Function} {site : Site} {i : Instr} {c : Call} {callee : String} {arg : Operand}
      {index : Nat} :
    f ∈ e.defined → (site, i) ∈ f.sites → i.call? = some c → callee ∈ e.resolver.callees site c →
    e.program.function? callee = some g → (g.isVararg || g.isIntrinsic) = false →
    (arg, index) ∈ (c.args.take g.params.length).zipIdx → arg.ty.isInt = true →
      Feeds e (arg.topics f.name) (.id (Location.arg g.name index).id)
  | answered {f : Function} {site : Site} {i : Instr} {x : String} {c : Call} {callee : String} :
    f ∈ e.defined → (site, i) ∈ f.sites → i.action = .assign x (.call c) → c.returns.isInt = true →
    callee ∈ e.resolver.callees site c →
      Feeds e [.var f.name x] (.id (Location.callResult f.name x).id)

/-- What the rules derive. -/
inductive Known (e : Env) : Topic → Prop
  | intro {body : List Topic} {head : Topic} :
    Feeds e body head → (∀ t ∈ body, Known e t) → Known e head

variable {e : Env} {f : Function} {l : String} {s t : State}

/-! ## Ranges that are read -/

/-- What is read has members if something that is read has, or is tainted. -/
theorem isEmpty_readIds {t : RangeTable String} {w : Width} {ids : List String} :
    (e.readIds t w ids).isEmpty = false ↔ ∃ id ∈ ids, e.settings.isTainted id = true ∨
      ∃ r, t.get? id = some r ∧ r.isEmpty = false := by
  have hfold (ids : List String) (r : Range) (hr : r.width = w) :
      (ids.foldl (fun r id ↦ r.union (storedAt t w id)) r).isEmpty = false ↔
        r.isEmpty = false ∨ ∃ id ∈ ids, ∃ r, t.get? id = some r ∧ r.isEmpty = false := by
    induction ids generalizing r with
    | nil => simp
    | cons id ids ih =>
      have hwidth : r.width = (storedAt t w id).width := hr.trans (width_storedAt t w id).symm
      have hstored : (storedAt t w id).isEmpty = false ↔
          ∃ r, t.get? id = some r ∧ r.isEmpty = false := by
        unfold storedAt
        cases t.get? id <;> simp
      rw [List.foldl_cons, ih _ ((Range.width_union hwidth).trans hr), Range.isEmpty_union hwidth,
        Bool.and_eq_false_iff, hstored]
      simp only [List.mem_cons, exists_eq_or_imp, or_assoc]
  unfold Env.readIds
  split
  · rename_i htaint
    obtain ⟨id, hid, ht⟩ := List.any_eq_true.1 htaint
    rw [Range.isEmpty_full]
    exact iff_of_true rfl ⟨id, hid, .inl ht⟩
  · rename_i htaint
    rw [hfold ids _ (Range.width_empty w), Range.isEmpty_empty]
    rw [List.any_eq_true] at htaint
    push Not at htaint
    constructor
    · rintro (h | ⟨id, hid, h⟩)
      · cases h
      · exact ⟨id, hid, .inr h⟩
    · rintro ⟨id, hid, ht | h⟩
      · exact absurd ht (htaint id hid)
      · exact .inr ⟨id, hid, h⟩

/-! ## Operations -/

/-- Whatever a state tells of is known. -/
structure Env.Explained (e : Env) (s : State) : Prop where
  ids : ∀ id r, s.table.get? id = some r → Known e (.id id)
  facts : ∀ g l x r, (s.blockFacts g l).get? (.var x) = some r → Known e (.var g x)

/-- What a part of a sweep does with states that tell only of what is known, if it ends. -/
abbrev Env.Finds (e : Env) {α : Type} (m : SweepM α) (Q : α → Prop) : Prop :=
  Settles False e.Explained m Q

namespace Env.Explained

/-- Only the facts and the table have to be explained. -/
theorem of_facts_eq (h : e.Explained s) (hf : t.facts = s.facts) (ht : t.table = s.table) :
    e.Explained t := by
  refine ⟨fun id r hr ↦ h.ids id r (by rw [← ht]; exact hr), fun g l x r hr ↦ h.facts g l x r ?_⟩
  rw [← blockFacts_eq_of_facts_eq hf]
  exact hr

/-- Facts about known variables may replace those of a block. -/
theorem setBlockFacts (h : e.Explained s) {m : Facts}
    (hm : ∀ x r, m.get? (.var x) = some r → Known e (.var f.name x)) :
    e.Explained (s.setBlockFacts f.name l m) := by
  refine ⟨h.ids, fun g k x r hr ↦ ?_⟩
  rcases blockFacts_setBlockFacts_cases s f.name l g k m with heq | ⟨rfl, rfl, heq⟩
  · rw [heq] at hr
    exact h.facts g k x r hr
  · rw [heq] at hr
    exact hm x r hr

end Env.Explained

section Operations

variable {α : Type} {o : Operand} {r : Range}

/-- All topics of the operand are known. -/
def Env.Grounds (e : Env) (f : Function) (o : Operand) : Prop :=
  ∀ t ∈ o.topics f.name, Known e t

theorem ofExcept_finds (x : Except Fault α) : e.Finds (ofExcept x) fun a ↦ x = .ok a :=
  .ofExcept (fun _ ↦ id) False.elim

/-- An operand that has a range with members is known. -/
theorem rangeOf_finds (hf : f ∈ e.defined) (o : Operand) :
    e.Finds (rangeOf e f l o) fun r ↦ r.isEmpty = false → e.Grounds f o := by
  refine ⟨fun {s t r} hs hrun ↦ ?_, False.elim⟩
  cases o with
  | symbol name => exact absurd hrun run_throw_eq_ok.1
  | literal v w =>
    obtain ⟨-, -, rfl⟩ := run_rangeOf_literal_eq_ok.1 hrun
    exact ⟨hs, fun _ t ht ↦ absurd ht List.not_mem_nil⟩
  | var x ty =>
    obtain ⟨w, -, ⟨hr, rfl⟩ | ⟨-, -, ids, hids, rfl, rfl⟩⟩ := run_rangeOf_var_eq_ok.1 hrun
    · refine ⟨hs, fun _ t ht ↦ ?_⟩
      obtain rfl := List.mem_singleton.1 ht
      exact hs.facts _ _ _ _ hr
    · have hknown : (e.readIds s.table w ids).isEmpty = false → Known e (.var f.name x) := by
        intro hr
        obtain ⟨id, hid, htaint | ⟨q, hq, -⟩⟩ := isEmpty_readIds.1 hr
        · exact .intro (.tainted hf hids hid htaint) fun _ ht ↦ absurd ht List.not_mem_nil
        · exact .intro (.read hf hids hid) (List.forall_mem_singleton.2 (hs.ids id q hq))
      refine ⟨?_, fun hr ↦ List.forall_mem_singleton.2 (hknown hr)⟩
      unfold State.afterRead
      split
      · exact hs
      · rename_i hr
        refine hs.setBlockFacts fun y q hq ↦ ?_
        rw [OrderedMap.get?_insert] at hq
        split at hq
        · rename_i hy
          cases hy
          exact hknown (Bool.eq_false_iff.2 hr)
        · exact hs.facts _ _ _ _ hq

theorem conformed_finds (first second : Range) :
    e.Finds (conformed first second) fun r ↦ r = first.conform second := by
  refine ⟨fun hs hrun ↦ ?_, False.elim⟩
  obtain ⟨log, -, rfl, rfl⟩ := run_conformed_eq_ok.1 hrun
  exact ⟨hs.of_facts_eq rfl rfl, rfl⟩

/-- A fact about a known variable may be joined. -/
theorem joinFact_finds {k : Subject}
    (hk : ∀ x, k = .var x → r.isEmpty = false → Known e (.var f.name x)) :
    e.Finds (joinFact f l k r) fun _ ↦ True := by
  refine ⟨fun {s t b} hs hrun ↦ ?_, False.elim⟩
  obtain ⟨log, -, -, rfl⟩ := run_joinFact_eq_ok.1 hrun
  have hjoin : e.Explained (s.afterJoin f l k r) := by
    unfold State.afterJoin
    dsimp only
    split
    · refine hs.setBlockFacts fun x q hq ↦ ?_
      rw [Facts.get?_join] at hq
      obtain ⟨old, -, hold | ⟨hnew, hfilled⟩⟩ := Facts.exists_of_joined hq
      · exact hs.facts _ _ _ _ hold
      · split at hnew
        · rename_i hx
          cases hnew
          exact hk x hx.symm hfilled
        · cases hnew
    · exact hs
  exact ⟨hjoin.of_facts_eq rfl rfl, ⟨⟩⟩

theorem joinFacts_finds {m : Facts}
    (hm : ∀ x r, m.get? (.var x) = some r → r.isEmpty = false → Known e (.var f.name x)) :
    e.Finds (joinFacts f l m) fun _ ↦ True := by
  refine ⟨fun {s t b} hs hrun ↦ ?_, False.elim⟩
  simp only [joinFacts, run_bind_eq_ok, run_get_eq_ok] at hrun
  obtain ⟨_, _, ⟨rfl, rfl⟩, hrun⟩ := hrun
  split at hrun
  · obtain rfl := run_modify_eq_ok.1 hrun
    refine ⟨hs.setBlockFacts fun x r hr ↦ ?_, ⟨⟩⟩
    rw [OrderedMap.get?_filter, Option.filter_eq_some_iff] at hr
    exact hm x r hr.1 (by simpa using hr.2)
  · have hentries : e.Finds (m.entries.forM fun e ↦ do let _ ← joinFact f l e.1 e.2)
        fun _ ↦ ∀ e ∈ m.entries, True := by
      refine .forM fun k hk ↦ .bind (joinFact_finds fun x hx hr ↦ ?_) fun _ _ ↦ .pure ⟨⟩
      exact hm x k.2 (OrderedMap.get?_eq_some_iff.2 (hx ▸ hk)) hr
    exact ⟨(hentries.keeps hs hrun).1, ⟨⟩⟩

theorem offer_finds {id : String} {origin : Option Origin}
    (hid : r.isEmpty = false → Known e (.id id)) : e.Finds (offer id r origin) fun _ ↦ True := by
  refine ⟨fun {s t b} hs hrun ↦ ?_, False.elim⟩
  obtain ⟨log, -, -, rfl⟩ := run_offer_eq_ok.1 hrun
  refine ⟨⟨fun id' q hq ↦ ?_, hs.facts⟩, ⟨⟩⟩
  rcases s.table.union_cases id r with ⟨hu, -⟩ | ⟨hu, hr, -⟩
  · rw [hu] at hq
    exact hs.ids id' q hq
  · rw [hu] at hq
    simp only [RangeTable.get?, OrderedMap.get?_insert] at hq
    split at hq
    · rename_i heq
      rw [heq]
      exact hid hr
    · exact hs.ids id' q hq

/-! ## Values -/

theorem counted_finds (w : Width) : e.Finds (counted w) fun _ ↦ True :=
  (ofExcept_finds _).mono fun _ _ ↦ ⟨⟩

theorem resultWidth_finds (t : Ty) : e.Finds (resultWidth t) fun _ ↦ t.isInt = true := by
  unfold resultWidth
  cases t with
  | int w => exact (counted_finds w).mono fun _ _ ↦ rfl
  | ptr | void | array | named | literal => exact .throw id

/-- The operands of one of the lists are known. -/
def Env.Supported (e : Env) (f : Function) (v : Value) : Prop :=
  ∃ os ∈ v.supports, ∀ o ∈ os, e.Grounds f o

/-- The range of a cast has members only if its operand is known. -/
theorem castRange_finds (hf : f ∈ e.defined) (op : CastOp) (source target : Ty) (o : Operand) :
    e.Finds (castRange e f l op source o target) fun r ↦
      ∀ q, r = some q → q.isEmpty = false → e.Supported f (.cast op source o target) := by
  have hone {q r : Range} (hr : r.isEmpty = false → e.Grounds f o) (hq : q.isEmpty = r.isEmpty)
      (hsupport : [o] ∈ (Value.cast op source o target).supports) :
      ∀ q', some q = some q' → q'.isEmpty = false → e.Supported f (.cast op source o target) := by
    rintro _ ⟨⟩ hempty
    exact ⟨[o], hsupport, List.forall_mem_singleton.2 (hr (hq ▸ hempty))⟩
  cases op with
  | trunc | zext =>
    refine .bind (rangeOf_finds hf o) fun r hr ↦ .bind (resultWidth_finds target) fun w _ ↦ ?_
    exact .pure (hone hr (Range.isEmpty_resize r w) List.mem_cons_self)
  | sext =>
    refine .bind (rangeOf_finds hf o) fun r hr ↦ .bind (resultWidth_finds target) fun w _ ↦ ?_
    refine .bind (ofExcept_finds _) fun q hq ↦ .pure (hone hr ?_ List.mem_cons_self)
    obtain ⟨-, -, rfl⟩ := Range.signExtendAt_eq_ok.1 hq
    exact Range.isEmpty_signExtend r w
  | ptrtoint =>
    refine .bind (resultWidth_finds target) fun w _ ↦ .pure fun q _ _ ↦ ?_
    exact ⟨[], List.mem_cons_self, fun _ ho ↦ absurd ho List.not_mem_nil⟩
  | bitcast =>
    unfold castRange
    dsimp only
    split
    · rename_i v w hv hw
      refine .bind (rangeOf_finds hf o) fun r hr ↦ .bind (counted_finds w) fun u _ ↦ ?_
      refine .pure (hone hr (Range.isEmpty_resize r u) ?_)
      simp [Value.supports, Ty.isInt, hv, hw]
    · refine .pure ?_
      rintro q ⟨⟩
  | inttoptr =>
    refine .pure ?_
    rintro q ⟨⟩

/-- The range of a phi has members only if one of its values is known. -/
theorem phiRange_finds (hf : f ∈ e.defined) (loops : OrderedSet Edge) (entries : List PhiEntry) :
    e.Finds (phiRange e f loops l r entries) fun q ↦ q.isEmpty = false →
      r.isEmpty = false ∨ ∃ entry ∈ entries, e.Grounds f entry.value := by
  induction entries generalizing r with
  | nil => exact .pure .inl
  | cons entry entries ih =>
    refine .bind (ofExcept_finds _) fun source _ ↦ ?_
    split
    · refine ih.mono fun q hq hempty ↦ (hq hempty).imp_right ?_
      rintro ⟨entry', hmem, hknown⟩
      exact ⟨entry', List.mem_cons_of_mem entry hmem, hknown⟩
    · refine .bind (rangeOf_finds hf entry.value) fun q hq ↦ ?_
      refine .bind (conformed_finds r q) ?_
      rintro _ rfl
      refine ih.mono fun q' hq' hempty ↦ ?_
      rw [Range.isEmpty_union (Range.width_conform r q).symm, Range.isEmpty_conform,
        Bool.and_eq_false_iff] at hq'
      rcases hq' hempty with (hr | hq'') | ⟨entry', hmem, hknown⟩
      · exact .inl hr
      · exact .inr ⟨entry, List.mem_cons_self, hq hq''⟩
      · exact .inr ⟨entry', List.mem_cons_of_mem entry hmem, hknown⟩

/-- A value other than a load has a range with members only if its operands are known. -/
theorem valueRange_supported (hf : f ∈ e.defined) (loops : OrderedSet Edge) (x : String) {v : Value}
    (hload : ∀ t a, v ≠ .load t a) : e.Finds (valueRange e f loops l x v) fun r ↦
      ∀ q, r = some q → q.isEmpty = false → e.Supported f v := by
  cases v with
  | binary op t a b =>
    refine .bind (rangeOf_finds hf a) fun r hr ↦ .bind (rangeOf_finds hf b) fun q hq ↦ ?_
    refine .bind (conformed_finds r q) ?_
    rintro _ rfl
    refine .pure ?_
    rintro _ ⟨⟩ hempty
    refine ⟨op.reads a b, List.mem_cons_self, ?_⟩
    refine BinaryOp.forall_reads (P := fun r : Range ↦ r.isEmpty = false) (Q := e.Grounds f) hr
      (fun h ↦ hq ?_) (BinaryOp.isEmpty_of_range hempty)
    rwa [Range.isEmpty_conform] at h
  | compare op t a b =>
    exact .pure fun q _ _ ↦ ⟨[], List.mem_cons_self, fun _ ho ↦ absurd ho List.not_mem_nil⟩
  | cast op source o target => exact castRange_finds hf op source target o
  | select t cond a b =>
    simp only [valueRange]
    split
    · rename_i hint
      refine .bind (rangeOf_finds hf a) fun r hr ↦ .bind (rangeOf_finds hf b) fun q hq ↦ ?_
      refine .bind (conformed_finds r q) ?_
      rintro _ rfl
      refine .pure ?_
      rintro _ ⟨⟩ hempty
      rw [Range.isEmpty_union (Range.width_conform r q).symm, Range.isEmpty_conform,
        Bool.and_eq_false_iff] at hempty
      rcases hempty with hempty | hempty
      · exact ⟨[a], by simp [Value.supports, hint], List.forall_mem_singleton.2 (hr hempty)⟩
      · exact ⟨[b], by simp [Value.supports, hint], List.forall_mem_singleton.2 (hq hempty)⟩
    · refine .pure ?_
      rintro q ⟨⟩
  | phi t entries =>
    simp only [valueRange]
    split
    · rename_i w hw
      refine .bind (counted_finds w) fun u _ ↦ .bind (phiRange_finds hf loops entries) fun r hr ↦ ?_
      refine .pure ?_
      rintro _ ⟨⟩ hempty
      obtain hu | ⟨entry, hmem, hknown⟩ := hr hempty
      · simp at hu
      · refine ⟨[entry.value], ?_, List.forall_mem_singleton.2 hknown⟩
        simp only [Value.supports, Ty.isInt, hw, Option.isSome_some, if_true]
        exact List.mem_map.2 ⟨entry, hmem, rfl⟩
    · refine .pure ?_
      rintro q ⟨⟩
  | load t a => exact absurd rfl (hload t a)
  | alloca | field | elem | call =>
    refine .pure ?_
    rintro q ⟨⟩

/-- A value that has a range with members makes its variable known. -/
theorem valueRange_finds (hf : f ∈ e.defined) {i : Instr} (hi : i ∈ f.instrs) {x : String}
    {v : Value} (ha : i.action = .assign x v) (loops : OrderedSet Edge) :
    e.Finds (valueRange e f loops l x v) fun r ↦
      ∀ q, r = some q → q.isEmpty = false → Known e (.var f.name x) := by
  by_cases hload : ∃ t a, v = .load t a
  · obtain ⟨t, a, rfl⟩ := hload
    simp only [valueRange]
    split
    · refine .bind (rangeOf_finds hf (.var x t)) fun r hr ↦ .pure ?_
      rintro _ ⟨⟩ hempty
      exact hr hempty _ (List.mem_singleton_self _)
    · refine .pure ?_
      rintro q ⟨⟩
  · push Not at hload
    refine (valueRange_supported hf loops x hload).mono fun r hr q hq hempty ↦ ?_
    obtain ⟨os, hos, hknown⟩ := hr q hq hempty
    refine .intro (.value hf hi ha hos) fun t ht ↦ ?_
    obtain ⟨o, ho, ht⟩ := List.mem_flatMap.1 ht
    exact hknown o ho t ht

/-! ## Instructions -/

section Instr

variable (hf : f ∈ e.defined) {i : Instr} (hi : i ∈ f.instrs)
include hf hi

theorem visitStore_finds {t : Ty} {value address : Operand}
    (ha : i.action = .store t value address) :
    e.Finds (visitStore e f l i value address) fun _ ↦ True := by
  cases hint : value.ty.isInt with
  | false =>
    simp only [visitStore, hint, Bool.not_false, if_true]
    exact .pure ⟨⟩
  | true =>
    simp only [visitStore, hint, Bool.not_true, Bool.false_eq_true, if_false]
    refine .bind (rangeOf_finds hf value) fun r hr ↦ ?_
    have hend : e.Finds (offerStored e f i address r) fun _ ↦ True := by
      refine .bind (ofExcept_finds _) fun l hl ↦ ?_
      split
      · exact offer_finds fun h ↦ .intro (.stored hf hi ha hint hl) (hr h)
      · exact .pure ⟨⟩
    split
    · rename_i k hk
      refine .bind (joinFact_finds fun x hx h ↦ ?_) fun _ _ ↦ hend
      cases address with
      | var y u =>
        obtain rfl : y = x := Subject.var.inj ((Option.some.inj hk).trans hx)
        exact .intro (.pointed hf hi ha hint) (hr h)
      | symbol | literal =>
        subst hx
        cases hk
    · exact hend

theorem visitReturn_finds {t : Ty} {value : Operand} (ha : i.action = .finish (.ret t value)) :
    e.Finds (visitReturn e f l i t value) fun _ ↦ True := by
  cases hint : t.isInt with
  | false =>
    simp only [visitReturn, hint, Bool.not_false, if_true]
    exact .pure ⟨⟩
  | true =>
    simp only [visitReturn, hint, Bool.not_true, Bool.false_eq_true, if_false]
    refine .bind (rangeOf_finds hf value) fun r hr ↦ ?_
    exact offer_finds fun h ↦ .intro (.returned hf hi ha hint) (hr h)

/-- The result of an instruction is known if its range has members. -/
theorem perform_of_value_finds {x : String} {v : Value} (ha : i.action = .assign x v)
    (loops : OrderedSet Edge) : e.Finds (do
      match ← valueRange e f loops l x v with
      | some r => let _ ← joinFact f l (.var x) r
      | none => pure ()
      return false) fun _ ↦ True := by
  refine .bind (valueRange_finds hf hi ha loops) fun r hr ↦ ?_
  split
  · rename_i q
    refine .bind (joinFact_finds fun y hy h ↦ ?_) fun _ _ ↦ .pure ⟨⟩
    obtain rfl := Subject.var.inj hy
    exact hr q rfl h
  · exact .pure ⟨⟩

end Instr

section Call

variable (hf : f ∈ e.defined) {site : Site} {i : Instr} (hsite : (site, i) ∈ f.sites)
include hf hsite

theorem offerArgs_finds {c : Call} (hc : i.call? = some c) {callee : String}
    (hcallee : callee ∈ e.resolver.callees site c) :
    e.Finds (offerArgs e f l i c callee) fun _ ↦ True := by
  unfold offerArgs
  split
  · exact .pure ⟨⟩
  · rename_i g hg
    split
    · exact .pure ⟨⟩
    · rename_i hflags
      refine (Settles.anyOf (P := fun _ ↦ True) ?_).mono fun _ _ ↦ ⟨⟩
      rintro ⟨arg, index⟩ harg
      cases hint : arg.ty.isInt with
      | false =>
        simp only [offerArg, hint, Bool.not_false, if_true]
        exact .pure ⟨⟩
      | true =>
        simp only [offerArg, hint, Bool.not_true, Bool.false_eq_true, if_false]
        refine .bind (rangeOf_finds hf arg) fun r hr ↦ ?_
        refine offer_finds fun h ↦ .intro ?_ (hr h)
        exact .passed hf hsite hc hcallee hg (Bool.eq_false_iff.2 hflags) harg hint

/-- A call makes its result known, and the parameters of what it calls. -/
theorem visitCall_finds {c : Call} (hc : i.call? = some c) :
    e.Finds (visitCall e f l site i c) fun _ ↦ True := by
  unfold visitCall
  dsimp only
  split
  · exact .pure ⟨⟩
  · rename_i hne
    have hargs : e.Finds (anyOf (offerArgs e f l i c) (e.resolver.callees site c).toList)
        fun _ ↦ True :=
      (Settles.anyOf (P := fun _ ↦ True) fun _ h ↦ offerArgs_finds hf hsite hc h).mono
        fun _ _ ↦ ⟨⟩
    refine .bind hargs fun _ _ ↦ ?_
    split
    · rename_i x hx
      have ha := i.action_of_call? hc hx
      refine .bind (Q := fun _ ↦ True) ?_ fun _ _ ↦ .pure ⟨⟩
      cases hint : c.returns.isInt with
      | false =>
        simp only [offerResult, hint, Bool.not_false, if_true]
        exact .pure ⟨⟩
      | true =>
        simp only [offerResult, hint, Bool.not_true, Bool.false_eq_true, if_false]
        refine .bind (rangeOf_finds hf (.var x c.returns)) fun r hr ↦ ?_
        have hx (h : r.isEmpty = false) : Known e (.var f.name x) :=
          hr h _ (List.mem_singleton_self _)
        refine .bind (joinFact_finds fun y hy h ↦ ?_) fun _ _ ↦ offer_finds fun h ↦ ?_
        · obtain rfl := Subject.var.inj hy
          exact hx h
        · obtain ⟨callee, hcallee⟩ := List.exists_mem_of_ne_nil _ (by simpa using hne)
          refine .intro (.answered hf hsite ha hint hcallee) ?_
          exact List.forall_mem_singleton.2 (hx h)
    · exact .pure ⟨⟩

end Call

/-- An instruction adds only what is known. -/
theorem visit_finds (hf : f ∈ e.defined) {b : Block} (hb : b ∈ f.blocks) {p : Site × Instr}
    (hp : p ∈ b.sites f.name) (loops : OrderedSet Edge) :
    e.Finds (visit e f loops l p) fun _ ↦ True := by
  obtain ⟨site, i⟩ := p
  have hi := mem_instrs_of_mem_sites hb hp
  have hsite : (site, i) ∈ f.sites := List.mem_flatMap.2 ⟨b, hb, hp⟩
  unfold visit
  dsimp only
  split
  · exact .bind (Q := fun _ ↦ False) (.throw id) fun _ h ↦ h.elim
  · unfold perform
    split
    · rename_i x c ha
      exact visitCall_finds hf hsite (by simp [Instr.call?, ha])
    · rename_i c ha
      exact visitCall_finds hf hsite (by simp [Instr.call?, ha])
    · rename_i ha
      exact perform_of_value_finds hf hi ha loops
    · rename_i ha
      exact visitStore_finds hf hi ha
    · rename_i ha
      exact visitReturn_finds hf hi ha
    · exact .pure ⟨⟩

/-! ## Edges -/

/-- The facts with members are about known variables. -/
def Env.Tells (e : Env) (f : Function) (m : Facts) : Prop :=
  ∀ x r, m.get? (.var x) = some r → r.isEmpty = false → Known e (.var f.name x)

theorem tells_insert {m : Facts} (hm : e.Tells f m) {x : String}
    (hx : r.isEmpty = false → Known e (.var f.name x)) : e.Tells f (m.insert (.var x) r) := by
  intro y q hq hempty
  rw [OrderedMap.get?_insert] at hq
  split at hq
  · rename_i hy
    cases hy
    cases hq
    exact hx hempty
  · exact hm y q hq hempty

theorem tells_empty : e.Tells f ∅ := by
  intro x r hr
  cases hr

/-- A comparison narrows what is known of its operands. -/
theorem tells_refine (op : Comparison) {a b : Operand} {lhs rhs : Range}
    (ha : lhs.isEmpty = false → e.Grounds f a) (hb : rhs.isEmpty = false → e.Grounds f b) :
    e.Tells f (op.refine a b lhs rhs) := by
  have hright {m : Facts} (hm : e.Tells f m) {y : String} {w : Width} (hy : b = .var y (.int w)) :
      e.Tells f (m.insert (.var y) ((rhs.intersect (op.swap.allowed lhs)).resize w)) := by
    subst hy
    refine tells_insert hm fun h ↦ ?_
    rw [Range.isEmpty_resize] at h
    exact hb (Range.isEmpty_of_intersect h) _ (List.mem_singleton_self _)
  unfold Comparison.refine
  cases a with
  | var x t =>
    have hleft : e.Tells f (.ofList [(.var x, lhs.intersect (op.allowed rhs))]) := by
      refine tells_insert tells_empty fun h ↦ ?_
      exact ha (Range.isEmpty_of_intersect h) _ (List.mem_singleton_self _)
    dsimp only
    split
    · exact hright hleft rfl
    · exact hleft
  | symbol | literal =>
    dsimp only
    split
    · exact hright tells_empty rfl
    · exact tells_empty

/-- An operation on ranges of one width that does not fail is the plain operation. -/
theorem eq_of_paired {α : Type} {op : Range → Range → α} {a b : Range} {c : α}
    (h : Fault.ofRange (Range.paired op a b) = .ok c) : c = op a b := by
  unfold Range.paired at h
  split at h
  · exact (Except.ok.inj h).symm
  · cases h

/-- An edge tells only of variables that the branch tests, which are known. -/
theorem edgeFacts_finds (hf : f ∈ e.defined) (b : Block) (target : String) :
    e.Finds (edgeFacts e f b target) (e.Tells f) := by
  cases edgeCase e f b target with
  | silent heq =>
    rw [heq]
    exact .pure tells_empty
  | branch _ _ _ _ heq =>
    rw [heq]
    refine .bind (rangeOf_finds hf _) fun r hr ↦ .bind (rangeOf_finds hf _) fun q hq ↦ ?_
    refine .bind (conformed_finds r q) ?_
    rintro _ rfl
    exact .pure (tells_refine _ hr fun h ↦ hq (by rwa [Range.isEmpty_conform] at h))
  | switch _ heq =>
    rw [heq]
    refine .bind (counted_finds _) fun u _ ↦ .bind (rangeOf_finds hf _) fun r hr ↦ ?_
    refine .bind (ofExcept_finds _) fun q hq ↦ .pure (tells_insert tells_empty fun h ↦ ?_)
    refine hr ?_ _ (List.mem_singleton_self _)
    rw [eq_of_paired hq] at h
    exact Range.isEmpty_of_intersect h

/-- What comes from other blocks is known, as it was known there. -/
theorem mergePredecessors_finds (hf : f ∈ e.defined) (g : Flow) (loops : OrderedSet Edge) :
    e.Finds (mergePredecessors e f g loops l) fun _ ↦ True := by
  refine (Settles.forM (P := fun _ ↦ True) fun source _ ↦ ?_).mono fun _ _ ↦ ⟨⟩
  split
  · exact .pure ⟨⟩
  · split
    · rename_i b hb
      refine .bind (edgeFacts_finds hf b l) fun refined hrefined ↦ ?_
      refine ⟨fun {s t a} hs hrun ↦ ?_, False.elim⟩
      obtain ⟨_, _, hget, hrun⟩ := run_bind_eq_ok.1 hrun
      obtain ⟨rfl, rfl⟩ := run_get_eq_ok.1 hget
      refine (joinFacts_finds fun x r hr hempty ↦ ?_).keeps hs hrun
      rcases OrderedMap.get?_insertAll_cases hr with hr | hr
      · exact hs.facts _ _ _ _ hr
      · exact hrefined x r (OrderedMap.get?_eq_some_iff.2 hr) hempty
    · exact .pure ⟨⟩

end Operations

/-! ## Runs -/

theorem sweepFunction_finds (hf : f ∈ e.defined) :
    e.Finds (sweepFunction e f) fun _ ↦ True := by
  refine .bind (ofExcept_finds _) fun loops _ ↦ .bind (ofExcept_finds _) fun g _ ↦ ?_
  have hbegin : e.Finds (modify (beginFunction f)) fun _ ↦ True := by
    refine ⟨fun {s t a} hs hrun ↦ ?_, False.elim⟩
    obtain rfl := run_modify_eq_ok.1 hrun
    refine ⟨⟨hs.ids, fun k l x r hr ↦ ?_⟩, ⟨⟩⟩
    by_cases hk : k = f.name
    · rw [hk, blockFacts_beginFunction] at hr
      cases hr
    · refine hs.facts k l x r ?_
      unfold State.blockFacts beginFunction at hr
      rwa [OrderedMap.get?_insert_of_ne _ _ hk] at hr
  refine .bind hbegin fun _ _ ↦ ?_
  refine (Settles.anyOf (P := fun _ ↦ True) fun b hb ↦ ?_).mono fun _ _ ↦ ⟨⟩
  refine .bind (mergePredecessors_finds hf g loops) fun _ _ ↦ ?_
  exact (Settles.anyOf (P := fun _ ↦ True) fun p hp ↦ visit_finds hf hb hp loops).mono
    fun _ _ ↦ ⟨⟩

/-- A round comes to know only what the rules derive. -/
theorem round_finds (e : Env) : e.Finds (round e) fun _ ↦ True := by
  have hbegin : e.Finds (modify (beginRound e)) fun _ ↦ True := by
    refine ⟨fun {s t a} hs hrun ↦ ?_, False.elim⟩
    obtain rfl := run_modify_eq_ok.1 hrun
    refine ⟨⟨fun id r hr ↦ ?_, hs.facts⟩, ⟨⟩⟩
    have hid : id ∈ s.table.ids := by
      rw [← ids_beginRound e s]
      exact RangeTable.mem_ids_iff.2 ⟨r, hr⟩
    obtain ⟨q, hq⟩ := RangeTable.mem_ids_iff.1 hid
    exact hs.ids id q hq
  refine .bind hbegin fun _ _ ↦ ?_
  exact (Settles.anyOf (P := fun _ ↦ True) fun f hf ↦ sweepFunction_finds hf).mono fun _ _ ↦ ⟨⟩

/-- The ids with which a run starts are known. -/
theorem seed_finds (e : Env) : e.Finds (seed e) fun _ ↦ True := by
  refine (Settles.forM (P := fun _ ↦ True) fun x hx ↦ ?_).mono fun _ _ ↦ ⟨⟩
  refine .bind (ofExcept_finds _) fun leaf hleaf ↦ .bind (offer_finds fun h ↦ ?_) fun _ _ ↦ .pure ⟨⟩
  exact .intro (.seeded (hleaf ▸ hx) h) fun _ ht ↦ absurd ht List.not_mem_nil

/-- A run finds nothing but what is known. -/
theorem known_of_run {mode : WarningMode} {h : History}
    (hrun : (run e).run (.start e.settings mode) = .ok h s) {id : String}
    (hid : id ∈ s.table.ids) : Known e (.id id) := by
  obtain ⟨s₀, hseed, -, hrounds⟩ := run_eq_ok.1 hrun
  obtain ⟨last, hlast, hround⟩ := exists_last_of_rounds hrounds
  have hstart : e.Explained (.start e.settings mode) :=
    ⟨fun _ _ hr ↦ (nomatch hr), fun _ _ _ _ hr ↦ (nomatch hr)⟩
  have hreached : e.Explained last := by
    clear hround
    induction hlast with
    | refl => exact ((seed_finds e).keeps hstart hseed).1
    | tail _ hstep ih => exact ((round_finds e).keeps ih hstep).1
  obtain ⟨r, hr⟩ := RangeTable.mem_ids_iff.1 hid
  exact ((round_finds e).keeps hreached hround).1.ids id r hr

end Sweep

end RangeFlow
