import Mathlib.Data.List.Nodup
import RangeFlow.Proofs.Check.Typing
import RangeFlow.Proofs.Flow.Forward
import RangeFlow.Proofs.Machine
import RangeFlow.Proofs.Sweep.Composed

/-!
# Integer code without loops

Functions whose blocks are laid out so that control only moves forward, and whose instructions
compute integers.  A run of such a function comes to each block at most once, so that a variable
keeps the word it was assigned: a comparison that was made still tells how its operands stand
(`Follows`).
-/

namespace RangeFlow

/-! ## Plain instructions -/

/-- Integers of no more bits. -/
def Ty.isNoWider : Ty → Ty → Bool
  | .int v, .int w => v.bits ≤ w.bits
  | _, _ => false

theorem Ty.exists_of_isNoWider {t u : Ty} (h : t.isNoWider u = true) :
    ∃ v w, t = .int v ∧ u = .int w := by
  unfold isNoWider at h
  split at h
  · exact ⟨_, _, rfl, rfl⟩
  · cases h

/-- Values computed from integers, with operands of the types they are written at. -/
def Value.isPlain : Value → Bool
  | .binary _ t a b | .compare _ t a b => t.isInt && a.ty = t && b.ty = t
  | .cast .trunc source o target => o.ty = source && target.isNoWider source
  | .cast .zext source o target | .cast .sext source o target =>
    o.ty = source && source.isNoWider target
  | .select t c a b => t.isInt && c.ty = .i1 && a.ty = t && b.ty = t
  | .phi t entries => t.isInt && entries.all fun entry ↦ entry.value.ty = t
  | _ => false

def Terminator.isPlain : Terminator → Bool
  | .jmp _ | .retVoid => true
  | .jnz c ifTrue ifFalse => c.ty = .i1 && ifTrue ≠ ifFalse
  | .switch t c _ _ => t.isInt && c.ty = t
  | .ret t o => t.isInt && o.ty = t
  | .unreachable => false

def Instr.isPlain (i : Instr) : Bool :=
  match i.action with
  | .assign _ v => v.isPlain
  | .finish t => t.isPlain
  | .store _ _ _ | .call _ => false

/-- Integer code in which control only moves forward. -/
structure Function.IsLoopFree (f : Function) : Prop where
  labels : f.labels.Nodup
  forward : f.IsForward
  plain : ∀ i ∈ f.instrs, i.isPlain = true

/-- Integer code without loops in an accepted program: its variables have types, and no terminator
stands before the end of a block. -/
structure Orderly (f : Function) (types : OrderedMap String Ty) : Prop
    extends Typing f types, f.IsLoopFree where
  ends : ∀ b ∈ f.blocks, ∀ i ∈ b.instrs.dropLast, i.isTerminator = false

/-- Integer code without loops is orderly in an accepted program. -/
theorem orderly_of_isSound {p : Program} {f : Function} {g : Flow} (h : p.isSound = true)
    (hf : f ∈ p.functions) (hg : f.flow = .ok g) (hfree : f.IsLoopFree) :
    Orderly f (Function.firstTypes f.paramTypes f.instrs).1 :=
  { typing_of_isSound h hf hg, hfree with
    ends := fun _ hb _ hi ↦ not_isTerminator_of_isSound h hf hb hi }

/-- An element of a list is known by what it gives, if that occurs once. -/
theorem eq_of_filterMap_nodup {α β : Type} {g : α → Option β} {xs : List α} {x y : α} {b : β}
    (h : (xs.filterMap g).Nodup) (hx : x ∈ xs) (hy : y ∈ xs) (hgx : g x = some b)
    (hgy : g y = some b) : x = y := by
  induction xs with
  | nil => cases hx
  | cons z xs ih =>
    cases hz : g z with
    | none =>
      rw [List.filterMap_cons_none hz] at h
      rcases List.mem_cons.1 hx with rfl | hx'
      · simp [hz] at hgx
      · rcases List.mem_cons.1 hy with rfl | hy'
        · simp [hz] at hgy
        · exact ih h hx' hy'
    | some c =>
      rw [List.filterMap_cons_some hz, List.nodup_cons] at h
      rcases List.mem_cons.1 hx with rfl | hx' <;> rcases List.mem_cons.1 hy with rfl | hy'
      · rfl
      · rw [hz] at hgx
        cases hgx
        exact absurd (List.mem_filterMap.2 ⟨y, hy', hgy⟩) h.1
      · rw [hz] at hgy
        cases hgy
        exact absurd (List.mem_filterMap.2 ⟨x, hx', hgx⟩) h.1
      · exact ih h.2 hx' hy'

/-- The definition of a variable is its only assignment. -/
theorem Typing.definition?_eq {f : Function} {types : OrderedMap String Ty} (h : Typing f types)
    {i : Instr} (hi : i ∈ f.instrs) {x : String} {v u : Value} (ha : i.action = .assign x v)
    (hu : f.definition? x = some u) : u = v := by
  obtain ⟨j, hj, hja⟩ := Sweep.mem_instrs_of_definition? hu
  obtain rfl : i = j := eq_of_filterMap_nodup (b := x) h.once hi hj (by simp [Instr.result?, ha])
    (by simp [Instr.result?, hja])
  rw [ha] at hja
  cases hja
  rfl

/-- A variable has the definition that an instruction gives it. -/
theorem Typing.definition?_of_assign {f : Function} {types : OrderedMap String Ty}
    (h : Typing f types) {i : Instr} (hi : i ∈ f.instrs) {x : String} {v : Value}
    (ha : i.action = .assign x v) : f.definition? x = some v := by
  obtain ⟨b, hb, hib⟩ := List.mem_flatMap.1 hi
  have hlabelled : (b.label, i) ∈ f.labelled :=
    List.mem_flatMap.2 ⟨b, hb, List.mem_map.2 ⟨i, hib, rfl⟩⟩
  have hres : i.result? = some x := by simp [Instr.result?, ha]
  have hmem : (b.label, i) ∈ f.labelled.filter fun e ↦ decide (e.2.result? = some x) :=
    List.mem_filter.2 ⟨hlabelled, decide_eq_true hres⟩
  obtain ⟨⟨l, j⟩, hlast⟩ := Option.ne_none_iff_exists'.1
    (mt List.getLast?_eq_none_iff.1 (List.ne_nil_of_mem hmem))
  have hjx : j.result? = some x :=
    of_decide_eq_true (List.mem_filter.1 (List.mem_of_getLast? hlast)).2
  cases hja : j.action with
  | assign y u =>
    obtain rfl : y = x := by simpa [Instr.result?, hja] using hjx
    have hdef : f.definition? y = some u := by
      unfold Function.definition? Function.producer?
      rw [hlast, Option.bind_some]
      simp [Instr.value?, hja]
    rw [hdef, h.definition?_eq hi ha hdef]
  | store | call | finish => simp [Instr.result?, hja] at hjx

/-! ## Runs -/

section Runs

variable {f : Function} {types : OrderedMap String Ty} {args : Nat → Option Word}
variable {a : Arrival} {ρ ρ' : Values} {i : Instr} {x : String} {v : Value} {y : Word}
variable {before is after : List Instr}

/-- What the variables hold after some instructions of a function: none of the others is assigned,
and a variable that is defined as a comparison holds how its operands compare. -/
structure Follows (f : Function) (before : List Instr) (ρ : Values) : Prop where
  bound : ∀ x v, ρ x = some v → x ∈ f.paramNames ∨ x ∈ before.filterMap Instr.result?
  compared : ∀ x c t lhs rhs, f.definition? x = some (.compare c t lhs rhs) → ∀ v, ρ x = some v →
    ∀ a, (Value.compare c t lhs rhs).eval? a ρ = some v

/-- What could be read before an assignment to a new variable reads the same after it. -/
theorem Operand.read?_set (h : ρ x = none) {o : Operand} {u : Word} (ho : o.read? ρ = some u) :
    o.read? (ρ.set x y) = some u := by
  cases o with
  | literal n w => exact ho
  | symbol name => cases ho
  | var z t =>
    have hz : z ≠ x := by
      rintro rfl
      rw [Operand.read?_var ho] at h
      cases h
    cases t with
    | int w => simpa [Operand.read?, Values.set, hz] using ho
    | ptr | void | array | named | literal => cases ho

/-- A comparison gives one or zero if both operands can be read at one width. -/
theorem eval?_compare_eq_some {c : Comparison} {t : Ty} {lhs rhs : Operand} {u : Word} :
    (Value.compare c t lhs rhs).eval? a ρ = some u ↔ ∃ y z, lhs.read? ρ = some y ∧
      rhs.read? ρ = some z ∧ y.width = z.width ∧
      u = .ofInt .one (if c.holds y.width.bits y.val z.val then 1 else 0) := by
  simp only [Value.eval?, Option.bind_eq_bind, Option.bind_eq_some_iff]
  constructor
  · rintro ⟨y, hy, z, hz, h⟩
    split at h
    · rename_i hw
      exact ⟨y, z, hy, hz, hw, (Option.some.inj h).symm⟩
    · cases h
  · rintro ⟨y, z, hy, hz, hw, rfl⟩
    exact ⟨y, hy, z, hz, by rw [if_pos hw]; rfl⟩

namespace Follows

/-- Before the first instruction only parameters hold words. -/
theorem start (h : Typing f types) : Follows f [] (.ofArgs f args) := by
  have hparam : ∀ x v, Values.ofArgs f args x = some v → x ∈ f.paramNames := by
    intro x v hv
    obtain ⟨n, hn, -⟩ := Option.bind_eq_some_iff.1 hv
    obtain ⟨hlt, hname, -⟩ := List.findIdx?_eq_some_iff_getElem.1 hn
    exact List.mem_map.2 ⟨_, List.getElem_mem hlt, by simpa using hname⟩
  refine ⟨fun x v hv ↦ .inl (hparam x v hv), fun x c t lhs rhs hdef v hv ↦ ?_⟩
  obtain ⟨i, hi, ha⟩ := Sweep.mem_instrs_of_definition? hdef
  exact absurd (hparam x v hv) (h.fresh i hi x (by simp [Instr.result?, ha]))

/-- More instructions may have assigned what the variables hold. -/
theorem mono (h : Follows f before ρ)
    (hsub : ∀ x ∈ before.filterMap Instr.result?, x ∈ after.filterMap Instr.result?) :
    Follows f after ρ :=
  ⟨fun x v hv ↦ (h.bound x v hv).imp_right (hsub x), h.compared⟩

/-- A variable that is about to be assigned holds nothing yet. -/
theorem eq_none (h : Follows f before ρ) (ht : Typing f types)
    (heq : f.instrs = before ++ i :: after) (hx : i.result? = some x) : ρ x = none := by
  cases hv : ρ x with
  | none => rfl
  | some v =>
    have hi : i ∈ f.instrs := by simp [heq]
    have hnodup := ht.once
    rw [heq, List.filterMap_append, List.filterMap_cons_some hx, List.nodup_append] at hnodup
    rcases h.bound x v hv with hmem | hmem
    · exact absurd hmem (ht.fresh i hi x hx)
    · exact absurd rfl (hnodup.2.2 x hmem x List.mem_cons_self)

/-- An assignment keeps what is said of the variables. -/
theorem set (h : Follows f before ρ) (ht : Typing f types)
    (heq : f.instrs = before ++ i :: after) (ha : i.action = .assign x v)
    (hy : v.eval? a ρ = some y) : Follows f (before ++ [i]) (ρ.set x y) := by
  have hx : i.result? = some x := by simp [Instr.result?, ha]
  have hnone := h.eq_none ht heq hx
  have hi : i ∈ f.instrs := by simp [heq]
  have hcompare : ∀ c t lhs rhs u, (Value.compare c t lhs rhs).eval? a ρ = some u →
      ∀ a', (Value.compare c t lhs rhs).eval? a' (ρ.set x y) = some u := by
    intro c t lhs rhs u hu a'
    obtain ⟨p, q, hp, hq, hw, hval⟩ := eval?_compare_eq_some.1 hu
    exact eval?_compare_eq_some.2
      ⟨p, q, Operand.read?_set hnone hp, Operand.read?_set hnone hq, hw, hval⟩
  refine ⟨fun z u hz ↦ ?_, fun z c t lhs rhs hdef u hz ↦ ?_⟩
  · simp only [List.filterMap_append, List.mem_append]
    unfold Values.set at hz
    split at hz
    · rename_i hzx
      exact .inr (.inr (by simp [hzx, hx]))
    · exact (h.bound z u hz).imp_right .inl
  · unfold Values.set at hz
    split at hz
    · rename_i hzx
      subst hzx
      cases hz
      rw [← ht.definition?_eq hi ha hdef] at hy
      exact hcompare c t lhs rhs y hy
    · exact hcompare c t lhs rhs u (h.compared z c t lhs rhs hdef u hz a)

/-- The instructions of a block keep what is said of the variables. -/
theorem execute (h : Follows f before ρ) (ht : Typing f types)
    (heq : f.instrs = before ++ is ++ after) {e : Exit}
    (hrun : execute a ρ is = some (ρ', e)) : Follows f (before ++ is) ρ' := by
  induction is generalizing before ρ with
  | nil => cases hrun
  | cons i is ih =>
    unfold RangeFlow.execute at hrun
    split at hrun
    · rename_i x v ha
      obtain ⟨y, hy, hrest⟩ := Option.bind_eq_some_iff.1 hrun
      have heq' : f.instrs = before ++ i :: (is ++ after) := by simpa using heq
      have hset := h.set ht heq' ha hy
      have := ih hset (by simpa using heq) hrest
      simpa using this
    · obtain ⟨e', -, hret⟩ := Option.bind_eq_some_iff.1 hrun
      cases hret
      exact h.mono fun x hx ↦ by
        rw [List.filterMap_append, List.mem_append]
        exact .inl hx
    · cases hrun
    · cases hrun

end Follows

/-- A block is left through its terminator. -/
theorem exists_terminator_of_execute {b : Block} {e : Exit}
    (hends : ∀ i ∈ b.instrs.dropLast, i.isTerminator = false)
    (h : execute a ρ b.instrs = some (ρ', e)) :
    ∃ t, b.terminator? = some t ∧ t.eval? ρ' = some e := by
  unfold Block.terminator?
  generalize b.instrs = is at h hends
  induction is generalizing ρ with
  | nil => cases h
  | cons i is ih =>
    unfold execute at h
    split at h
    · obtain ⟨y, -, hrest⟩ := Option.bind_eq_some_iff.1 h
      cases is with
      | nil => cases hrest
      | cons j is =>
        rw [List.getLast?_cons_cons]
        exact ih hrest fun k hk ↦ hends k (by simp [hk])
    · rename_i t ha
      obtain ⟨e', he, hret⟩ := Option.bind_eq_some_iff.1 h
      cases hret
      cases is with
      | nil => exact ⟨t, by simp [Instr.terminator?, ha], he⟩
      | cons j is =>
        have := hends i (by simp)
        simp [Instr.isTerminator, Instr.terminator?, ha] at this
    · cases h
    · cases h

/-- Control goes to a block that the terminator names. -/
theorem mem_labels_of_eval? {t : Terminator} {l : String} (h : t.eval? ρ = some (.goto l)) :
    l ∈ t.labels := by
  cases t with
  | jmp l' =>
    cases h
    exact List.mem_singleton_self l
  | jnz c ifTrue ifFalse =>
    obtain ⟨v, -, hv⟩ := Option.bind_eq_some_iff.1 h
    cases hv
    split <;> simp [Terminator.labels]
  | switch ty c default cases =>
    obtain ⟨v, -, hv⟩ := Option.bind_eq_some_iff.1 h
    cases hv
    unfold switchTarget
    cases hfind : cases.find? fun k ↦ v.width.wrap k.value == v.val with
    | none => simp [Terminator.labels]
    | some k =>
      have hk := List.mem_of_find?_eq_some hfind
      simp only [Terminator.labels, Option.map_some, Option.getD_some]
      exact List.mem_cons_of_mem default (List.mem_map_of_mem hk)
  | ret ty o =>
    obtain ⟨v, -, hv⟩ := Option.bind_eq_some_iff.1 h
    cases hv
  | retVoid => cases h
  | unreachable => cases h

/-- A run comes to blocks of the function only. -/
theorem Arrives.mem {b : Block} (h : Arrives f args b a) : b ∈ f.blocks := by
  cases h with
  | start h => exact List.mem_of_head? h
  | step _ _ h => exact (Function.mem_of_block? h).1

/-- Blocks are known by their labels. -/
theorem Function.IsLoopFree.eq_of_label (h : f.IsLoopFree) {b c : Block} (hb : b ∈ f.blocks)
    (hc : c ∈ f.blocks) (hl : b.label = c.label) : b = c :=
  List.inj_on_of_nodup_map h.labels hb hc hl

/-- Control comes to a block from outside, or from a block laid out before it. -/
theorem Arrives.cases_before {earlier later : List Block} {b : Block} (ho : Orderly f types)
    (h : Arrives f args b a) (heq : f.blocks = earlier ++ b :: later) :
    (earlier = [] ∧ a = ⟨none, .ofArgs f args⟩) ∨
      ∃ c ∈ earlier, ∃ a' ρ, Arrives f args c a' ∧ a = ⟨some c.label, ρ⟩ ∧
        execute a' a'.values c.instrs = some (ρ, .goto b.label) := by
  cases h with
  | start hentry =>
    cases earlier with
    | nil => exact .inl ⟨rfl, rfl⟩
    | cons c earlier =>
      -- The first block would be laid out twice.
      have hlabels := ho.labels
      simp only [Function.entry?, heq, List.cons_append, List.head?_cons,
        Option.some.injEq] at hentry
      simp [Function.labels, heq, hentry] at hlabels
  | @step c _ a' ρ l hc hrun hblock =>
    obtain ⟨hb, rfl⟩ := Function.mem_of_block? hblock
    refine .inr ⟨c, ?_, a', ρ, hc, rfl, hrun⟩
    obtain ⟨t, ht, hgoto⟩ := exists_terminator_of_execute (ho.ends c hc.mem) hrun
    have htarget : b.label ∈ c.targets := Block.mem_targets.2 ⟨t, ht, mem_labels_of_eval? hgoto⟩
    have hmem := hc.mem
    rw [heq] at hmem
    rcases List.mem_append.1 hmem with hmem | hmem
    · exact hmem
    · exfalso
      rcases List.mem_cons.1 hmem with rfl | hmem
      · exact ho.forward.notMem_targets heq (by simp) htarget
      · obtain ⟨mid, rest, rfl⟩ := List.append_of_mem hmem
        have heq' : f.blocks = (earlier ++ b :: mid) ++ c :: rest := by simp [heq]
        exact ho.forward.notMem_targets heq' (by simp) htarget

/-- When control comes to a block, only instructions laid out before it have been executed. -/
theorem Arrives.follows {earlier later : List Block} {b : Block} (ho : Orderly f types)
    (h : Arrives f args b a) (heq : f.blocks = earlier ++ b :: later) :
    Follows f (earlier.flatMap Block.instrs) a.values := by
  obtain ⟨n, hn⟩ : ∃ n, earlier.length = n := ⟨_, rfl⟩
  induction n using Nat.strongRecOn generalizing earlier later b a with
  | ind n ih =>
    rcases h.cases_before ho heq with ⟨rfl, rfl⟩ | ⟨c, hc, a', ρ, hc', rfl, hrun⟩
    · exact Follows.start ho.toTyping
    · obtain ⟨first, rest, rfl⟩ := List.append_of_mem hc
      have heq' : f.blocks = first ++ c :: (rest ++ b :: later) := by simp [heq]
      have hfirst := ih first.length (by simp [← hn]) hc' heq' rfl
      have hinstrs : f.instrs = first.flatMap Block.instrs ++ c.instrs ++
          (rest ++ b :: later).flatMap Block.instrs := by simp [Function.instrs, heq']
      refine (hfirst.execute ho.toTyping hinstrs hrun).mono fun x hx ↦ ?_
      simp only [List.flatMap_append, List.flatMap_cons, List.filterMap_append,
        List.mem_append] at hx ⊢
      tauto

end Runs

end RangeFlow
