import RangeFlow.Proofs.Sweep.Widths

/-!
# What a state tells of an operand

Reading an operand in a block keeps what the table tells of it as a fact of the block.  What any
operand is read as, in any block, is the same before and after (`SeesAlike`): the fact repeats the
table, and variables are read at their types only.  So the operands of an instruction, or of a
comparison, are all read as they would be in the state from which the first one is.
-/

namespace RangeFlow

theorem Ty.exists_of_isInt {t : Ty} (h : t.isInt = true) : ∃ w, t = .int w := by
  cases t with
  | int w => exact ⟨w, rfl⟩
  | ptr | void | array | named | literal => cases h

namespace Sweep

/-- An operand that is read in a block has a range. -/
def Env.Reads (e : Env) (f : Function) (s : State) (l : String) (o : Operand) (r : Range) : Prop :=
  ∃ t, (rangeOf e f l o).run s = .ok r t

/-- An operand that is read in a block has a range, and the word is a member. -/
def Env.Sees (e : Env) (f : Function) (s : State) (l : String) (o : Operand) (v : Word) : Prop :=
  ∃ r, e.Reads f s l o r ∧ r.Holds v

/-- Operands that are read at the types of their variables have the same ranges in two states. -/
def Env.SeesAlike (e : Env) (f : Function) (s t : State) : Prop :=
  ∀ l o r, f.ReadsAtType o → (e.Reads f s l o r ↔ e.Reads f t l o r)

variable {e : Env} {f : Function} {l x : String} {o a b : Operand} {r q p : Range} {v : Word}
variable {s t u u' : State} {ty : Ty}

theorem Env.Reads.unique (hr : e.Reads f s l o r) (hq : e.Reads f s l o q) : r = q := by
  obtain ⟨_, hr⟩ := hr
  obtain ⟨_, hq⟩ := hq
  rw [hr] at hq
  cases hq
  rfl

/-- The range that is read for an operand holds the words that it can hold. -/
theorem Env.Sees.holds (h : e.Sees f s l o v) (hr : e.Reads f s l o r) : r.Holds v := by
  obtain ⟨q, hq, hv⟩ := h
  rw [hr.unique hq]
  exact hv

/-- A literal has its own word, if its width can be counted. -/
theorem Env.Sees.literal {n : Int} {w : Width} (h : countable w.bits = .ok ()) :
    e.Sees f s l (.literal n w) (.ofInt w n) :=
  ⟨.singleton w n, ⟨s, run_rangeOf_literal_eq_ok.2 ⟨h, rfl, rfl⟩⟩, (Range.width_singleton w n).symm,
    Range.mem_singleton.2 rfl⟩

/-- A variable is read as the fact about it, or else as the table tells. -/
theorem reads_var_iff : e.Reads f s l (.var x ty) r ↔
    ∃ w, ty.width? = some w ∧ ((s.blockFacts f.name l).get? (.var x) = some r ∨
      ((s.blockFacts f.name l).get? (.var x) = none ∧ countable w.bits = .ok () ∧
        ∃ ids, e.sources f x ty = .ok ids ∧ r = e.readIds s.table w ids)) := by
  unfold Env.Reads
  simp only [run_rangeOf_var_eq_ok]
  constructor
  · rintro ⟨t, w, hw, ⟨hr, -⟩ | ⟨hnone, hcount, ids, hids, hr, -⟩⟩
    · exact ⟨w, hw, .inl hr⟩
    · exact ⟨w, hw, .inr ⟨hnone, hcount, ids, hids, hr⟩⟩
  · rintro ⟨w, hw, hr | ⟨hnone, hcount, ids, hids, hr⟩⟩
    · exact ⟨_, w, hw, .inl ⟨hr, rfl⟩⟩
    · exact ⟨_, w, hw, .inr ⟨hnone, hcount, ids, hids, hr, rfl⟩⟩

namespace Env.SeesAlike

theorem refl (e : Env) (f : Function) (s : State) : e.SeesAlike f s s := fun _ _ _ _ ↦ .rfl

theorem trans (h : e.SeesAlike f s t) (h' : e.SeesAlike f t u) : e.SeesAlike f s u :=
  fun l o r ho ↦ (h l o r ho).trans (h' l o r ho)

/-- States that are seen alike show the same words. -/
theorem sees (h : e.SeesAlike f s t) (ho : f.ReadsAtType o) (hv : e.Sees f s l o v) :
    e.Sees f t l o v := by
  obtain ⟨r, hr, hv⟩ := hv
  exact ⟨r, (h l o r ho).1 hr, hv⟩

/-- Only variables are looked up. -/
theorem of_vars (h : ∀ l x ty r, f.ReadsAtType (.var x ty) →
    (e.Reads f s l (.var x ty) r ↔ e.Reads f t l (.var x ty) r)) : e.SeesAlike f s t := by
  intro l o r ho
  cases o with
  | var x ty => exact h l x ty r ho
  | literal n w =>
    simp only [Env.Reads, run_rangeOf_literal_eq_ok, exists_and_left, exists_eq]
  | symbol name =>
    have hthrow (s : State) : ¬e.Reads f s l (.symbol name) r :=
      fun ⟨_, hrun⟩ ↦ absurd hrun run_throw_eq_ok.1
    exact iff_of_false (hthrow s) (hthrow t)

/-- Only the facts and the table are looked at. -/
theorem of_facts_eq (hfacts : t.facts = s.facts) (htable : t.table = s.table) :
    e.SeesAlike f s t := by
  refine of_vars fun l x ty r _ ↦ ?_
  rw [reads_var_iff, reads_var_iff, blockFacts_eq_of_facts_eq hfacts, htable]

theorem conformed (h : (conformed r q).run s = .ok p t) : e.SeesAlike f s t := by
  obtain ⟨log, -, -, rfl⟩ := run_conformed_eq_ok.1 h
  exact of_facts_eq rfl rfl

/-- What the table tells of a variable without a fact can be kept as one. -/
theorem setBlockFacts (hx : f.ReadsAtType (.var x ty)) {w : Width} {ids : List String}
    (hw : ty.width? = some w) (hnone : (s.blockFacts f.name l).get? (.var x) = none)
    (hcount : countable w.bits = .ok ()) (hids : e.sources f x ty = .ok ids) :
    e.SeesAlike f s (s.setBlockFacts f.name l
      ((s.blockFacts f.name l).insert (.var x) (e.readIds s.table w ids))) := by
  refine of_vars fun k y ty' r hy ↦ ?_
  have htable (m : Facts) : (s.setBlockFacts f.name l m).table = s.table := rfl
  rcases blockFacts_setBlockFacts_cases s f.name l f.name k
    ((s.blockFacts f.name l).insert (.var x) (e.readIds s.table w ids)) with heq | ⟨-, rfl, heq⟩
  · rw [reads_var_iff, reads_var_iff, heq, htable]
  · rw [reads_var_iff, reads_var_iff, heq, htable]
    by_cases hxy : y = x
    · -- The fact is what is read at the type of the variable, the only one it is read at.
      subst hxy
      obtain rfl : ty' = ty := Option.some.inj ((hy y ty' rfl).symm.trans (hx y ty rfl))
      constructor
      · rintro ⟨w', hw', hfact | ⟨-, -, ids', hids', rfl⟩⟩
        · rw [hnone] at hfact
          cases hfact
        · rw [hw] at hw'
          rw [hids] at hids'
          cases hw'
          cases hids'
          exact ⟨w, hw, .inl (OrderedMap.get?_insert_self _ _ _)⟩
      · rintro ⟨_, -, hfact | ⟨hfact, -⟩⟩
        · rw [OrderedMap.get?_insert_self] at hfact
          cases hfact
          exact ⟨w, hw, .inr ⟨hnone, hcount, ids, hids, rfl⟩⟩
        · rw [OrderedMap.get?_insert_self] at hfact
          cases hfact
    · have hne : Subject.var y ≠ .var x := fun h ↦ hxy (Subject.var.inj h)
      rw [OrderedMap.get?_insert_of_ne _ _ hne]

/-- Reading an operand changes nothing for another one. -/
theorem rangeOf (ho : f.ReadsAtType o) (h : (rangeOf e f l o).run s = .ok r t) :
    e.SeesAlike f s t := by
  cases o with
  | literal n w =>
    obtain ⟨-, -, rfl⟩ := run_rangeOf_literal_eq_ok.1 h
    exact refl e f t
  | symbol name => exact absurd h run_throw_eq_ok.1
  | var x ty =>
    obtain ⟨w, hw, ⟨-, rfl⟩ | ⟨hnone, hcount, ids, hids, rfl, rfl⟩⟩ := run_rangeOf_var_eq_ok.1 h
    · exact refl e f t
    · unfold State.afterRead
      split
      · exact refl e f s
      · exact setBlockFacts ho hw hnone hcount hids

end Env.SeesAlike

/-! ## Pairs of operands -/

/-- There is nothing to warn of if the widths agree. -/
theorem compare_of_width_eq (log : Log) (hw : r.width = q.width) : log.compare r q = .ok log := by
  unfold Log.compare Range.mismatch?
  rw [if_pos hw]

/-- A range that has the width already is left as it is. -/
theorem run_conformed_of_width_eq (hw : r.width = q.width) : (conformed r q).run s = .ok q s :=
  run_conformed_eq_ok.2 ⟨s.log, compare_of_width_eq s.log hw, (if_pos hw).symm, rfl⟩

theorem run_counted {w : Width} (h : countable w.bits = .ok ()) : (counted w).run s = .ok w s :=
  run_ofExcept_eq_ok.2 ⟨counted_eq_ok.2 ⟨h, rfl⟩, rfl⟩

/-- Two operands are read one after the other, and the second one is brought to the width of the
first: it has that width already. -/
theorem ReadAlike.reads_pair (hab : ReadAlike e f s a b) (ha : f.ReadsAtType a)
    (hb : f.ReadsAtType b) (hr : (rangeOf e f l a).run s = .ok r t)
    (hq : (rangeOf e f l b).run t = .ok q u) (hp : (conformed r q).run u = .ok p u') :
    p = q ∧ r.width = q.width ∧ e.Reads f s l a r ∧ e.Reads f s l b q := by
  have hw := hab l r q t u hr hq
  obtain ⟨log, -, rfl, -⟩ := run_conformed_eq_ok.1 hp
  exact ⟨if_pos hw, hw, ⟨t, hr⟩, (Env.SeesAlike.rangeOf ha hr l b q hb).2 ⟨u, hq⟩⟩

/-- Two operands that can be read can be read one after the other. -/
theorem ReadAlike.exists_reads_pair (hab : ReadAlike e f s a b) (ha : f.ReadsAtType a)
    (hb : f.ReadsAtType b) (hr : e.Reads f s l a r) (hq : e.Reads f s l b q) :
    ∃ t u, (rangeOf e f l a).run s = .ok r t ∧ (rangeOf e f l b).run t = .ok q u ∧
      (conformed r q).run u = .ok q u := by
  obtain ⟨t, hr⟩ := hr
  obtain ⟨u, hq⟩ := (Env.SeesAlike.rangeOf ha hr l b q hb).1 hq
  exact ⟨t, u, hr, hq, run_conformed_of_width_eq (hab l r q t u hr hq)⟩

end Sweep

end RangeFlow
