import RangeFlow.Proofs.Stateful
import RangeFlow.Sweep.State

/-!
# Runs of a part of a sweep

A part of a sweep that succeeds is taken apart into the steps it is made of, with the states in
between.  Proofs about sweeps open the definitions through these equivalences only.
-/

namespace RangeFlow

namespace Sweep

variable {α β : Type} {s t : State}

@[simp] theorem run_ofExcept_eq_ok {x : Except Fault α} {a : α} :
    (ofExcept x).run s = .ok a t ↔ x = .ok a ∧ s = t := by
  cases x <;> simp [ofExcept]

/-- The actions on a list, one after the other. -/
theorem run_anyOf_cons_eq_ok {act : α → SweepM Bool} {a : α} {as : List α} {b : Bool} :
    (anyOf act (a :: as)).run s = .ok b t ↔
      ∃ b₁ u b₂, (act a).run s = .ok b₁ u ∧ (anyOf act as).run u = .ok b₂ t ∧ (b₁ || b₂) = b := by
  simp only [anyOf, run_bind_eq_ok, run_pure_eq_ok]
  constructor
  · rintro ⟨b₁, u, h₁, b₂, v, h₂, h, rfl⟩
    exact ⟨b₁, u, b₂, h₁, h₂, h⟩
  · rintro ⟨b₁, u, b₂, h₁, h₂, h⟩
    exact ⟨b₁, u, h₁, b₂, t, h₂, h, rfl⟩

/-- No action on a list reports a change. -/
theorem run_anyOf_cons_eq_ok_false {act : α → SweepM Bool} {a : α} {as : List α} :
    (anyOf act (a :: as)).run s = .ok false t ↔
      ∃ u, (act a).run s = .ok false u ∧ (anyOf act as).run u = .ok false t := by
  rw [run_anyOf_cons_eq_ok]
  constructor
  · rintro ⟨b₁, u, b₂, h₁, h₂, hor⟩
    obtain ⟨rfl, rfl⟩ := Bool.or_eq_false_iff.1 hor
    exact ⟨u, h₁, h₂⟩
  · rintro ⟨u, h₁, h₂⟩
    exact ⟨false, u, false, h₁, h₂, rfl⟩

/-! ## Operations -/

variable {e : Env} {f : Function} {l : String} {r : Range}

@[simp] theorem run_setLog_eq_ok {x : Except Fault Log} {a : Unit} :
    (setLog x).run s = .ok a t ↔ ∃ log, x = .ok log ∧ t = { s with log := log } := by
  simp only [setLog, run_bind_eq_ok, run_ofExcept_eq_ok, run_modify_eq_ok]
  constructor
  · rintro ⟨log, _, ⟨hx, rfl⟩, rfl⟩
    exact ⟨log, hx, rfl⟩
  · rintro ⟨log, hx, rfl⟩
    exact ⟨log, s, ⟨hx, rfl⟩, rfl⟩

/-- The first range is given the width of the second one, and the log tells if they differed. -/
theorem run_conformed_eq_ok {first second : Range} :
    (conformed first second).run s = .ok r t ↔ ∃ log, s.log.compare first second = .ok log ∧
      r = first.conform second ∧ t = { s with log := log } := by
  simp only [conformed, run_bind_eq_ok, run_get_eq_ok, run_setLog_eq_ok, run_pure_eq_ok]
  constructor
  · rintro ⟨_, _, ⟨rfl, rfl⟩, _, _, ⟨log, hlog, rfl⟩, rfl, rfl⟩
    exact ⟨log, hlog, rfl, rfl⟩
  · rintro ⟨log, hlog, rfl, rfl⟩
    exact ⟨s, s, ⟨rfl, rfl⟩, ⟨⟩, _, ⟨log, hlog, rfl⟩, rfl, rfl⟩

/-- The state after a range is joined to a fact, apart from the log. -/
def State.afterJoin (s : State) (f : Function) (l : String) (subject : Subject) (r : Range) :
    State :=
  let joined := (s.blockFacts f.name l).join subject r
  if joined.2 then s.setBlockFacts f.name l joined.1 else s

/-- A range is joined to the fact about the subject, and the log tells of it. -/
theorem run_joinFact_eq_ok {subject : Subject} {b : Bool} :
    (joinFact f l subject r).run s = .ok b t ↔
      ∃ log, s.log.noteJoin ((s.blockFacts f.name l).get? subject) r = .ok log ∧
        b = ((s.blockFacts f.name l).join subject r).2 ∧
        t = { s.afterJoin f l subject r with log := log } := by
  simp only [joinFact, run_bind_eq_ok, run_get_eq_ok, run_setLog_eq_ok, State.afterJoin]
  constructor
  · rintro ⟨_, _, ⟨rfl, rfl⟩, _, _, ⟨log, hlog, rfl⟩, h⟩
    split at h
    · rename_i hgrew
      simp only [run_bind_eq_ok, run_modify_eq_ok, run_pure_eq_ok] at h
      obtain ⟨_, _, rfl, rfl, rfl⟩ := h
      exact ⟨log, hlog, rfl, by rw [if_pos hgrew]; rfl⟩
    · rename_i hgrew
      obtain ⟨rfl, rfl⟩ := run_pure_eq_ok.1 h
      exact ⟨log, hlog, rfl, by rw [if_neg hgrew]⟩
  · rintro ⟨log, hlog, rfl, rfl⟩
    refine ⟨s, s, ⟨rfl, rfl⟩, ⟨⟩, _, ⟨log, hlog, rfl⟩, ?_⟩
    split
    · exact run_bind_eq_ok.2 ⟨⟨⟩, _, run_modify_eq_ok.2 rfl, run_pure_eq_ok.2 ⟨rfl, rfl⟩⟩
    · exact run_pure_eq_ok.2 ⟨rfl, rfl⟩

/-- A range is joined to that of the id in the table, and the log tells of an update. -/
theorem run_offer_eq_ok {id : String} {origin : Option Origin} {b : Bool} :
    (offer id r origin).run s = .ok b t ↔
      ∃ log, s.table.logUpdate s.log id r origin = .ok log ∧ b = (s.table.union id r).2 ∧
        t = { s with table := (s.table.union id r).1, log := log } := by
  simp only [offer, run_bind_eq_ok, run_get_eq_ok, run_ofExcept_eq_ok, run_set_eq_ok,
    run_pure_eq_ok, RangeTable.offer]
  constructor
  · rintro ⟨_, _, ⟨rfl, rfl⟩, ⟨b', u, log⟩, _, ⟨h, rfl⟩, _, _, rfl, rfl, rfl⟩
    cases hlog : s.table.logUpdate s.log id r origin with
    | error x => simp [hlog, bind, Except.bind] at h
    | ok log' =>
      simp only [hlog, bind, Except.bind, pure, Except.pure, Except.ok.injEq, Prod.mk.injEq] at h
      obtain ⟨rfl, rfl, rfl⟩ := h
      exact ⟨log', rfl, rfl, rfl⟩
  · rintro ⟨log, hlog, rfl, rfl⟩
    refine ⟨s, s, ⟨rfl, rfl⟩, ⟨_, _, log⟩, s, ⟨?_, rfl⟩, ⟨⟩, _, rfl, rfl, rfl⟩
    rw [hlog]
    rfl

/-! ## Operands -/

/-- A width is counted if its words can be, and it stays what it is. -/
theorem counted_eq_ok {w w' : Width} : Fault.ofRange w.counted = .ok w' ↔
    countable w.bits = .ok () ∧ w = w' := by
  unfold Width.counted
  cases countable w.bits <;> simp [Fault.ofRange, Except.map]

/-- A literal is read as the one word, at any width whose words can be counted. -/
theorem run_rangeOf_literal_eq_ok {v : Int} {w : Width} :
    (rangeOf e f l (.literal v w)).run s = .ok r t ↔
      countable w.bits = .ok () ∧ r = .singleton w v ∧ t = s := by
  simp only [rangeOf, counted, run_bind_eq_ok, run_ofExcept_eq_ok, run_pure_eq_ok, counted_eq_ok]
  constructor
  · rintro ⟨_, _, ⟨⟨h, rfl⟩, rfl⟩, rfl, rfl⟩
    exact ⟨h, rfl, rfl⟩
  · rintro ⟨h, rfl, rfl⟩
    exact ⟨w, t, ⟨⟨h, rfl⟩, rfl⟩, rfl, rfl⟩

/-- The state after a range is read from the table for a variable: it is kept unless empty. -/
def State.afterRead (s : State) (f : Function) (l x : String) (r : Range) : State :=
  if r.isEmpty then s
  else s.setBlockFacts f.name l ((s.blockFacts f.name l).insert (.var x) r)

/-- A variable has the range that the block knows, or else the one that the table gives. -/
theorem run_rangeOf_var_eq_ok {x : String} {ty : Ty} :
    (rangeOf e f l (.var x ty)).run s = .ok r t ↔ ∃ w, ty.width? = some w ∧
      (((s.blockFacts f.name l).get? (.var x) = some r ∧ t = s) ∨
        ((s.blockFacts f.name l).get? (.var x) = none ∧ countable w.bits = .ok () ∧
          ∃ ids, e.sources f x ty = .ok ids ∧ r = e.readIds s.table w ids ∧
            t = s.afterRead f l x r)) := by
  unfold rangeOf
  dsimp only
  cases hty : ty.width? with
  | none => simp
  | some w =>
    simp only [run_bind_eq_ok, run_get_eq_ok]
    cases hfact : (s.blockFacts f.name l).get? (.var x) with
    | some r' =>
      constructor
      · rintro ⟨_, _, ⟨rfl, rfl⟩, h⟩
        simp only [hfact, run_pure_eq_ok] at h
        obtain ⟨rfl, rfl⟩ := h
        exact ⟨w, rfl, .inl ⟨rfl, rfl⟩⟩
      · rintro ⟨_, -, ⟨hr, rfl⟩ | ⟨hr, -⟩⟩
        · cases hr
          refine ⟨t, t, ⟨rfl, rfl⟩, ?_⟩
          simp only [hfact, run_pure_eq_ok, and_self]
        · cases hr
    | none =>
      constructor
      · rintro ⟨_, _, ⟨rfl, rfl⟩, h⟩
        simp only [hfact, counted, run_bind_eq_ok, run_ofExcept_eq_ok, counted_eq_ok] at h
        obtain ⟨_, _, ⟨⟨hw, rfl⟩, rfl⟩, ids, _, ⟨hids, rfl⟩, h⟩ := h
        refine ⟨w, rfl, .inr ⟨rfl, hw, ids, hids, ?_⟩⟩
        unfold State.afterRead
        split at h
        · rename_i hempty
          obtain ⟨rfl, rfl⟩ := run_pure_eq_ok.1 h
          exact ⟨rfl, by rw [if_pos hempty]⟩
        · rename_i hempty
          simp only [run_bind_eq_ok, run_modify_eq_ok, run_pure_eq_ok] at h
          obtain ⟨_, _, rfl, rfl, rfl⟩ := h
          exact ⟨rfl, by rw [if_neg hempty]⟩
      · rintro ⟨_, hw', ⟨hr, -⟩ | ⟨-, hw, ids, hids, rfl, rfl⟩⟩
        · cases hr
        · cases hw'
          refine ⟨s, s, ⟨rfl, rfl⟩, ?_⟩
          simp only [hfact, counted, run_bind_eq_ok, run_ofExcept_eq_ok, counted_eq_ok]
          refine ⟨w, s, ⟨⟨hw, rfl⟩, rfl⟩, ids, s, ⟨hids, rfl⟩, ?_⟩
          unfold State.afterRead
          split
          · exact run_pure_eq_ok.2 ⟨rfl, rfl⟩
          · exact run_bind_eq_ok.2 ⟨⟨⟩, _, run_modify_eq_ok.2 rfl, run_pure_eq_ok.2 ⟨rfl, rfl⟩⟩

end Sweep

end RangeFlow
