import RangeFlow.Proofs.Sweep.Told

/-!
# Moments of a sweep

A sweep over a block is made of operations that each add to the facts of one block at most.  However
it is cut in two such parts, the state in between is one of its moments (`IsMoment`), also if the
second part fails.  What is known at a moment is still known at the end, at the same width and with
no member less (`Extends`); so a property of widths that every sweep over a block has at its end,
however it ends, holds at each of its moments.  `Maintains` is the logic for such ends.
-/

namespace RangeFlow

/-- A range that is joined to one with members has members. -/
theorem Facts.isEmpty_of_joined {old new : Option Range} {r : Range}
    (h : joined old new = some r) (hold : ∀ q, old = some q → q.isEmpty = false) :
    r.isEmpty = false := by
  cases old with
  | some q =>
    obtain ⟨r', hr', -, hmem⟩ := exists_joined_of_old q new
    rw [h] at hr'
    cases hr'
    exact Range.not_isEmpty_of_mem (hmem _ (Range.lower_mem (hold q rfl)))
  | none =>
    unfold joined at h
    split at h
    · split at h
      · cases h
      · rename_i hempty
        cases h
        exact Bool.eq_false_iff.2 hempty
    · cases h

namespace Sweep

variable {α β : Type} {e : Env} {f : Function} {label l : String} {s t u : State}

/-! ## Ends -/

/-- The state in which a part of a sweep ends, also if it fails. -/
def endState (m : SweepM α) (s : State) : State :=
  match m.run s with
  | .ok _ t => t
  | .error _ t => t

theorem endState_of_ok {m : SweepM α} {a : α} (h : m.run s = .ok a t) : endState m s = t := by
  rw [endState, h]

theorem endState_of_error {m : SweepM α} {x : Fault} (h : m.run s = .error x t) :
    endState m s = t := by
  rw [endState, h]

/-- What a part of a sweep gives, if it does not fail. -/
def result? (m : SweepM α) (s : State) : Option α :=
  match m.run s with
  | .ok a _ => some a
  | .error _ _ => none

theorem run_of_result? {m : SweepM α} {a : α} (h : result? m s = some a) :
    m.run s = .ok a (endState m s) := by
  cases hrun : m.run s with
  | ok b t =>
    rw [result?, hrun] at h
    cases h
    rw [endState_of_ok hrun]
  | error x t =>
    rw [result?, hrun] at h
    cases h

@[simp] theorem endState_ofExcept (x : Except Fault α) : endState (ofExcept x) s = s := by
  cases x <;> rfl

/-- If the first part succeeds, then the state at the end is that of the second one. -/
theorem endState_bind_of_ok {m : SweepM α} {k : α → SweepM β} {a : α} (h : m.run s = .ok a u) :
    endState (m >>= k) s = endState (k a) u := by
  unfold endState
  have hbind : (m >>= k).run s = (k a).run u := by
    simp only [EStateM.run, bind, EStateM.bind] at h ⊢
    rw [h]
  rw [hbind]

/-- If the first part fails, then the second one does not begin. -/
theorem endState_bind_of_error {m : SweepM α} {k : α → SweepM β} {x : Fault}
    (h : m.run s = .error x u) : endState (m >>= k) s = u := by
  refine endState_of_error (x := x) ?_
  simp only [EStateM.run, bind, EStateM.bind] at h ⊢
  rw [h]

/-! ## Ends of the operations -/

theorem facts_endState_conformed (first second : Range) :
    (endState (conformed first second) s).facts = s.facts := by
  show (endState (setLog (s.log.compare first second) >>= fun _ ↦ pure _) s).facts = s.facts
  cases s.log.compare first second <;> rfl

theorem facts_endState_offer (id : String) (r : Range) (origin : Option Origin) :
    (endState (offer id r origin) s).facts = s.facts := by
  show (endState (ofExcept (s.table.offer s.log id r origin) >>= _) s).facts = s.facts
  cases s.table.offer s.log id r origin <;> rfl

/-- A range is joined to a fact, unless the warning ends the run. -/
theorem facts_endState_joinFact (k : Subject) (r : Range) :
    (endState (joinFact f l k r) s).facts = s.facts ∨
      (endState (joinFact f l k r) s).facts = (s.afterJoin f l k r).facts := by
  cases h : s.log.noteJoin ((s.blockFacts f.name l).get? k) r with
  | ok log =>
    rw [endState_of_ok (run_joinFact_eq_ok.2 ⟨log, h, rfl, rfl⟩)]
    exact .inr rfl
  | error x =>
    refine .inl ?_
    show (endState (setLog (s.log.noteJoin ((s.blockFacts f.name l).get? k) r) >>= _) s).facts = _
    rw [h]
    rfl

/-- Facts are put into a block without any, or joined one by one. -/
theorem endState_joinFacts (m : Facts) :
    ((s.blockFacts f.name l).size = 0 ∧ endState (joinFacts f l m) s =
      s.setBlockFacts f.name l (m.filter fun e ↦ !e.2.isEmpty)) ∨
    endState (joinFacts f l m) s =
      endState (m.entries.forM fun (k, r) ↦ do let _ ← joinFact f l k r) s := by
  by_cases hsize : (s.blockFacts f.name l).size = 0
  · refine .inl ⟨hsize, ?_⟩
    show endState (if (s.blockFacts f.name l).size = 0 then _ else _) s = _
    rw [if_pos hsize]
    rfl
  · refine .inr ?_
    show endState (if (s.blockFacts f.name l).size = 0 then _ else _) s = _
    rw [if_neg hsize]

/-- An operand is read without a change, or what the table tells of a variable without a fact
becomes one. -/
theorem endState_rangeOf (o : Operand) :
    endState (rangeOf e f l o) s = s ∨ ∃ x w ids, o = .var x (.int w) ∧
      (s.blockFacts f.name l).get? (.var x) = none ∧
      (e.readIds s.table w ids).isEmpty = false ∧ endState (rangeOf e f l o) s =
        s.setBlockFacts f.name l
          ((s.blockFacts f.name l).insert (.var x) (e.readIds s.table w ids)) := by
  cases o with
  | literal v w =>
    refine .inl ?_
    show endState (ofExcept (Fault.ofRange w.counted) >>= fun w ↦ pure (Range.singleton w v)) s = s
    cases Fault.ofRange w.counted <;> rfl
  | symbol name => exact .inl rfl
  | var x ty =>
    cases ty with
    | int w =>
      cases hfact : (s.blockFacts f.name l).get? (.var x) with
      | some r =>
        rw [endState_of_ok (run_rangeOf_var_eq_ok.2 ⟨w, rfl, .inl ⟨hfact, rfl⟩⟩)]
        exact .inl rfl
      | none =>
        have hread : endState (rangeOf e f l (.var x (.int w))) s = endState (do
            let w' ← ofExcept (Fault.ofRange w.counted)
            let ids ← ofExcept (e.sources f x (.int w))
            let r := e.readIds s.table w' ids
            unless r.isEmpty do
              modify fun t ↦
                t.setBlockFacts f.name l ((s.blockFacts f.name l).insert (.var x) r)
            return r : SweepM Range) s := by
          unfold rangeOf
          dsimp only [Ty.width?]
          rw [endState_bind_of_ok (show (get : SweepM State).run s = .ok s s from rfl)]
          rw [hfact]
          rfl
        cases hw : Fault.ofRange w.counted with
        | error y =>
          rw [hread, hw]
          exact .inl rfl
        | ok w' =>
          obtain ⟨hcount, rfl⟩ := counted_eq_ok.1 hw
          cases hids : e.sources f x (.int w) with
          | error y =>
            rw [hread, hw, hids]
            exact .inl rfl
          | ok ids =>
            rw [endState_of_ok
              (run_rangeOf_var_eq_ok.2 ⟨w, rfl, .inr ⟨hfact, hcount, ids, hids, rfl, rfl⟩⟩)]
            unfold State.afterRead
            split
            · exact .inl rfl
            · rename_i hempty
              exact .inr ⟨x, w, ids, rfl, hfact, Bool.eq_false_iff.2 hempty, rfl⟩
    | ptr | void | array | named | literal => exact .inl rfl

/-! ## Facts stay known -/

/-- No fact is empty. -/
def State.Filled (s : State) : Prop :=
  ∀ g l k r, (s.blockFacts g l).get? k = some r → r.isEmpty = false

/-- What is known in `s` is known in `t` at the same width and has not lost a member, and no fact
became empty. -/
structure Extends (s t : State) : Prop where
  kept : ∀ g l k r, (s.blockFacts g l).get? k = some r →
    ∃ q, (t.blockFacts g l).get? k = some q ∧ q.width = r.width ∧ ∀ n ∈ r, n ∈ q
  filled : s.Filled → t.Filled

theorem blockFacts_eq_of_facts_eq (h : t.facts = s.facts) : t.blockFacts = s.blockFacts := by
  funext g l
  unfold State.blockFacts
  rw [h]

/-- Facts that replace those of a block are found there, and nowhere else. -/
theorem blockFacts_setBlockFacts_cases (s : State) (g l g' l' : String) (m : Facts) :
    (s.setBlockFacts g l m).blockFacts g' l' = s.blockFacts g' l' ∨
      g' = g ∧ l' = l ∧ (s.setBlockFacts g l m).blockFacts g' l' = m := by
  by_cases hg : g' = g
  · subst hg
    by_cases hkey : g' ∈ s.facts.keys
    · rw [blockFacts_setBlockFacts hkey]
      split
      · rename_i hl
        exact .inr ⟨rfl, hl, rfl⟩
      · exact .inl rfl
    · have hnone : s.facts.get? g' = none := OrderedMap.get?_eq_none_iff.2 hkey
      unfold State.setBlockFacts State.blockFacts OrderedMap.modify
      rw [hnone]
      exact .inl (by rw [hnone])
  · unfold State.setBlockFacts State.blockFacts
    rw [OrderedMap.get?_modify_of_ne _ _ hg]
    exact .inl rfl

namespace Extends

theorem of_facts_eq (h : t.facts = s.facts) : Extends s t := by
  have hfacts := blockFacts_eq_of_facts_eq h
  refine ⟨fun g l k r hr ↦ ⟨r, by rw [hfacts]; exact hr, rfl, fun _ ↦ id⟩, fun hs g l k r hr ↦ ?_⟩
  rw [hfacts] at hr
  exact hs g l k r hr

theorem refl (s : State) : Extends s s := of_facts_eq rfl

theorem trans (h : Extends s t) (h' : Extends t u) : Extends s u := by
  refine ⟨fun g l k r hr ↦ ?_, fun hs ↦ h'.filled (h.filled hs)⟩
  obtain ⟨q, hq, hqw, hqmem⟩ := h.kept g l k r hr
  obtain ⟨p, hp, hpw, hpmem⟩ := h'.kept g l k q hq
  exact ⟨p, hp, hpw.trans hqw, fun n hn ↦ hpmem n (hqmem n hn)⟩

/-- The facts of a block are replaced by some that contain them. -/
theorem setBlockFacts {g : String} {m : Facts}
    (hkept : ∀ k r, (s.blockFacts g l).get? k = some r →
      ∃ q, m.get? k = some q ∧ q.width = r.width ∧ ∀ n ∈ r, n ∈ q)
    (hfilled : s.Filled → ∀ k r, m.get? k = some r → r.isEmpty = false) :
    Extends s (s.setBlockFacts g l m) := by
  refine ⟨fun g' l' k r hr ↦ ?_, fun hs g' l' k r hr ↦ ?_⟩
  · rcases blockFacts_setBlockFacts_cases s g l g' l' m with heq | ⟨rfl, rfl, heq⟩
    · exact ⟨r, by rw [heq, hr], rfl, fun _ ↦ id⟩
    · rw [heq]
      exact hkept k r hr
  · rcases blockFacts_setBlockFacts_cases s g l g' l' m with heq | ⟨rfl, rfl, heq⟩
    · rw [heq] at hr
      exact hs g' l' k r hr
    · rw [heq] at hr
      exact hfilled hs k r hr

/-- A range that is joined to a fact extends what is known. -/
theorem afterJoin (f : Function) (l : String) (k : Subject) (r : Range) :
    Extends s (s.afterJoin f l k r) := by
  unfold State.afterJoin
  dsimp only
  split
  · refine setBlockFacts (fun j old hold ↦ ?_) fun hs j q hq ↦ ?_
    · rw [Facts.get?_join, hold]
      exact Facts.exists_joined_of_old old (if j = k then some r else none)
    · rw [Facts.get?_join] at hq
      exact Facts.isEmpty_of_joined hq fun old hold ↦ hs _ _ _ old hold
  · exact refl s

/-- Two parts after each other extend what is known if both do, however they end. -/
theorem bind {m : SweepM α} {k : α → SweepM β} (hm : Extends s (endState m s))
    (hk : ∀ a u, Extends u (endState (k a) u)) : Extends s (endState (m >>= k) s) := by
  cases hrun : m.run s with
  | ok a u =>
    rw [endState_of_ok hrun] at hm
    rw [endState_bind_of_ok hrun]
    exact hm.trans (hk a u)
  | error x u =>
    rw [endState_of_error hrun] at hm
    rw [endState_bind_of_error hrun]
    exact hm

/-- To read an operand extends what is known by the fact that it records. -/
theorem rangeOf (o : Operand) : Extends s (endState (rangeOf e f l o) s) := by
  rcases endState_rangeOf o with hend | ⟨x, w, ids, -, hnone, hr, hend⟩
  · rw [hend]
    exact refl s
  · rw [hend]
    refine setBlockFacts (fun k r hk ↦ ⟨r, ?_, rfl, fun _ ↦ id⟩) fun hs k r hk ↦ ?_
    · have hne : k ≠ .var x := by
        rintro rfl
        rw [hnone] at hk
        cases hk
      rw [OrderedMap.get?_insert_of_ne _ _ hne, hk]
    · rw [OrderedMap.get?_insert] at hk
      split at hk
      · cases hk
        exact hr
      · exact hs _ _ k r hk

theorem joinFact (k : Subject) (r : Range) : Extends s (endState (joinFact f l k r) s) := by
  rcases facts_endState_joinFact k r with hend | hend
  · exact of_facts_eq hend
  · exact (afterJoin f l k r).trans (of_facts_eq hend)

theorem joinFacts (m : Facts) : Extends s (endState (joinFacts f l m) s) := by
  rcases endState_joinFacts m with ⟨hsize, hend⟩ | hend
  · rw [hend]
    refine setBlockFacts (fun k r hk ↦ ?_) fun _ k r hk ↦ ?_
    · have hnil : (s.blockFacts f.name l).entries = [] := List.eq_nil_of_length_eq_zero hsize
      rw [OrderedMap.get?, hnil] at hk
      cases hk
    · rw [OrderedMap.get?_filter, Option.filter_eq_some_iff] at hk
      simpa using hk.2
  · rw [hend]
    generalize m.entries = es
    clear hend
    induction es generalizing s with
    | nil => exact refl s
    | cons e es ih => exact bind (bind (joinFact e.1 e.2) fun _ ↦ refl) fun _ _ ↦ ih

end Extends

/-- Every part of a sweep over a block only adds to what is known, however it ends. -/
theorem Composed.extends_endState {ids : String → Prop} {reads : Operand → Prop} {m : SweepM α}
    (h : Composed e f label ids reads m) (s : State) : Extends s (endState m s) := by
  induction h generalizing s with
  | pure => exact .refl s
  | throw => exact .refl s
  | bind _ _ ihm ihk => exact (ihm s).bind ihk
  | read l _ => exact .rangeOf _
  | conform first second => exact .of_facts_eq (facts_endState_conformed first second)
  | join k r => exact .joinFact k r
  | joinAll m => exact .joinFacts m
  | facts l _ ih => exact ih _ s
  | offer r origin _ => exact .of_facts_eq (facts_endState_offer _ r origin)

/-! ## Moments -/

/-- A state that a part of a sweep over a block passes through from another one: if it is cut in two
parts of such a sweep, that in which the first one ends. -/
def IsMoment (e : Env) (f : Function) (label : String) (m : SweepM α) (s t : State) : Prop :=
  ∃ (β : Type) (first : SweepM β) (rest : β → SweepM α), m = first >>= rest ∧
    Composed e f label (fun _ ↦ True) (fun _ ↦ True) first ∧
    (∀ b, Composed e f label (fun _ ↦ True) (fun _ ↦ True) (rest b)) ∧ t = endState first s

/-- A list can be cut in two parts that are passed one after the other. -/
theorem anyOf_append (act : α → SweepM Bool) (as bs : List α) :
    anyOf act (as ++ bs) = do
      let first ← anyOf act as
      let rest ← anyOf act bs
      return first || rest := by
  induction as with
  | nil => simp only [List.nil_append, anyOf, pure_bind, Bool.false_or, bind_pure]
  | cons a as ih => simp only [List.cons_append, anyOf, ih, bind_assoc, pure_bind, Bool.or_assoc]

/-- After any number of instructions there is a moment. -/
theorem isMoment_take (hf : f ∈ e.program.functions) {b : Block} (hb : b ∈ f.blocks) (g : Flow)
    (loops : OrderedSet Edge) (s : State) (n : Nat) :
    IsMoment e f b.label (sweepBlock e f g loops b) s (endState (do
      mergePredecessors e f g loops b.label
      anyOf (visit e f loops b.label) ((b.sites f.name).take n)) s) := by
  have hvisits (ps : List (Site × Instr)) (hps : ∀ p ∈ ps, p ∈ b.sites f.name) :
      Composed e f b.label (fun _ ↦ True) (fun _ ↦ True) (anyOf (visit e f loops b.label) ps) :=
    .anyOf fun p hp ↦ .visit (.trivial f) hf (fun _ _ ↦ ⟨⟩) loops
      (mem_instrs_of_mem_sites hb (hps p hp)) p.1
  refine ⟨Bool, _, fun first ↦ do
    let rest ← anyOf (visit e f loops b.label) ((b.sites f.name).drop n)
    return first || rest, ?_, ?_, fun first ↦ ?_, rfl⟩
  · have hsplit := anyOf_append (visit e f loops b.label) ((b.sites f.name).take n)
      ((b.sites f.name).drop n)
    rw [List.take_append_drop] at hsplit
    rw [sweepBlock, hsplit, bind_assoc]
  · exact .bind (.mergePredecessors (.trivial f) g loops) fun _ ↦
      hvisits _ fun _ ↦ List.mem_of_mem_take
  · exact .bind (hvisits _ fun _ ↦ List.mem_of_mem_drop) fun _ ↦ .pure _

/-- What is known at a moment was added to, and is added to until the end. -/
theorem IsMoment.extends {m : SweepM α} (h : IsMoment e f label m s t) :
    Extends s t ∧ Extends t (endState m s) := by
  obtain ⟨β, first, rest, rfl, hfirst, hrest, rfl⟩ := h
  refine ⟨hfirst.extends_endState s, ?_⟩
  cases hrun : first.run s with
  | ok b u =>
    rw [endState_of_ok hrun, endState_bind_of_ok hrun]
    exact (hrest b).extends_endState u
  | error x u =>
    rw [endState_of_error hrun, endState_bind_of_error hrun]
    exact .refl u

/-! ## What holds at the end -/

/-- From the invariant, a part of a sweep keeps it however it ends, and gives a result as said if it
does not fail. -/
structure Maintains (I : State → Prop) (m : SweepM α) (Q : α → Prop) : Prop where
  keeps : ∀ {s : State}, I s → I (endState m s)
  gives : ∀ {s t : State} {a : α}, I s → m.run s = .ok a t → Q a

namespace Maintains

variable {I : State → Prop} {m : SweepM α} {P Q : α → Prop}

/-- If a part of a sweep that maintains an invariant succeeds, then the invariant holds after it. -/
theorem keeps_of_ok (h : Maintains I m Q) (hs : I s) {a : α} (hrun : m.run s = .ok a t) : I t := by
  have hend := h.keeps hs
  rwa [endState_of_ok hrun] at hend

theorem pure {a : α} (h : Q a) : Maintains I (pure a) Q where
  keeps hs := hs
  gives := by
    intro s t b _ hrun
    obtain ⟨rfl, -⟩ := run_pure_eq_ok.1 hrun
    exact h

theorem throw (x : Fault) : Maintains I (throw x) Q where
  keeps hs := hs
  gives _ hrun := absurd hrun run_throw_eq_ok.1

theorem bind {k : α → SweepM β} {R : β → Prop} (hm : Maintains I m Q)
    (hk : ∀ a, Q a → Maintains I (k a) R) : Maintains I (m >>= k) R where
  keeps := by
    intro s hs
    have hend := hm.keeps hs
    cases hrun : m.run s with
    | ok a u =>
      rw [endState_of_ok hrun] at hend
      rw [endState_bind_of_ok hrun]
      exact (hk a (hm.gives hs hrun)).keeps hend
    | error x u =>
      rw [endState_of_error hrun] at hend
      rw [endState_bind_of_error hrun]
      exact hend
  gives := by
    intro s t b hs hrun
    obtain ⟨a, u, hu, ht⟩ := run_bind_eq_ok.1 hrun
    exact (hk a (hm.gives hs hu)).gives (hm.keeps_of_ok hs hu) ht

theorem mono (hm : Maintains I m P) (h : ∀ a, P a → Q a) : Maintains I m Q where
  keeps := hm.keeps
  gives hs hrun := h _ (hm.gives hs hrun)

theorem ofExcept {x : Except Fault α} (h : ∀ a, x = .ok a → Q a) : Maintains I (ofExcept x) Q where
  keeps := by
    intro s hs
    rw [endState_ofExcept]
    exact hs
  gives _ hrun := h _ (run_ofExcept_eq_ok.1 hrun).1

theorem modify {g : State → State} (h : ∀ s, I s → I (g s)) :
    Maintains I (modify g : SweepM PUnit) fun _ ↦ True where
  keeps hs := h _ hs
  gives _ _ := ⟨⟩

theorem anyOf {act : α → SweepM Bool} {as : List α}
    (h : ∀ a ∈ as, Maintains I (act a) fun _ ↦ True) :
    Maintains I (anyOf act as) fun _ ↦ True := by
  induction as with
  | nil => exact .pure ⟨⟩
  | cons a as ih =>
    refine .bind (h a List.mem_cons_self) fun _ _ ↦ ?_
    exact .bind (ih fun b hb ↦ h b (List.mem_cons_of_mem a hb)) fun _ _ ↦ .pure ⟨⟩

/-- Parts that each maintain the invariant maintain it one after the other. -/
theorem forM {act : α → SweepM PUnit} {as : List α}
    (h : ∀ a ∈ as, Maintains I (act a) fun _ ↦ True) :
    Maintains I (as.forM act) fun _ ↦ True := by
  induction as with
  | nil => exact .pure ⟨⟩
  | cons a as ih =>
    exact .bind (h a List.mem_cons_self) fun _ _ ↦ ih fun b hb ↦ h b (List.mem_cons_of_mem a hb)

/-- The invariant holds where the actions on a list come to an element. -/
theorem of_comes {act : α → SweepM Bool} {as : List α}
    (h : ∀ a ∈ as, Maintains I (act a) fun _ ↦ True) {a : α} (hcomes : Comes act as s a t)
    (hs : I s) : a ∈ as ∧ I t := by
  obtain ⟨before, after, b, rfl, hrun⟩ := hcomes
  have hbefore : Maintains I (Sweep.anyOf act before) fun _ ↦ True :=
    .anyOf fun a ha ↦ h a (List.mem_append_left _ ha)
  exact ⟨by simp, hbefore.keeps_of_ok hs hrun⟩

end Maintains

end Sweep

end RangeFlow
