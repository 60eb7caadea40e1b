import RangeFlow.Proofs.Sweep.Fixpoint
import RangeFlow.Proofs.Sweep.Known

/-!
# Operands that have members

A variable about which a block has a fact is read as a range with members, since no fact is empty,
and so is one that reads an id with a stored range.  It stays so for the rest of a sweep that leaves
the table alone (`Later`).  A value that is computed from operands that have members has a member
too, unless it is a quotient by zero.
-/

namespace RangeFlow

/-- Where a value reads an operand: a phi at the end of the block from which it takes it. -/
def Value.ReadsFrom (v : Value) (l k : String) (o : Operand) : Prop :=
  match v with
  | .phi _ entries => ⟨k, o⟩ ∈ entries
  | _ => k = l

namespace Sweep

variable {α : Type} {e : Env} {f : Function} {l x : String} {r : Range} {s t u : State}

/-! ## Later states -/

/-- The second state comes later in a sweep over the function, with the same table. -/
structure Later (f : Function) (s t : State) : Prop where
  table : t.table = s.table
  key : f.name ∈ s.facts.keys → f.name ∈ t.facts.keys
  extends_ : Extends s t

namespace Later

theorem refl (f : Function) (s : State) : Later f s s := ⟨rfl, id, .refl s⟩

theorem trans (h : Later f s t) (h' : Later f t u) : Later f s u :=
  ⟨h'.table.trans h.table, h'.key ∘ h.key, h.extends_.trans h'.extends_⟩

/-- A part of a sweep that leaves the table as it is leads to a later state. -/
theorem of_composed {ids : String → Prop} {reads : Operand → Prop} {m : SweepM α} {a : α}
    (h : Composed e f l ids reads m) (hrun : m.run s = .ok a t) (htable : t.table = s.table) :
    Later f s t := by
  refine ⟨htable, (h.frame hrun).mem_keys, ?_⟩
  have hextends := h.extends_endState s
  rwa [endState_of_ok hrun] at hextends

/-- A part of a sweep that may update no id leads to a later state. -/
theorem of_quiet {reads : Operand → Prop} {m : SweepM α} {a : α}
    (h : Composed e f l (fun _ ↦ False) reads m) (hrun : m.run s = .ok a t) : Later f s t :=
  .of_composed h hrun (h.quiet _ _ _ hrun)

theorem rangeOf {o : Operand} (hrun : (rangeOf e f l o).run s = .ok r t) : Later f s t := by
  have hcomposed : Composed e f l (fun _ ↦ False) (fun _ ↦ True) (Sweep.rangeOf e f l o) :=
    .read l ⟨⟩
  exact .of_quiet hcomposed hrun

theorem setLog (f : Function) (s : State) (log : Log) : Later f s { s with log := log } :=
  ⟨rfl, id, .of_facts_eq rfl⟩

theorem joinFact {k : Subject} {b : Bool} (hrun : (joinFact f l k r).run s = .ok b t) :
    Later f s t := by
  have hframe : Frame (· = f.name) (fun _ ↦ False) s t := joinFact_frame hrun
  refine ⟨hframe.table_eq, hframe.mem_keys, ?_⟩
  have hextends : Extends s (endState (Sweep.joinFact f l k r) s) := .joinFact k r
  rwa [endState_of_ok hrun] at hextends

theorem forM {act : α → SweepM PUnit} {as : List α}
    (h : ∀ a ∈ as, ∀ s t c, (act a).run s = .ok c t → Later f s t) {c : PUnit}
    (hrun : (as.forM act).run s = .ok c t) : Later f s t := by
  induction as generalizing s with
  | nil =>
    obtain ⟨-, rfl⟩ := run_pure_eq_ok.1 hrun
    exact .refl f s
  | cons a as ih =>
    obtain ⟨_, u, hfirst, hrest⟩ := run_bind_eq_ok.1 hrun
    exact (h a List.mem_cons_self _ _ _ hfirst).trans
      (ih (fun b hb ↦ h b (List.mem_cons_of_mem a hb)) hrest)

end Later

/-! ## Reading -/

def State.Knows (t : State) (f : Function) (l x : String) : Prop :=
  ∃ r, (t.blockFacts f.name l).get? (.var x) = some r

theorem Later.knows (h : Later f s t) (hs : s.Knows f l x) : t.Knows f l x := by
  obtain ⟨r, hr⟩ := hs
  obtain ⟨q, hq, -⟩ := h.extends_.kept _ _ _ r hr
  exact ⟨q, hq⟩

/-- An id has a range with members. -/
def Stored (T : RangeTable String) (id : String) : Prop :=
  ∃ r, T.get? id = some r ∧ r.isEmpty = false

/-- A variable reads an id that is tainted or has a range with members. -/
def Env.Supplies (e : Env) (T : RangeTable String) (f : Function) (x : String) : Prop :=
  ∃ t ids id, e.sources f x t = .ok ids ∧ id ∈ ids ∧
    (e.settings.isTainted id = true ∨ Stored T id)

/-- From a state on, an operand that is read has members. -/
def Env.Yields (e : Env) (f : Function) (l : String) (t : State) (o : Operand) : Prop :=
  ∀ u v r, Later f t u → (rangeOf e f l o).run u = .ok r v → r.isEmpty = false

namespace Env.Yields

variable {o : Operand} {ty : Ty}

/-- An operand that yields members does so later, too. -/
theorem later (h : e.Yields f l s o) (hst : Later f s t) : e.Yields f l t o :=
  fun u v r htu hrun ↦ h u v r (hst.trans htu) hrun

theorem literal {n : Int} {w : Width} : e.Yields f l t (.literal n w) := by
  intro u v r _ hrun
  obtain ⟨-, rfl, -⟩ := run_rangeOf_literal_eq_ok.1 hrun
  exact Range.isEmpty_singleton _ _

theorem symbol {name : String} : e.Yields f l t (.symbol name) :=
  fun _ _ _ _ hrun ↦ absurd hrun run_throw_eq_ok.1

/-- What is no integer is not read. -/
theorem of_isInt (h : ty.isInt = false) : e.Yields f l t (.var x ty) := by
  intro u v r _ hrun
  obtain ⟨w, hw, -⟩ := run_rangeOf_var_eq_ok.1 hrun
  simp [Ty.isInt, hw] at h

theorem of_knows (ht : t.Filled) (h : t.Knows f l x) : e.Yields f l t (.var x ty) := by
  intro u v r hu hrun
  obtain ⟨q, hq⟩ := hu.knows h
  obtain ⟨w, -, ⟨hr, -⟩ | ⟨hnone, -⟩⟩ := run_rangeOf_var_eq_ok.1 hrun
  · exact hu.extends_.filled ht _ _ _ r hr
  · rw [hnone] at hq
    cases hq

/-- The ids that a variable reads do not depend on the type at which it is read. -/
theorem sources_eq (e : Env) (f : Function) (x : String) (t u : Ty) :
    e.sources f x t = e.sources f x u := rfl

/-- A variable with an id behind it in the table yields members. -/
theorem of_supplies (ht : t.Filled) (h : e.Supplies t.table f x) :
    e.Yields f l t (.var x ty) := by
  intro u v r hu hrun
  obtain ⟨w, -, ⟨hr, -⟩ | ⟨-, -, ids, hids, rfl, -⟩⟩ := run_rangeOf_var_eq_ok.1 hrun
  · exact hu.extends_.filled ht _ _ _ r hr
  · obtain ⟨ty', ids', id, hids', hid, hread⟩ := h
    rw [sources_eq e f x ty' ty, hids] at hids'
    cases hids'
    rw [hu.table]
    exact isEmpty_readIds.2 ⟨id, hid, hread⟩

end Env.Yields

/-! ## Values -/

section Values

variable {q : Range} {v : Value}

/-- No divisor that a quotient reads is zero and nothing else. -/
def Env.Divides (e : Env) (f : Function) (l : String) (t : State) (v : Value) : Prop :=
  ∀ ty a b r q u w, v = .binary .udiv ty a b → (rangeOf e f l a).run t = .ok r u →
    (rangeOf e f l b).run u = .ok q w → (r.conform q).constant? ≠ some 0

/-- A cast of an operand that yields members has a range with members. -/
theorem isEmpty_castRange {op : CastOp} {source target : Ty} {o : Operand} {r? : Option Range}
    {os : List Operand} (hos : os ∈ (Value.cast op source o target).supports)
    (hyields : ∀ o ∈ os, e.Yields f l s o)
    (hrun : (castRange e f l op source o target).run s = .ok r? t) :
    ∃ r, r? = some r ∧ r.isEmpty = false := by
  unfold castRange at hrun
  cases op with
  | trunc | zext =>
    simp only [run_bind_eq_ok, run_pure_eq_ok] at hrun
    obtain ⟨r, u, hr, w, _, -, rfl, -⟩ := hrun
    obtain rfl := List.mem_singleton.1 hos
    refine ⟨_, rfl, ?_⟩
    rw [Range.isEmpty_resize]
    exact hyields o List.mem_cons_self s u r (.refl f s) hr
  | sext =>
    simp only [run_bind_eq_ok, run_pure_eq_ok, run_ofExcept_eq_ok] at hrun
    obtain ⟨r, u, hr, w, _, -, q, _, ⟨hq, -⟩, rfl, -⟩ := hrun
    obtain rfl := List.mem_singleton.1 hos
    obtain ⟨-, -, rfl⟩ := Range.signExtendAt_eq_ok.1 hq
    refine ⟨_, rfl, ?_⟩
    rw [Range.isEmpty_signExtend]
    exact hyields o List.mem_cons_self s u r (.refl f s) hr
  | ptrtoint =>
    simp only [run_bind_eq_ok, run_pure_eq_ok] at hrun
    obtain ⟨w, _, -, rfl, -⟩ := hrun
    exact ⟨_, rfl, Range.isEmpty_full w⟩
  | bitcast =>
    simp only [Value.supports] at hos
    split at hos
    · rename_i hint
      rw [Bool.and_eq_true] at hint
      obtain ⟨v, hv⟩ := Option.isSome_iff_exists.1 hint.1
      obtain ⟨w, hw⟩ := Option.isSome_iff_exists.1 hint.2
      simp only [hv, hw, run_bind_eq_ok, run_pure_eq_ok] at hrun
      obtain ⟨r, u, hr, w', _, -, rfl, -⟩ := hrun
      obtain rfl := List.mem_singleton.1 hos
      refine ⟨_, rfl, ?_⟩
      rw [Range.isEmpty_resize]
      exact hyields o List.mem_cons_self s u r (.refl f s) hr
    · cases hos
  | inttoptr => cases hos

/-- If a phi takes a value that has members, then so has the phi. -/
theorem isEmpty_phiRange {entries : List PhiEntry}
    (h : r.isEmpty = false ∨ ∃ entry ∈ entries, e.Yields f entry.label s entry.value)
    (hrun : (phiRange e f ∅ l r entries).run s = .ok q t) : q.isEmpty = false := by
  induction entries generalizing r s with
  | nil =>
    obtain ⟨rfl, -⟩ := run_pure_eq_ok.1 hrun
    exact h.resolve_right fun ⟨_, hmem, _⟩ ↦ List.not_mem_nil hmem
  | cons entry entries ih =>
    simp only [phiRange, run_bind_eq_ok, run_ofExcept_eq_ok] at hrun
    obtain ⟨source, _, ⟨hsource, rfl⟩, hrun⟩ := hrun
    rw [if_neg (OrderedSet.notMem_empty _)] at hrun
    simp only [run_bind_eq_ok] at hrun
    obtain ⟨p, u, hp, p', u', hp', hrun⟩ := hrun
    obtain ⟨log, -, rfl, rfl⟩ := run_conformed_eq_ok.1 hp'
    obtain rfl := target_eq_ok hsource
    refine ih ?_ hrun
    rw [Range.isEmpty_union (Range.width_conform r p).symm, Range.isEmpty_conform,
      Bool.and_eq_false_iff]
    rcases h with hr | ⟨entry', hmem, hyields⟩
    · exact .inl (.inl hr)
    · rcases List.mem_cons.1 hmem with rfl | hmem
      · exact .inl (.inr (hyields _ u p (.refl f _) hp))
      · exact .inr ⟨entry', hmem, hyields.later ((Later.rangeOf hp).trans (.setLog f u log))⟩

/-- A value has a member if all operands of one of the lists that support it have. -/
theorem isEmpty_valueRange {os : List Operand} {r? : Option Range} (hos : os ∈ v.supports)
    (hyields : ∀ o ∈ os, ∀ k, v.ReadsFrom l k o → e.Yields f k s o) (hdiv : e.Divides f l s v)
    (hrun : (valueRange e f ∅ l x v).run s = .ok r? t) :
    ∃ r, r? = some r ∧ r.isEmpty = false := by
  cases v with
  | binary op ty a b =>
    simp only [valueRange, run_bind_eq_ok, run_pure_eq_ok] at hrun
    obtain ⟨r, u, hr, q, w, hq, q', _, hq', rfl, -⟩ := hrun
    obtain ⟨log, -, rfl, rfl⟩ := run_conformed_eq_ok.1 hq'
    obtain rfl := List.mem_singleton.1 hos
    refine ⟨_, rfl, BinaryOp.isEmpty_range (Range.width_conform r q).symm ?_ ?_⟩
    · refine BinaryOp.forall_reads (P := fun o ↦ e.Yields f l s o)
        (Q := fun r : Range ↦ r.isEmpty = false) (fun h ↦ h s u r (.refl f s) hr) (fun h ↦ ?_)
        fun o ho ↦ hyields o ho l rfl
      rw [Range.isEmpty_conform]
      exact h u w q (.rangeOf hr) hq
    · rintro rfl
      exact hdiv ty a b r q u w rfl hr hq
  | compare op ty a b =>
    simp only [valueRange, run_pure_eq_ok] at hrun
    exact ⟨_, hrun.1.symm, Range.isEmpty_full _⟩
  | cast op source o target =>
    exact isEmpty_castRange hos (fun o ho ↦ hyields o ho l rfl) hrun
  | select ty c a b =>
    simp only [Value.supports] at hos
    simp only [valueRange] at hrun
    split at hos
    · rename_i hint
      rw [if_pos hint] at hrun
      simp only [run_bind_eq_ok, run_pure_eq_ok] at hrun
      obtain ⟨r, u, hr, q, w, hq, q', _, hq', rfl, -⟩ := hrun
      obtain ⟨log, -, rfl, rfl⟩ := run_conformed_eq_ok.1 hq'
      refine ⟨_, rfl, ?_⟩
      rw [Range.isEmpty_union (Range.width_conform r q).symm, Range.isEmpty_conform,
        Bool.and_eq_false_iff]
      rcases List.mem_cons.1 hos with rfl | hos
      · exact .inl (hyields a List.mem_cons_self l rfl s u r (.refl f s) hr)
      · obtain rfl := List.mem_singleton.1 hos
        exact .inr (hyields b List.mem_cons_self l rfl u w q (.rangeOf hr) hq)
    · cases hos
  | phi ty entries =>
    simp only [Value.supports] at hos
    split at hos
    · rename_i hint
      obtain ⟨w, hw⟩ := Option.isSome_iff_exists.1 hint
      simp only [valueRange, hw, run_bind_eq_ok, run_pure_eq_ok] at hrun
      obtain ⟨w', _, hw', r, _, hr, rfl, -⟩ := hrun
      obtain ⟨-, rfl⟩ := run_ofExcept_eq_ok.1 hw'
      obtain ⟨entry, hentry, rfl⟩ := List.mem_map.1 hos
      refine ⟨r, rfl, isEmpty_phiRange (.inr ⟨entry, hentry, ?_⟩) hr⟩
      exact hyields entry.value List.mem_cons_self entry.label hentry
    · cases hos
  | load | alloca | field | elem | call => cases hos

end Values

/-! ## Facts that are joined -/

section Joining

variable {b : Bool}

/-- Joining a range with members leaves a fact. -/
theorem knows_of_joinFact (hkey : f.name ∈ s.facts.keys) (hr : r.isEmpty = false)
    (hrun : (joinFact f l (.var x) r).run s = .ok b t) : t.Knows f l x := by
  refine ⟨Range.joinInto ((s.blockFacts f.name l).get? (.var x)) r, ?_⟩
  rw [blockFacts_of_joinFact hkey hrun, Facts.get?_join, if_pos rfl]
  simp [Facts.joined, hr]

/-- Joining facts with members leaves facts. -/
theorem knows_of_joinFacts {m : Facts} {a : Unit} (hkey : f.name ∈ s.facts.keys)
    (hm : m.get? (.var x) = some r) (hr : r.isEmpty = false)
    (hrun : (joinFacts f l m).run s = .ok a t) : t.Knows f l x := by
  simp only [joinFacts, run_bind_eq_ok, run_get_eq_ok] at hrun
  obtain ⟨_, _, ⟨rfl, rfl⟩, hrun⟩ := hrun
  split at hrun
  · obtain rfl := run_modify_eq_ok.1 hrun
    refine ⟨r, ?_⟩
    rw [blockFacts_setBlockFacts hkey, if_pos rfl, OrderedMap.get?_filter, hm]
    simp [hr]
  · rename_i hsize
    clear hsize
    have hentry : (.var x, r) ∈ m.entries := OrderedMap.get?_eq_some_iff.1 hm
    have hjoin (k : Subject × Range) (s t : State) (c : PUnit)
        (h : (do let _ ← joinFact f l k.1 k.2 : SweepM PUnit).run s = .ok c t) :
        ∃ b, (joinFact f l k.1 k.2).run s = .ok b t := by
      obtain ⟨b, _, hjoin, hpure⟩ := run_bind_eq_ok.1 h
      obtain ⟨-, rfl⟩ := run_pure_eq_ok.1 hpure
      exact ⟨b, hjoin⟩
    have hlater (k : Subject × Range) (s t : State) (c : PUnit)
        (h : (do let _ ← joinFact f l k.1 k.2 : SweepM PUnit).run s = .ok c t) : Later f s t :=
      .joinFact (hjoin k s t c h).choose_spec
    generalize m.entries = es at hrun hentry
    induction es generalizing s with
    | nil => cases hentry
    | cons k es ih =>
      obtain ⟨c, u, hfirst, hrest⟩ := run_bind_eq_ok.1 hrun
      rcases List.mem_cons.1 hentry with rfl | hentry
      · obtain ⟨b, hb⟩ := hjoin _ _ _ _ hfirst
        exact (Later.forM (fun k _ ↦ hlater k) hrest).knows (knows_of_joinFact hkey hr hb)
      · exact ih ((hlater k _ _ c hfirst).key hkey) hrest hentry

end Joining

end Sweep

end RangeFlow
