import RangeFlow.Proofs.Check.Definition
import RangeFlow.Proofs.Program.Analysable
import RangeFlow.Proofs.Source.Built
import RangeFlow.Proofs.Sweep.Told

/-!
# Parts of a sweep that do not fail

`Settles A I m Q` says two things of a part `m` of a sweep that starts in a state with the
invariant `I`: if it ends, the invariant holds again and the result is as `Q` says, and under the
assumption `A` it does end.  The invariant of a sweep over a function (`Ground.Sane`) keeps the
facts about integer variables at the width of their type.  The assumption (`Env.Able`) is that the
program can be analysed, and that its integers are short.
-/

namespace RangeFlow

namespace Sweep

/-! ## Rules -/

/-- From the invariant, a part of a sweep that ends keeps it and gives a result as said; and under
an assumption it ends. -/
structure Settles (A : Prop) (I : State → Prop) {α : Type} (m : SweepM α) (Q : α → Prop) :
    Prop where
  keeps : ∀ {s t : State} {a : α}, I s → m.run s = .ok a t → I t ∧ Q a
  returns : A → ∀ {s : State}, I s → ∃ a t, m.run s = .ok a t

namespace Settles

variable {α β : Type} {A : Prop} {I : State → Prop} {m : SweepM α} {P Q : α → Prop}

theorem pure {a : α} (h : Q a) : Settles A I (pure a) Q where
  keeps := by
    intro s t b hs hrun
    obtain ⟨rfl, rfl⟩ := run_pure_eq_ok.1 hrun
    exact ⟨hs, h⟩
  returns := fun _ s _ ↦ ⟨a, s, rfl⟩

/-- A failure needs that the assumption does not hold. -/
theorem throw {x : Fault} (h : ¬A) : Settles A I (throw x) Q where
  keeps := by
    intro s t b hs hrun
    exact absurd hrun run_throw_eq_ok.1
  returns := fun hA ↦ absurd hA h

theorem bind {k : α → SweepM β} {R : β → Prop} (hm : Settles A I m Q)
    (hk : ∀ a, Q a → Settles A I (k a) R) : Settles A I (m >>= k) R where
  keeps := by
    intro s t b hs hrun
    obtain ⟨a, u, hu, ht⟩ := run_bind_eq_ok.1 hrun
    obtain ⟨hI, hQ⟩ := hm.keeps hs hu
    exact (hk a hQ).keeps hI ht
  returns := by
    intro hA s hs
    obtain ⟨a, u, hu⟩ := hm.returns hA hs
    obtain ⟨hI, hQ⟩ := hm.keeps hs hu
    obtain ⟨b, t, ht⟩ := (hk a hQ).returns hA hI
    exact ⟨b, t, run_bind_eq_ok.2 ⟨a, u, hu, ht⟩⟩

theorem mono (hm : Settles A I m P) (h : ∀ a, P a → Q a) : Settles A I m Q where
  keeps := fun hs hrun ↦ ⟨(hm.keeps hs hrun).1, h _ (hm.keeps hs hrun).2⟩
  returns := hm.returns

/-- A computation without a state. -/
theorem ofExcept {x : Except Fault α} (h : ∀ a, x = .ok a → Q a) (hA : A → ∃ a, x = .ok a) :
    Settles A I (ofExcept x) Q where
  keeps := by
    intro s t a hs hrun
    obtain ⟨hx, rfl⟩ := run_ofExcept_eq_ok.1 hrun
    exact ⟨hs, h a hx⟩
  returns := by
    intro hA' s _
    obtain ⟨a, ha⟩ := hA hA'
    exact ⟨a, s, run_ofExcept_eq_ok.2 ⟨ha, rfl⟩⟩

/-- All actions on a list are carried out. -/
theorem anyOf {act : α → SweepM Bool} {as : List α}
    (h : ∀ a ∈ as, Settles A I (act a) fun _ ↦ P a) :
    Settles A I (anyOf act as) fun _ ↦ ∀ a ∈ as, P a := by
  induction as with
  | nil => exact .pure fun _ ha ↦ absurd ha List.not_mem_nil
  | cons a as ih =>
    refine .bind (h a List.mem_cons_self) fun _ ha ↦ ?_
    refine .bind (ih fun b hb ↦ h b (List.mem_cons_of_mem a hb)) fun _ has ↦ ?_
    exact .pure (List.forall_mem_cons.2 ⟨ha, has⟩)

/-- Parts that each settle do so one after the other. -/
theorem forM {act : α → SweepM PUnit} {as : List α}
    (h : ∀ a ∈ as, Settles A I (act a) fun _ ↦ P a) :
    Settles A I (as.forM act) fun _ ↦ ∀ a ∈ as, P a := by
  induction as with
  | nil => exact .pure fun _ ha ↦ absurd ha List.not_mem_nil
  | cons a as ih =>
    refine .bind (h a List.mem_cons_self) fun _ ha ↦ ?_
    refine (ih fun b hb ↦ h b (List.mem_cons_of_mem a hb)).mono fun _ has ↦ ?_
    exact List.forall_mem_cons.2 ⟨ha, has⟩

end Settles

/-! ## Warnings -/

section Log

variable {log : Log} {first second : Range}

/-- A warning ends a run only if it has to, or cannot be written. -/
theorem exists_compare (h : log.mode ≠ .strict) (hfirst : first.width.isShort = true)
    (hsecond : second.width.isShort = true) : ∃ log', log.compare first second = .ok log' := by
  unfold Log.compare
  split
  · rw [Range.isWritable_of_isShort hfirst, Range.isWritable_of_isShort hsecond, Bool.and_self,
      if_pos rfl]
    unfold Log.warn
    cases hmode : log.mode with
    | always | once | silent => exact ⟨_, rfl⟩
    | strict => exact absurd hmode h
  · exact ⟨log, rfl⟩

/-- A joined range can be logged if its width is short and warnings do not end the run. -/
theorem exists_noteJoin {stored : Option Range} (h : log.mode ≠ .strict)
    (hstored : ∀ old, stored = some old → old.width.isShort = true)
    (hsecond : second.width.isShort = true) :
    ∃ log', log.noteJoin stored second = .ok log' := by
  unfold Log.noteJoin
  split
  · rename_i old
    split
    · exact ⟨log, rfl⟩
    · exact exists_compare h (hstored old rfl) hsecond
  · exact ⟨log, rfl⟩

end Log

/-- A joined range has the width of the one that is stored. -/
theorem width_joinInto {stored : Option Range} {r : Range} :
    (Range.joinInto stored r).width = (stored.getD r).width := by
  cases stored with
  | none => rfl
  | some old => exact Range.width_union (Range.width_conform old r).symm

/-! ## The table -/

/-- The program can be analysed, and its integers are short. -/
def Env.Able (e : Env) : Prop := e.program.IsAnalysable ∧ e.program.isShort = true

/-- Warnings do not end the run, and the ranges in the table are short. -/
structure Env.Calm (e : Env) (s : State) : Prop where
  mode : s.log.mode ≠ .strict
  table : e.Able → ∀ id r, s.table.get? id = some r → r.width.isShort = true

theorem isShort_union {t : RangeTable String} {id : String} {r : Range}
    (ht : ∀ id r, t.get? id = some r → r.width.isShort = true) (hr : r.width.isShort = true) :
    ∀ id' r', (t.union id r).1.get? id' = some r' → r'.width.isShort = true := by
  intro id' r' hr'
  rcases t.union_cases id r with ⟨hu, -⟩ | ⟨hu, -⟩
  · rw [hu] at hr'
    exact ht id' r' hr'
  · rw [hu] at hr'
    change OrderedMap.get? (t.ranges.insert id (t.joined id r)) id' = some r' at hr'
    rw [OrderedMap.get?_insert] at hr'
    split at hr'
    · cases hr'
      rw [RangeTable.joined, width_joinInto]
      cases hold : t.get? id with
      | none => exact hr
      | some old => exact ht id old hold
    · exact ht id' r' hr'

/-- An update can be logged if the range is short and its origin can be written. -/
theorem exists_logUpdate {t : RangeTable String} {log : Log} {id : String} {r : Range}
    {origin : Option Origin} (h : log.mode ≠ .strict)
    (ht : ∀ id r, t.get? id = some r → r.width.isShort = true) (hr : r.width.isShort = true)
    (horigin : ∀ o, origin = some o → o.instr.isWritable = true) :
    ∃ log', t.logUpdate log id r origin = .ok log' := by
  unfold RangeTable.logUpdate
  obtain ⟨log', hlog'⟩ := exists_noteJoin h (fun old ↦ ht id old) hr
  rw [hlog']
  have hjoined : (t.joined id r).width.isShort = true := by
    rw [RangeTable.joined, width_joinInto]
    cases hold : t.get? id with
    | none => exact hr
    | some old => exact ht id old hold
  have htrace : t.canTrace id r origin = true := by
    unfold RangeTable.canTrace
    rw [Range.isWritable_of_isShort hr, Range.isWritable_of_isShort hjoined]
    cases hold : t.get? id with
    | none => cases origin <;> simp_all
    | some old =>
      have := Range.isWritable_of_isShort (ht id old hold)
      cases origin <;> simp_all
  simp only [bind, Except.bind, htrace, if_true]
  split
  · exact ⟨_, rfl⟩
  · exact ⟨_, rfl⟩

theorem Env.Calm.offer {e : Env} {s t : State} {id : String} {r : Range} {origin : Option Origin}
    {b : Bool} (hs : e.Calm s) (hr : e.Able → r.width.isShort = true)
    (h : (offer id r origin).run s = .ok b t) : e.Calm t := by
  obtain ⟨log, hlog, -, rfl⟩ := run_offer_eq_ok.1 h
  refine ⟨?_, fun hA ↦ isShort_union (hs.table hA) (hr hA)⟩
  rw [RangeTable.mode_logUpdate hlog]
  exact hs.mode

/-- An offer of a short range does not fail in a calm state. -/
theorem Env.Calm.exists_offer {e : Env} {s : State} {id : String} {r : Range}
    {origin : Option Origin} (hs : e.Calm s) (hA : e.Able) (hr : r.width.isShort = true)
    (horigin : ∀ o, origin = some o → o.instr.isWritable = true) :
    ∃ b t, (Sweep.offer id r origin).run s = .ok b t := by
  obtain ⟨log, hlog⟩ := exists_logUpdate hs.mode (hs.table hA) hr horigin
  exact ⟨_, _, run_offer_eq_ok.2 ⟨log, hlog, rfl, rfl⟩⟩

/-! ## The facts of a function -/

/-- A function of an accepted program that was read from a text. -/
structure Ground where
  env : Env
  fn : Function
  types : OrderedMap String Ty
  loops : OrderedSet Edge
  sound : env.program.isSound = true
  mem : fn ∈ env.program.functions
  modeled : env.unmodeled = []
  typing : Typing fn types
  typed : ∀ i ∈ fn.instrs, i.action.IsTyped
  loops_eq : fn.backEdges = .ok loops

namespace Ground

variable {c : Ground} {s t : State} {l : String}

/-- It is known where the facts about a variable come from. -/
def Located (c : Ground) (x : String) : Prop :=
  ∃ l, c.env.program.valueLocation c.fn (.var x .void) = .ok l

/-- A fact about a subject can have this width.  Facts about an integer variable have the width of
its type. -/
structure Fits (c : Ground) (k : Subject) (w : Width) : Prop where
  short : c.env.Able → w.isShort = true
  typed : ∀ x u, k = .var x → c.types.get? x = some (.int u) → w = u ∧ c.Located x

/-- All facts of a block can have their widths. -/
def AllFit (c : Ground) (m : Facts) : Prop := ∀ k r, m.get? k = some r → c.Fits k r.width

/-- What a sweep over the function keeps. -/
structure Sane (c : Ground) (s : State) : Prop extends c.env.Calm s where
  key : c.fn.name ∈ s.facts.keys
  facts : ∀ l, c.AllFit (s.blockFacts c.fn.name l)

theorem AllFit.insert {m : Facts} {k : Subject} {r : Range} (h : c.AllFit m)
    (hr : c.Fits k r.width) : c.AllFit (m.insert k r) :=
  Facts.AllHave.insert h hr

theorem AllFit.insertAll {m : Facts} {n : Facts} (h : c.AllFit m)
    (hn : c.AllFit n) : c.AllFit (m.insertAll n.entries) :=
  Facts.AllHave.insertAll h hn

/-- Facts still fit after a range that fits is joined. -/
theorem AllFit.join {m : Facts} {k : Subject} {r : Range} (h : c.AllFit m)
    (hr : c.Fits k r.width) : c.AllFit (m.join k r).1 :=
  Facts.AllHave.join h hr

theorem AllFit.filter {m : Facts} (h : c.AllFit m) (p : Subject × Range → Bool) :
    c.AllFit (m.filter p) :=
  Facts.AllHave.filter h p

theorem AllFit.empty : c.AllFit ∅ := Facts.AllHave.empty

/-- The facts of a block can be replaced. -/
theorem Sane.setBlockFacts (hs : c.Sane s) {m : Facts} (hm : c.AllFit m) :
    c.Sane (s.setBlockFacts c.fn.name l m) where
  mode := hs.mode
  table := hs.table
  key := by
    unfold State.setBlockFacts
    rw [OrderedMap.keys_modify]
    exact hs.key
  facts := by
    intro k
    rw [blockFacts_setBlockFacts hs.key]
    split
    · exact hm
    · exact hs.facts k

theorem Sane.setLog (hs : c.Sane s) {log : Log} (h : log.mode = s.log.mode) :
    c.Sane { s with log := log } where
  mode := by
    rw [h]
    exact hs.mode
  table := hs.table
  key := hs.key
  facts := hs.facts

abbrev Settles (c : Ground) {α : Type} (m : SweepM α) (Q : α → Prop) : Prop :=
  Sweep.Settles c.env.Able c.Sane m Q

/-- Two ranges are given one width without a failure if both are short. -/
theorem conformed_settles {first second : Range} (hfirst : c.env.Able → first.width.isShort = true)
    (hsecond : c.env.Able → second.width.isShort = true) :
    c.Settles (conformed first second) fun r ↦ r = first.conform second where
  keeps := by
    intro s t r hs hrun
    obtain ⟨log, hlog, rfl, rfl⟩ := run_conformed_eq_ok.1 hrun
    exact ⟨hs.setLog (Log.mode_compare hlog), rfl⟩
  returns := by
    intro hA s hs
    obtain ⟨log, hlog⟩ := exists_compare hs.mode (hfirst hA) (hsecond hA)
    exact ⟨_, _, run_conformed_eq_ok.2 ⟨log, hlog, rfl, rfl⟩⟩

theorem joinFact_settles {k : Subject} {r : Range} (hr : c.Fits k r.width) :
    c.Settles (joinFact c.fn l k r) fun _ ↦ True where
  keeps := by
    intro s t b hs hrun
    obtain ⟨log, hlog, -, rfl⟩ := run_joinFact_eq_ok.1 hrun
    refine ⟨?_, ⟨⟩⟩
    have hjoin : c.Sane (s.afterJoin c.fn l k r) := by
      unfold State.afterJoin
      dsimp only
      split
      · exact hs.setBlockFacts ((hs.facts l).join hr)
      · exact hs
    refine hjoin.setLog ?_
    rw [Log.mode_noteJoin hlog]
    unfold State.afterJoin
    dsimp only
    split <;> rfl
  returns := by
    intro hA s hs
    obtain ⟨log, hlog⟩ := exists_noteJoin hs.mode (fun old hold ↦ (hs.facts l k old hold).short hA)
      (hr.short hA)
    exact ⟨_, _, run_joinFact_eq_ok.2 ⟨log, hlog, rfl, rfl⟩⟩

theorem joinFacts_settles {m : Facts} (hm : c.AllFit m) :
    c.Settles (joinFacts c.fn l m) fun _ ↦ True := by
  have hentries : c.Settles (m.entries.forM fun e ↦ do let _ ← joinFact c.fn l e.1 e.2)
      fun _ ↦ True := by
    refine (Settles.forM (P := fun _ ↦ True) fun e hmem ↦ ?_).mono fun _ _ ↦ ⟨⟩
    refine .bind (joinFact_settles ?_) fun _ _ ↦ .pure ⟨⟩
    exact hm e.1 e.2 (OrderedMap.get?_eq_some_iff.2 hmem)
  constructor
  · intro s t a hs hrun
    simp only [joinFacts, run_bind_eq_ok, run_get_eq_ok] at hrun
    obtain ⟨_, _, ⟨rfl, rfl⟩, hrun⟩ := hrun
    split at hrun
    · obtain rfl := run_modify_eq_ok.1 hrun
      exact ⟨hs.setBlockFacts (hm.filter _), ⟨⟩⟩
    · exact hentries.keeps hs hrun
  · intro hA s hs
    simp only [joinFacts, run_bind_eq_ok, run_get_eq_ok]
    by_cases hsize : (s.blockFacts c.fn.name l).size = 0
    · exact ⟨⟨⟩, _, s, s, ⟨rfl, rfl⟩, by rw [if_pos hsize]; exact run_modify_eq_ok.2 rfl⟩
    · obtain ⟨a, t, ht⟩ := hentries.returns hA hs
      exact ⟨a, t, s, s, ⟨rfl, rfl⟩, by rw [if_neg hsize]; exact ht⟩

/-- A short range can be offered with an origin that can be written. -/
theorem offer_settles {id : String} {r : Range} {origin : Option Origin}
    (hr : c.env.Able → r.width.isShort = true)
    (horigin : c.env.Able → ∀ o, origin = some o → o.instr.isWritable = true) :
    c.Settles (offer id r origin) fun _ ↦ True where
  keeps := by
    intro s t b hs hrun
    have hcalm := hs.toCalm.offer hr hrun
    obtain ⟨log, -, -, rfl⟩ := run_offer_eq_ok.1 hrun
    exact ⟨⟨hcalm, hs.key, hs.facts⟩, ⟨⟩⟩
  returns := fun hA s hs ↦ hs.exists_offer hA (hr hA) (horigin hA)

/-! ## Operands -/

/-- An operand that the function reads: a variable is read at its type. -/
structure Reads (c : Ground) (o : Operand) : Prop where
  type : ∀ x t, o = .var x t → c.types.get? x = some t
  short : c.env.Able → o.ty.isShort = true

/-- The range of an operand has the width of its type. -/
structure Gives (c : Ground) (o : Operand) (r : Range) : Prop where
  ty : o.ty = .int r.width
  short : c.env.Able → r.width.isShort = true
  located : ∀ x t, o = .var x t → c.Located x

/-- The range of a variable fits as a fact about it. -/
theorem Gives.fits {x : String} {ty : Ty} {r : Range} (h : c.Gives (.var x ty) r)
    (hr : c.Reads (.var x ty)) : c.Fits (.var x) r.width where
  short := h.short
  typed := by
    intro y u hy hu
    cases hy
    rw [hr.type x ty rfl, Option.some.injEq] at hu
    have hwidth := h.ty.symm.trans hu
    cases hwidth
    exact ⟨rfl, h.located x ty rfl⟩

/-- A function reads the operands of its instructions. -/
theorem reads_of_mem {i : Instr} (hi : i ∈ c.fn.instrs) {o : Operand} (ho : o ∈ i.operands) :
    c.Reads o where
  type := by
    rintro x t rfl
    exact Function.get?_type_of_isSound c.sound c.mem c.typing hi ho
  short := fun hA ↦ Instr.operand_isShort (Program.instr_isShort hA.2 c.mem hi) ho

theorem reads_of_assign {i : Instr} (hi : i ∈ c.fn.instrs) {x : String} {v : Value}
    (ha : i.action = .assign x v) : c.Reads (.var x v.ty) where
  type := by
    intro y t hy
    cases hy
    exact c.typing.result i hi x v ha
  short := fun hA ↦ Instr.value_isShort (Program.instr_isShort hA.2 c.mem hi) ha

/-- The function can be analysed where the program can. -/
theorem isAnalysable_of_able (hA : c.env.Able) {b : Block} (hb : b ∈ c.fn.blocks) {i : Instr}
    (hi : i ∈ b.instrs) : i.action.IsAnalysable c.fn c.loops b.label :=
  hA.1.functions c.fn c.mem c.loops c.loops_eq b hb i hi

/-- An address whose definitions end has a location, if there is one. -/
theorem exists_memoryLocation_of_able (hA : c.env.Able) {o : Operand} (h : c.fn.Ends o) :
    ∃ l, c.env.program.memoryLocation c.fn o = .ok l :=
  Program.exists_memoryLocation h fun _ hi _ _ _ _ ha ↦
    Instr.field_isWritable (Program.instr_isShort hA.2 c.mem hi) ha

/-- The address of a load of an integer can be followed where the program can be analysed. -/
theorem located_of_able (hA : c.env.Able) {x : String} {w : Width}
    (hx : c.types.get? x = some (.int w)) : c.Located x := by
  unfold Located Program.valueLocation
  dsimp only
  split
  · exact ⟨_, rfl⟩
  · split
    · rename_i ty address hdef
      obtain ⟨i, hi, ha⟩ := mem_instrs_of_definition? hdef
      obtain ⟨b, hb, hib⟩ := List.mem_flatMap.1 hi
      have hload := isAnalysable_of_able hA hb hib
      rw [ha] at hload
      have hty := c.typing.result i hi x _ ha
      rw [hx, Option.some.injEq] at hty
      have hint : ty.isInt = true := by
        change Ty.int w = ty at hty
        rw [← hty]
        rfl
      exact exists_memoryLocation_of_able hA (hload hint)
    · exact ⟨_, rfl⟩
    · exact ⟨_, rfl⟩

/-- The ids behind a variable are found exactly if its definitions end. -/
theorem exists_sources_iff {x : String} {ty : Ty} :
    (∃ ids, c.env.sources c.fn x ty = .ok ids) ↔ c.Located x := by
  have hty : c.env.program.valueLocation c.fn (.var x ty) =
      c.env.program.valueLocation c.fn (.var x .void) := rfl
  unfold Env.sources Located
  rw [hty]
  cases c.env.program.valueLocation c.fn (.var x .void) with
  | error e => simp [bind, Except.bind]
  | ok l => simp [bind, Except.bind, pure, Except.pure]

/-- The range of an operand is found if it is an integer, and has its width. -/
theorem rangeOf_settles {o : Operand} (ho : c.Reads o) (hint : c.env.Able → o.ty.isInt = true) :
    c.Settles (rangeOf c.env c.fn l o) (c.Gives o) := by
  cases o with
  | symbol name =>
    refine .throw fun hA ↦ ?_
    cases hint hA
  | literal v w =>
    constructor
    · intro s t r hs hrun
      obtain ⟨-, rfl, rfl⟩ := run_rangeOf_literal_eq_ok.1 hrun
      refine ⟨hs, ⟨?_, ?_, ?_⟩⟩
      · rw [Range.width_singleton]
        rfl
      · rw [Range.width_singleton]
        exact ho.short
      · rintro x ty ⟨⟩
    · intro hA s hs
      exact ⟨_, s, run_rangeOf_literal_eq_ok.2
        ⟨Width.countable_of_isShort (ho.short hA), rfl, rfl⟩⟩
  | var x ty =>
    constructor
    · intro s t r hs hrun
      obtain ⟨w, hty, hrun⟩ := run_rangeOf_var_eq_ok.1 hrun
      obtain rfl : ty = .int w := by
        cases ty <;> simp_all [Ty.width?]
      have hx := ho.type x _ rfl
      rcases hrun with ⟨hr, rfl⟩ | ⟨-, -, ids, hids, rfl, rfl⟩
      · have hfits := hs.facts l _ r hr
        obtain ⟨hw, hlocated⟩ := hfits.typed x w rfl hx
        refine ⟨hs, ⟨by rw [hw]; rfl, hfits.short, ?_⟩⟩
        rintro y u hy
        cases hy
        exact hlocated
      · have hgives : c.Gives (.var x (.int w)) (c.env.readIds s.table w ids) := by
          refine ⟨by rw [width_readIds]; rfl, fun hA ↦ by rw [width_readIds]; exact ho.short hA, ?_⟩
          rintro y u hy
          cases hy
          exact exists_sources_iff.1 ⟨ids, hids⟩
        refine ⟨?_, hgives⟩
        unfold State.afterRead
        split
        · exact hs
        · exact hs.setBlockFacts ((hs.facts l).insert (hgives.fits ho))
    · intro hA s hs
      obtain ⟨w, rfl⟩ : ∃ w, ty = .int w := by
        have := hint hA
        cases ty <;> simp_all [Operand.ty, Ty.isInt, Ty.width?]
      cases hfact : (s.blockFacts c.fn.name l).get? (.var x) with
      | some r => exact ⟨r, s, run_rangeOf_var_eq_ok.2 ⟨w, rfl, .inl ⟨hfact, rfl⟩⟩⟩
      | none =>
        obtain ⟨ids, hids⟩ := exists_sources_iff.2 (located_of_able hA (ho.type x _ rfl))
        exact ⟨_, _, run_rangeOf_var_eq_ok.2 ⟨w, rfl, .inr
          ⟨hfact, Width.countable_of_isShort (ho.short hA), ids, hids, rfl, rfl⟩⟩⟩

end Ground

end Sweep

end RangeFlow
