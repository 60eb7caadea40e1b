import RangeFlow.Proofs.Program.LoopFree
import RangeFlow.Proofs.Sweep.Fixpoint
import RangeFlow.Proofs.Sweep.Refine

/-!
# What the facts of a block tell

In integer code without loops the table is read for parameters only.  A sweep that does not change
the table then leaves what the facts of a block tell as it is, except of the variables that it sets
there (`Gains`): a parameter without a fact may get one, but it repeats what the table tells.
Facts that cover the words of a run (`Covers`) therefore cover them in the rest of the sweep.
-/

namespace RangeFlow

namespace Facts

/-- A fact after a range, if there is one, is joined to it. -/
def joined (old new : Option Range) : Option Range :=
  match new with
  | some r => if r.isEmpty then old else some (Range.joinInto old r)
  | none => old

/-- A joined range changes the fact about its subject only. -/
theorem get?_join (m : Facts) (k j : Subject) (r : Range) :
    (m.join k r).1.get? j = joined (m.get? j) (if j = k then some r else none) := by
  unfold join joined
  dsimp only
  by_cases hjk : j = k
  · subst hjk
    rw [if_pos rfl]
    dsimp only
    by_cases hr : r.isEmpty
    · simp [hr]
    · by_cases hm : m.get? j = some (Range.joinInto (m.get? j) r)
      · rw [if_pos (by simp [← hm]), if_neg hr]
        exact hm
      · rw [if_neg (by simp [hr, hm]), if_neg hr]
        exact OrderedMap.get?_insert_self _ _ _
  · rw [if_neg hjk]
    dsimp only
    split
    · rfl
    · exact OrderedMap.get?_insert_of_ne _ _ hjk

/-- A fact after joining has the width of the one before, or of the range. -/
theorem exists_of_joined {old new : Option Range} {r : Range} (h : joined old new = some r) :
    ∃ q, q.width = r.width ∧ (old = some q ∨ new = some q ∧ q.isEmpty = false) := by
  unfold joined at h
  split at h
  · rename_i q
    split at h
    · exact ⟨r, rfl, .inl h⟩
    · rename_i hne
      cases old with
      | none =>
        cases h
        exact ⟨q, rfl, .inr ⟨rfl, Bool.eq_false_iff.2 hne⟩⟩
      | some old =>
        cases h
        exact ⟨old, (Range.width_union (Range.width_conform old q).symm).symm, .inl rfl⟩
  · exact ⟨r, rfl, .inl h⟩

/-- Joining keeps the members of a fact. -/
theorem exists_joined_of_old (old : Range) (new : Option Range) :
    ∃ r, joined (some old) new = some r ∧ r.width = old.width ∧ ∀ n ∈ old, n ∈ r := by
  unfold joined
  split
  · rename_i r
    split
    · exact ⟨old, rfl, rfl, fun _ ↦ id⟩
    · have hw := (Range.width_conform old r).symm
      exact ⟨_, rfl, Range.width_union hw, fun n hn ↦ Range.mem_union hw (.inl hn)⟩
  · exact ⟨old, rfl, rfl, fun _ ↦ id⟩

/-- Joining at one width adds members. -/
theorem exists_joined_of_new (old : Option Range) {new : Range} {n : Nat} (hn : n ∈ new)
    (hw : ∀ r, old = some r → r.width = new.width) :
    ∃ r, joined old (some new) = some r ∧ r.width = new.width ∧ n ∈ r := by
  unfold joined
  dsimp only
  rw [Range.not_isEmpty_of_mem hn]
  cases old with
  | none => exact ⟨new, rfl, rfl, hn⟩
  | some r =>
    have hw := hw r rfl
    have hconform : r.conform new = new := if_pos hw
    refine ⟨_, rfl, ?_, ?_⟩
    · rw [Range.joinInto, hconform, Range.width_union hw, hw]
    · rw [Range.joinInto, hconform]
      exact Range.mem_union hw (.inr hn)

/-- All facts have a width that is allowed for their subject. -/
def AllHave (P : Subject → Width → Prop) (m : Facts) : Prop :=
  ∀ k r, m.get? k = some r → P k r.width

namespace AllHave

variable {P : Subject → Width → Prop} {m n : Facts} {k : Subject} {r : Range}

theorem empty : AllHave P ∅ := by
  intro k r hr
  cases hr

theorem insert (h : m.AllHave P) (hr : P k r.width) : AllHave P (m.insert k r) := by
  intro j q hq
  rw [OrderedMap.get?_insert] at hq
  split at hq
  · rename_i hj
    cases hq
    exact hj ▸ hr
  · exact h j q hq

/-- Facts with the property may be put over others with it. -/
theorem insertAll (h : m.AllHave P) (hn : n.AllHave P) : AllHave P (m.insertAll n.entries) := by
  intro k r hr
  rcases OrderedMap.get?_insertAll_cases hr with hr | hr
  · exact h k r hr
  · exact hn k r (OrderedMap.get?_eq_some_iff.2 hr)

theorem join (h : m.AllHave P) (hr : P k r.width) : AllHave P (m.join k r).1 := by
  intro j q hq
  rw [get?_join] at hq
  obtain ⟨old, hwidth, hold | ⟨hnew, -⟩⟩ := exists_of_joined hq
  · exact hwidth ▸ h j old hold
  · split at hnew
    · rename_i hj
      cases hnew
      exact hwidth ▸ hj ▸ hr
    · cases hnew

theorem filter (h : m.AllHave P) (p : Subject × Range → Bool) : AllHave P (m.filter p) := by
  intro k r hr
  rw [OrderedMap.get?_filter, Option.filter_eq_some_iff] at hr
  exact h k r hr.1

end AllHave

end Facts

namespace Sweep

/-- The facts of one block are replaced, and those of the others stay. -/
theorem blockFacts_setBlockFacts {s : State} {g : String} (h : g ∈ s.facts.keys) (l k : String)
    (m : Facts) :
    (s.setBlockFacts g l m).blockFacts g k = if k = l then m else s.blockFacts g k := by
  obtain ⟨blocks, hblocks⟩ := Option.isSome_iff_exists.1 (OrderedMap.get?_isSome_iff.2 h)
  unfold State.blockFacts State.setBlockFacts
  rw [OrderedMap.get?_modify, if_pos rfl, hblocks, Option.map_some, Option.bind_some,
    OrderedMap.get?_insert, Option.bind_some]
  split <;> rfl

/-- The facts of a block after a range is joined to one of them. -/
theorem blockFacts_of_joinFact {f : Function} {l : String} {k : Subject} {r : Range} {b : Bool}
    {s t : State} (hkey : f.name ∈ s.facts.keys) (h : (joinFact f l k r).run s = .ok b t) :
    t.blockFacts f.name l = ((s.blockFacts f.name l).join k r).1 := by
  obtain ⟨log, -, -, rfl⟩ := run_joinFact_eq_ok.1 h
  show (s.afterJoin f l k r).blockFacts f.name l = _
  unfold State.afterJoin
  dsimp only
  split
  · rw [blockFacts_setBlockFacts hkey, if_pos rfl]
  · rename_i hgrew
    -- A fact that does not grow is left as it is.
    unfold Facts.join at hgrew ⊢
    dsimp only at hgrew ⊢
    split at hgrew
    · rename_i hsame
      rw [if_pos hsame]
    · simp at hgrew

theorem blockFacts_beginFunction (f : Function) (s : State) (l : String) :
    (beginFunction f s).blockFacts f.name l = ∅ := by
  unfold State.blockFacts beginFunction
  rw [OrderedMap.get?_insert_self, Option.bind_some]
  cases hn : (OrderedMap.ofList (f.labels.map fun l ↦ (l, (∅ : Facts)))).get? l with
  | none => rfl
  | some n =>
    rcases OrderedMap.get?_insertAll_cases hn with hnone | hmem
    · cases hnone
    · obtain ⟨k, -, heq⟩ := List.mem_map.1 hmem
      cases heq
      rfl

/-! ## Reading the table -/

/-- The ids whose ranges a variable reads in integer code: that of a parameter. -/
def argIds (f : Function) (x : String) : List String :=
  ((f.paramIndex? x).map fun n ↦ (Location.arg f.name n).id).toList

section Sources

variable {e : Env} {f : Function} {types : OrderedMap String Ty} {x : String}

theorem call?_of_isPlain {i : Instr} (h : i.isPlain = true) : i.call? = none := by
  unfold Instr.isPlain at h
  unfold Instr.call?
  split
  · rename_i ha
    simp [ha, Value.isPlain] at h
  · rename_i ha
    simp [ha] at h
  · rfl

/-- In an orderly function no variable is the result of a call. -/
theorem resultOf_eq_nil (ho : Orderly f types) : e.resultOf f x = [] := by
  unfold Env.resultOf
  split
  · rename_i site i hlast
    have hmem := (List.mem_filter.1 (List.mem_of_getLast? hlast)).1
    obtain ⟨b, hb, hsite⟩ := List.mem_flatMap.1 hmem
    rw [call?_of_isPlain (ho.plain i (mem_instrs_of_mem_sites hb hsite))]
    rfl
  · rfl

/-- In an orderly function the location of a variable is that of the parameter, if it is one. -/
theorem valueLocation_eq (ho : Orderly f types) (ty : Ty) : e.program.valueLocation f (.var x ty) =
    .ok ((f.paramIndex? x).map fun n ↦ .arg f.name n) := by
  unfold Program.valueLocation
  dsimp only
  cases hn : f.paramIndex? x with
  | some n => rfl
  | none =>
    cases hdef : f.definition? x with
    | none => rfl
    | some v =>
      obtain ⟨i, hi, ha⟩ := mem_instrs_of_definition? hdef
      have hplain := ho.plain i hi
      simp only [Instr.isPlain, ha] at hplain
      cases v with
      | load | call => cases hplain
      | binary | compare | cast | select | phi | alloca | field | elem => rfl

/-- In an orderly function only parameters have ids behind them. -/
theorem sources_eq (ho : Orderly f types) (ty : Ty) : e.sources f x ty = .ok (argIds f x) := by
  unfold Env.sources
  rw [valueLocation_eq ho, resultOf_eq_nil ho]
  cases hn : f.paramIndex? x <;> simp [argIds, hn, bind, Except.bind, pure, Except.pure]

theorem width_storedAt (t : RangeTable String) (w : Width) (id : String) :
    (storedAt t w id).width = w := by
  unfold storedAt
  split
  · exact Range.width_resize _ _
  · rfl

/-- What is read from the table has the width asked for. -/
theorem width_readIds (t : RangeTable String) (w : Width) (ids : List String) :
    (e.readIds t w ids).width = w := by
  unfold Env.readIds
  split
  · rfl
  · exact width_foldl_union (storedAt t w) (width_storedAt t w) ids (.empty w) rfl

end Sources

/-! ## Scopes -/

/-- A function of integer code without loops, and a table that sweeps over it do not change. -/
structure Scope where
  env : Env
  fn : Function
  types : OrderedMap String Ty
  table : RangeTable String
  orderly : Orderly fn types

namespace Scope

variable {c : Scope} {X Y : String → Prop} {m m' m'' : Facts} {ρ : Values} {s t u : State}

/-- What the table tells of a variable at a width: of a parameter what is stored for it, of any
other variable nothing. -/
def paramRange (c : Scope) (x : String) (w : Width) : Range :=
  c.env.readIds c.table w (argIds c.fn x)

@[simp] theorem width_paramRange (x : String) (w : Width) : (c.paramRange x w).width = w :=
  width_readIds _ _ _

/-- What facts, and the table if there is no fact, tell of a variable at a width. -/
def told (c : Scope) (m : Facts) (x : String) (w : Width) : Range :=
  (m.get? (.var x)).getD (c.paramRange x w)

/-- A variable can be read at a width. -/
def Fits (c : Scope) (x : String) (w : Width) : Prop :=
  ∀ t, c.types.get? x = some t → t = .int w

/-- Facts about variables have the widths of their types. -/
def Typed (c : Scope) (m : Facts) : Prop :=
  ∀ x r, m.get? (.var x) = some r → c.types.get? x = some (.int r.width)

/-- Facts about an integer variable have the width of its type. -/
theorem Typed.width_eq (h : c.Typed m) {x : String} {r : Range} (hr : m.get? (.var x) = some r)
    {w : Width} (hx : c.Fits x w) : r.width = w := Ty.int.inj (hx _ (h x r hr))

/-- A range that can be joined to the fact about a variable: it is empty, or of its type. -/
def Apt (c : Scope) (x : String) (r : Range) : Prop :=
  r.isEmpty = true ∨ c.types.get? x = some (.int r.width)

/-- Facts keep their types as apt ranges are joined to them. -/
theorem Typed.of_joined (h : c.Typed m) {new : String → Option Range}
    (hnew : ∀ x r, new x = some r → c.Apt x r)
    (hget : ∀ x, m'.get? (.var x) = Facts.joined (m.get? (.var x)) (new x)) : c.Typed m' := by
  intro x r hr
  rw [hget] at hr
  obtain ⟨q, hq, hold | ⟨hq', hne⟩⟩ := Facts.exists_of_joined hr
  · rw [← hq]
    exact h x q hold
  · rw [← hq]
    exact (hnew x q hq').resolve_left (by simp [hne])

/-- The words that variables hold are among those that facts tell. -/
def Covers (c : Scope) (m : Facts) (ρ : Values) : Prop :=
  ∀ x v, c.Fits x v.width → ρ x = some v → v.val ∈ c.told m x v.width

/-- Facts about variables outside a set are kept, and new ones repeat what the table tells. -/
structure Gains (c : Scope) (X : String → Prop) (m m' : Facts) : Prop where
  kept : ∀ x r, ¬X x → m.get? (.var x) = some r → m'.get? (.var x) = some r
  new : ∀ x r, ¬X x → m.get? (.var x) = none → m'.get? (.var x) = some r →
    r = c.paramRange x r.width

namespace Gains

theorem refl (m : Facts) : c.Gains X m m := by
  refine ⟨fun _ _ _ ↦ id, fun x r _ hnone hsome ↦ ?_⟩
  rw [hnone] at hsome
  cases hsome

theorem trans (h : c.Gains X m m') (h' : c.Gains X m' m'') : c.Gains X m m'' := by
  refine ⟨fun x r hx hr ↦ h'.kept x r hx (h.kept x r hx hr), fun x r hx hnone hr ↦ ?_⟩
  cases hm' : m'.get? (.var x) with
  | none => exact h'.new x r hx hm' hr
  | some r' =>
    have := h'.kept x r' hx hm'
    rw [hr] at this
    cases this
    exact h.new x r hx hnone hm'

theorem mono (h : c.Gains X m m') (hXY : ∀ x, X x → Y x) : c.Gains Y m m' :=
  ⟨fun x r hx ↦ h.kept x r fun hX ↦ hx (hXY x hX), fun x r hx ↦ h.new x r fun hX ↦ hx (hXY x hX)⟩

theorem of_forall (h : ∀ x, X x) : c.Gains X m m' :=
  ⟨fun x _ hx ↦ absurd (h x) hx, fun x _ hx ↦ absurd (h x) hx⟩

/-- What is told of a variable outside the set stays. -/
theorem told_eq (h : c.Gains X m m') (ht : c.Typed m') {x : String} (hX : ¬X x) {w : Width}
    (hx : c.Fits x w) : c.told m' x w = c.told m x w := by
  unfold told
  cases hm : m.get? (.var x) with
  | some r => rw [h.kept x r hX hm]
  | none =>
    cases hm' : m'.get? (.var x) with
    | none => rfl
    | some r =>
      obtain rfl := ht.width_eq hm' hx
      exact h.new x r hX hm hm'

end Gains

/-- Words stay covered as long as the variables that hold them are left alone. -/
theorem Covers.gains (h : c.Covers m ρ) (ht : c.Typed m') (hg : c.Gains X m m')
    (hX : ∀ x, X x → ρ x = none) : c.Covers m' ρ := by
  intro x v hx hv
  have hnot : ¬X x := by
    intro hXx
    rw [hX x hXx] at hv
    cases hv
  rw [hg.told_eq ht hnot hx]
  exact h x v hx hv

/-! ## States -/

variable {W : String → String → Prop} {l : String} {r : Range}

def facts (c : Scope) (s : State) (l : String) : Facts := s.blockFacts c.fn.name l

/-- A state of a sweep over the function. -/
structure Good (c : Scope) (s : State) : Prop where
  table : s.table = c.table
  key : c.fn.name ∈ s.facts.keys
  typed : ∀ l, c.Typed (c.facts s l)

/-- A part of a sweep that sets facts about given variables of given blocks. -/
structure Moves (c : Scope) (W : String → String → Prop) (s t : State) : Prop where
  good : c.Good t
  gains : ∀ l, c.Gains (W l) (c.facts s l) (c.facts t l)

/-- No variable of any block. -/
def nothing : String → String → Prop := fun _ _ ↦ False

namespace Moves

theorem refl (h : c.Good s) : c.Moves W s s := ⟨h, fun _ ↦ .refl _⟩

theorem trans (h : c.Moves W s t) (h' : c.Moves W t u) : c.Moves W s u :=
  ⟨h'.good, fun l ↦ (h.gains l).trans (h'.gains l)⟩

theorem mono {W' : String → String → Prop} (h : c.Moves W s t) (hW : ∀ l x, W l x → W' l x) :
    c.Moves W' s t := ⟨h.good, fun l ↦ (h.gains l).mono (hW l)⟩

theorem of_nothing (h : c.Moves nothing s t) : c.Moves W s t := h.mono fun _ _ ↦ False.elim

/-- What is neither in the facts nor in the table does not matter. -/
theorem of_eq (h : c.Good s) (ht : t.table = s.table) (hf : t.facts = s.facts) :
    c.Moves W s t := by
  have hfacts : ∀ l, c.facts t l = c.facts s l := by
    intro l
    unfold facts State.blockFacts
    rw [hf]
  refine ⟨⟨ht.trans h.table, hf ▸ h.key, fun l ↦ hfacts l ▸ h.typed l⟩, fun l ↦ ?_⟩
  rw [hfacts]
  exact .refl _

/-- Words that were covered stay so, if no variable with a word may have changed. -/
theorem covers (h : c.Moves W s t) (hm : c.Covers (c.facts s l) ρ)
    (hW : ∀ x, W l x → ρ x = none) : c.Covers (c.facts t l) ρ :=
  hm.gains (h.good.typed l) (h.gains l) hW

end Moves

/-- A change of the facts of one block only. -/
structure Within (c : Scope) (l : String) (s t : State) : Prop where
  table : t.table = s.table
  key : c.fn.name ∈ t.facts.keys
  others : ∀ k, k ≠ l → c.facts t k = c.facts s k

theorem Within.trans (h : c.Within l s t) (h' : c.Within l t u) : c.Within l s u :=
  ⟨h'.table.trans h.table, h'.key, fun k hk ↦ (h'.others k hk).trans (h.others k hk)⟩

theorem facts_setBlockFacts (h : c.fn.name ∈ s.facts.keys) (l k : String) (m : Facts) :
    c.facts (s.setBlockFacts c.fn.name l m) k = if k = l then m else c.facts s k :=
  blockFacts_setBlockFacts h l k m

theorem Within.setBlockFacts (h : c.fn.name ∈ s.facts.keys) (m : Facts) :
    c.Within l s (s.setBlockFacts c.fn.name l m) := by
  refine ⟨rfl, ?_, fun k hk ↦ by rw [facts_setBlockFacts h, if_neg hk]⟩
  unfold State.setBlockFacts
  rw [OrderedMap.keys_modify]
  exact h

/-- A change within a block is a move if its facts stay typed and gain. -/
theorem Within.moves (h : c.Within l s t) (hs : c.Good s) (ht : c.Typed (c.facts t l))
    (hg : c.Gains (W l) (c.facts s l) (c.facts t l)) : c.Moves W s t := by
  refine ⟨⟨h.table.trans hs.table, h.key, fun k ↦ ?_⟩, fun k ↦ ?_⟩
  · by_cases hk : k = l
    · rw [hk]
      exact ht
    · rw [h.others k hk]
      exact hs.typed k
  · by_cases hk : k = l
    · rw [hk]
      exact hg
    · rw [h.others k hk]
      exact .refl _

/-- Nothing moves as two ranges are given one width. -/
theorem conformed_moves (hs : c.Good s) {first second : Range}
    (h : (conformed first second).run s = .ok r t) :
    c.Moves W s t ∧ r = first.conform second := by
  obtain ⟨log, -, rfl, rfl⟩ := run_conformed_eq_ok.1 h
  exact ⟨.of_eq hs rfl rfl, rfl⟩

/-! ## Operands -/

/-- The range of an operand as facts tell it. -/
def seen (c : Scope) (m : Facts) : Operand → Range
  | .literal v w => .singleton w v
  | .var x (.int w) => c.told m x w
  | .var _ _ | .symbol _ => .empty .one

/-- A variable has the type at which an instruction reads it. -/
theorem fits_of_mem {i : Instr} (hi : i ∈ c.fn.instrs) {x : String} {w : Width}
    (h : .var x (.int w) ∈ i.operands) : c.Fits x w :=
  fun t ht ↦ (c.orderly.operand i hi x (.int w) h t ht).symm

/-- The word of an operand is in the range it is seen to have. -/
theorem Covers.mem_seen (hm : c.Covers m ρ) {i : Instr} (hi : i ∈ c.fn.instrs) {o : Operand}
    (ho : o ∈ i.operands) {v : Word} (hv : o.read? ρ = some v) : v.val ∈ c.seen m o := by
  cases o with
  | literal n w =>
    cases hv
    exact Range.mem_singleton.2 rfl
  | symbol name => cases hv
  | var x ty =>
    have hty := Operand.ty_of_read? hv
    simp only [Operand.ty] at hty
    subst hty
    exact hm x v (fits_of_mem hi ho) (Operand.read?_var hv)

/-- A parameter has a type. -/
theorem exists_type_of_argIds {x id : String} (h : id ∈ argIds c.fn x) :
    ∃ t, c.types.get? x = some t := by
  unfold argIds at h
  rw [Option.mem_toList, Option.map_eq_some_iff] at h
  obtain ⟨n, hn, -⟩ := h
  obtain ⟨hlt, hname, -⟩ := List.findIdx?_eq_some_iff_getElem.1 hn
  exact c.orderly.param x (List.mem_map.2 ⟨_, List.getElem_mem hlt, by simpa using hname⟩)

/-- The table tells something of variables with a type only. -/
theorem exists_type_of_paramRange {x : String} {w : Width}
    (h : (c.paramRange x w).isEmpty = false) : ∃ t, c.types.get? x = some t := by
  cases hids : argIds c.fn x with
  | nil =>
    rw [paramRange, hids] at h
    simp [Env.readIds] at h
  | cons id ids =>
    have hid : id ∈ argIds c.fn x := by simp [hids]
    exact exists_type_of_argIds hid

/-- A parameter without a fact gets the one that the table tells. -/
theorem afterRead_moves (hs : c.Good s) {x : String} {w : Width} (hx : c.Fits x w)
    (hnone : (c.facts s l).get? (.var x) = none) :
    c.Moves nothing s (s.afterRead c.fn l x (c.paramRange x w)) := by
  unfold State.afterRead
  split
  · exact .refl hs
  · rename_i hne
    obtain ⟨ty, hty⟩ := exists_type_of_paramRange (Bool.eq_false_iff.2 hne)
    have hget (y : String) : (c.facts (s.setBlockFacts c.fn.name l
        ((s.blockFacts c.fn.name l).insert (.var x) (c.paramRange x w))) l).get? (.var y) =
        if y = x then some (c.paramRange x w) else (c.facts s l).get? (.var y) := by
      rw [facts_setBlockFacts hs.key, if_pos rfl, OrderedMap.get?_insert]
      simp only [Subject.var.injEq]
      rfl
    refine (Within.setBlockFacts hs.key _).moves hs ?_ ⟨?_, ?_⟩
    · intro y r hr
      rw [hget] at hr
      split at hr
      · rename_i heq
        cases hr
        rw [heq, hty, hx ty hty, width_paramRange]
      · exact hs.typed l y r hr
    · intro y r _ hr
      have hne : y ≠ x := by
        rintro rfl
        rw [hnone] at hr
        cases hr
      rw [hget, if_neg hne, hr]
    · intro y r _ hy hr
      rw [hget, hy] at hr
      split at hr
      · rename_i heq
        cases hr
        rw [heq, width_paramRange]
      · cases hr

/-- Reading an operand gives the range that facts tell, and keeps it. -/
theorem rangeOf_moves (hs : c.Good s) {i : Instr} (hi : i ∈ c.fn.instrs) {o : Operand}
    (ho : o ∈ i.operands) (h : (rangeOf c.env c.fn l o).run s = .ok r t) :
    c.Moves nothing s t ∧ r = c.seen (c.facts s l) o ∧ o.ty = .int r.width := by
  cases o with
  | literal v w =>
    obtain ⟨-, rfl, rfl⟩ := run_rangeOf_literal_eq_ok.1 h
    refine ⟨.refl hs, rfl, ?_⟩
    rw [Range.width_singleton]
    rfl
  | symbol name => simp [rangeOf] at h
  | var x ty =>
    obtain ⟨w, hty, h⟩ := run_rangeOf_var_eq_ok.1 h
    obtain rfl : ty = .int w := by
      cases ty <;> simp_all [Ty.width?]
    have hx : c.Fits x w := fits_of_mem hi ho
    change (c.facts s l).get? (.var x) = some r ∧ t = s ∨
      (c.facts s l).get? (.var x) = none ∧ _ at h
    rcases h with ⟨hr, rfl⟩ | ⟨hnone, -, ids, hids, hr, rfl⟩
    · refine ⟨.refl hs, ?_, ?_⟩
      · simp only [seen, told, hr, Option.getD_some]
      · rw [Operand.ty, (hs.typed l).width_eq hr hx]
    · rw [sources_eq c.orderly] at hids
      cases hids
      obtain rfl : r = c.paramRange x w := by
        rw [hr, hs.table]
        rfl
      refine ⟨afterRead_moves hs hx hnone, ?_, ?_⟩
      · simp only [seen, told, hnone, Option.getD_none]
      · rw [width_paramRange]
        rfl

/-! ## Joining facts -/

theorem joinFact_within (hkey : c.fn.name ∈ s.facts.keys) {subject : Subject} {b : Bool}
    (h : (joinFact c.fn l subject r).run s = .ok b t) :
    c.Within l s t ∧ c.facts t l = ((c.facts s l).join subject r).1 := by
  refine ⟨?_, blockFacts_of_joinFact hkey h⟩
  obtain ⟨log, -, -, rfl⟩ := run_joinFact_eq_ok.1 h
  unfold State.afterJoin
  dsimp only
  split
  · have hset := Within.setBlockFacts (l := l) hkey
      ((s.blockFacts c.fn.name l).join subject r).1
    exact ⟨hset.table, hset.key, hset.others⟩
  · exact ⟨rfl, hkey, fun _ _ ↦ rfl⟩

/-- The result of an instruction gets a fact that has the members of its range. -/
theorem joinFact_moves (hs : c.Good s) {x : String} {b : Bool}
    (hx : c.types.get? x = some (.int r.width))
    (h : (joinFact c.fn l (.var x) r).run s = .ok b t) :
    c.Moves (fun k y ↦ k = l ∧ y = x) s t ∧
      ∀ n ∈ r, ∃ r', (c.facts t l).get? (.var x) = some r' ∧ n ∈ r' := by
  obtain ⟨hwithin, hfacts⟩ := joinFact_within hs.key h
  have hget (y : String) : (c.facts t l).get? (.var y) =
      Facts.joined ((c.facts s l).get? (.var y)) (if y = x then some r else none) := by
    rw [hfacts, Facts.get?_join]
    simp only [Subject.var.injEq]
  have hwidth (r') (hr' : (c.facts s l).get? (.var x) = some r') : r'.width = r.width :=
    (hs.typed l).width_eq hr' fun t ht ↦ by rw [hx] at ht; exact (Option.some.inj ht).symm
  refine ⟨hwithin.moves hs ((hs.typed l).of_joined ?_ hget) ⟨?_, ?_⟩, ?_⟩
  · intro y r' hr'
    split at hr'
    · rename_i heq
      cases hr'
      rw [heq]
      exact .inr hx
    · cases hr'
  · intro y r' hy hr'
    have hne : y ≠ x := fun heq ↦ hy ⟨rfl, heq⟩
    rw [hget, if_neg hne]
    exact hr'
  · intro y r' hy hnone hr'
    have hne : y ≠ x := fun heq ↦ hy ⟨rfl, heq⟩
    rw [hget, if_neg hne, hnone] at hr'
    cases hr'
  · intro n hn
    obtain ⟨r', hr', -, hn'⟩ := Facts.exists_joined_of_new _ hn hwidth
    exact ⟨r', by rw [hget, if_pos rfl, hr'], hn'⟩

/-- Facts that are joined one after the other are joined each to its own, as they are about
different subjects. -/
theorem joinEntries_within {es : List (Subject × Range)} (hn : (es.map Prod.fst).Nodup)
    (hkey : c.fn.name ∈ s.facts.keys)
    (h : (es.forM fun (subject, r) ↦ do let _ ← joinFact c.fn l subject r).run s = .ok ⟨⟩ t) :
    c.Within l s t ∧ ∀ j, (c.facts t l).get? j = Facts.joined ((c.facts s l).get? j)
      ((es.find? fun e ↦ decide (e.1 = j)).map Prod.snd) := by
  induction es generalizing s with
  | nil =>
    obtain ⟨-, rfl⟩ := run_pure_eq_ok.1 h
    exact ⟨⟨rfl, hkey, fun _ _ ↦ rfl⟩, fun _ ↦ rfl⟩
  | cons e es ih =>
    obtain ⟨k, r⟩ := e
    rw [List.map_cons, List.nodup_cons] at hn
    obtain ⟨_, u, hfirst, hrest⟩ := run_bind_eq_ok.1 h
    obtain ⟨b, _, hjoin, hpure⟩ := run_bind_eq_ok.1 hfirst
    obtain ⟨-, rfl⟩ := run_pure_eq_ok.1 hpure
    obtain ⟨hwithin, hfacts⟩ := joinFact_within hkey hjoin
    obtain ⟨hwithin', hget⟩ := ih hn.2 hwithin.key hrest
    refine ⟨hwithin.trans hwithin', fun j ↦ ?_⟩
    rw [hget, hfacts, Facts.get?_join, List.find?_cons]
    by_cases hj : k = j
    · subst hj
      simp [OrderedMap.find?_eq_none_of_notMem hn.1, Facts.joined]
    · have hj' : ¬j = k := fun h ↦ hj h.symm
      simp [hj, hj', Facts.joined]

/-- Joining facts joins every fact that is not empty. -/
theorem joinFacts_within (hkey : c.fn.name ∈ s.facts.keys) {n : Facts} {a : Unit}
    (h : (joinFacts c.fn l n).run s = .ok a t) :
    c.Within l s t ∧ ∀ j, (c.facts t l).get? j =
      Facts.joined ((c.facts s l).get? j) (n.get? j) := by
  simp only [joinFacts, run_bind_eq_ok, run_get_eq_ok] at h
  obtain ⟨_, _, ⟨rfl, rfl⟩, h⟩ := h
  split at h
  · rename_i hsize
    rw [run_modify_eq_ok] at h
    subst h
    refine ⟨.setBlockFacts hkey _, fun j ↦ ?_⟩
    have hnone : (c.facts s l).get? j = none := by
      have hempty : (c.facts s l).entries = [] := List.eq_nil_of_length_eq_zero hsize
      simp [OrderedMap.get?, hempty]
    rw [facts_setBlockFacts hkey, if_pos rfl, OrderedMap.get?_filter, hnone]
    cases n.get? j with
    | none => rfl
    | some r => by_cases hr : r.isEmpty <;> simp [Facts.joined, Option.filter, hr, Range.joinInto]
  · exact joinEntries_within n.nodup hkey h

end Scope

end Sweep

end RangeFlow
