import RangeFlow.Proofs.Check.Definition
import RangeFlow.Proofs.Program.LoopFree
import RangeFlow.Source.Build

/-!
# Single assignment

Results of instructions are compared with what was defined before, parameters are entered without a
comparison.  So a function of an accepted program defines each variable once if and only if no two
of its parameters, written or named by position, have one name; and then the ways to look up a
variable lead to the same definition.
-/

namespace RangeFlow

namespace Function

variable {p : Program} {f : Function} {types : OrderedMap String Ty}

def varTypes (f : Function) : OrderedMap String Ty := (firstTypes f.paramTypes f.instrs).1

/-- Each variable is defined once, among parameters and results, and its position among the
parameters, the instruction that produces it and its type are those of this definition. -/
structure IsSingleAssignment (f : Function) : Prop where
  once : (f.typedVars.map Prod.fst).Nodup
  param : ∀ k q, f.params[k]? = some q →
    f.paramIndex? q.name = some k ∧ f.producer? q.name = none ∧
      f.varTypes.get? q.name = some q.ty
  result : ∀ l i x v, (l, i) ∈ f.labelled → i.action = .assign x v →
    f.paramIndex? x = none ∧ f.producer? x = some (l, i) ∧ f.varTypes.get? x = some v.ty
  operand : ∀ i ∈ f.instrs, ∀ x t, .var x t ∈ i.operands → f.varTypes.get? x = some t

theorem map_snd_labelled (f : Function) : f.labelled.map Prod.snd = f.instrs := by
  simp [labelled, instrs, List.map_flatMap, Function.comp_def]

/-- The variables listed with a type are the parameters and the results. -/
theorem map_fst_typedVars (f : Function) :
    f.typedVars.map Prod.fst = f.paramNames ++ f.instrs.filterMap Instr.result? := by
  rw [typedVars, List.map_append, List.map_map, List.map_filterMap]
  congr 1
  refine List.filterMap_congr fun i _ ↦ ?_
  cases ha : i.action with
  | assign x v => simp [Instr.result?, ha]
  | store | call | finish => simp [Instr.result?, ha]

/-! ## Looking up a result -/

/-- Only parameters have a position among the parameters. -/
theorem paramIndex?_eq_none {x : String} : f.paramIndex? x = none ↔ x ∉ f.paramNames := by
  simp only [paramIndex?, List.findIdx?_eq_none_iff, beq_eq_false_iff_ne, paramNames, List.mem_map,
    not_exists, not_and]

/-- The producer of a variable is an instruction that assigns it. -/
theorem result?_of_producer? {x l : String} {i : Instr} (h : f.producer? x = some (l, i)) :
    (l, i) ∈ f.labelled ∧ i.result? = some x := by
  obtain ⟨hmem, hres⟩ := List.mem_filter.1 (List.mem_of_getLast? h)
  exact ⟨hmem, of_decide_eq_true hres⟩

theorem mem_instrs_of_mem_labelled {l : String} {i : Instr} (h : (l, i) ∈ f.labelled) :
    i ∈ f.instrs := by
  rw [← map_snd_labelled]
  exact List.mem_map.2 ⟨_, h, rfl⟩

/-- The producer of a result is the instruction that assigns it, as no other one does. -/
theorem producer?_of_mem_labelled (h : Typing f types) {l x : String} {i : Instr}
    (hi : (l, i) ∈ f.labelled) (hx : i.result? = some x) : f.producer? x = some (l, i) := by
  have hmem : (l, i) ∈ f.labelled.filter fun e ↦ decide (e.2.result? = some x) :=
    List.mem_filter.2 ⟨hi, decide_eq_true hx⟩
  obtain ⟨⟨l', j⟩, hlast⟩ := Option.ne_none_iff_exists'.1
    (mt List.getLast?_eq_none_iff.1 (List.ne_nil_of_mem hmem))
  obtain ⟨hj, hjx⟩ := result?_of_producer? hlast
  have honce : (f.labelled.filterMap fun e ↦ e.2.result?).Nodup := by
    have honce := h.once
    rwa [← map_snd_labelled, List.filterMap_map] at honce
  rw [eq_of_filterMap_nodup (b := x) honce hi hj hx hjx]
  exact hlast

/-! ## Looking up a parameter -/

theorem producer?_of_mem_paramNames (h : Typing f types) {x : String} (hx : x ∈ f.paramNames) :
    f.producer? x = none := by
  cases hprod : f.producer? x with
  | none => rfl
  | some e =>
    obtain ⟨hmem, hres⟩ := result?_of_producer? hprod
    exact absurd hx (h.fresh e.2 (mem_instrs_of_mem_labelled hmem) x hres)

/-- A parameter with a name of its own is found at its position. -/
theorem paramIndex?_of_nodup (h : f.paramNames.Nodup) {k : Nat} {q : Param}
    (hq : f.params[k]? = some q) : f.paramIndex? q.name = some k := by
  obtain ⟨hk, hget⟩ := List.getElem?_eq_some_iff.1 hq
  rw [paramIndex?, List.findIdx?_eq_some_iff_getElem]
  refine ⟨hk, by rw [hget]; exact beq_self_eq_true _, fun j hj heq ↦ ?_⟩
  have hnames : f.paramNames[j]? = f.paramNames[k]? := by
    rw [paramNames, List.getElem?_map, List.getElem?_map,
      List.getElem?_eq_getElem (Nat.lt_trans hj hk), List.getElem?_eq_getElem hk, hget]
    exact congrArg some (beq_iff_eq.1 heq)
  have hlt : j < f.paramNames.length := by
    rw [paramNames, List.length_map]
    exact Nat.lt_trans hj hk
  exact Nat.ne_of_lt hj ((List.getElem?_inj hlt h).1 hnames)

/-- Of parameters with different names each counts. -/
theorem get?_paramTypes_of_nodup (h : f.paramNames.Nodup) {q : Param} (hq : q ∈ f.params) :
    f.paramTypes.get? q.name = some q.ty := by
  have hkey : q.name ∈ f.paramTypes.keys := mem_keys_paramTypes.2 (List.mem_map_of_mem hq)
  obtain ⟨t, ht⟩ := Option.isSome_iff_exists.1 (OrderedMap.get?_isSome_iff.2 hkey)
  rcases OrderedMap.get?_insertAll_cases ht with hempty | hentry
  · cases hempty
  · obtain ⟨q', hq', heq⟩ := List.mem_map.1 hentry
    obtain ⟨hname, hty⟩ := Prod.mk.inj heq
    obtain rfl : q' = q := List.inj_on_of_nodup_map h hq' hq hname
    rw [ht, hty]

/-! ## Accepted programs -/

/-- In an accepted program a parameter with a name of its own has its declared type. -/
theorem get?_varTypes_of_isSound (h : p.isSound = true) (hf : f ∈ p.functions)
    (hnames : f.paramNames.Nodup) {q : Param} (hq : q ∈ f.params) :
    f.varTypes.get? q.name = some q.ty := by
  obtain ⟨g, hg⟩ := exists_flow_of_isSound h hf
  have hdef := typingDefects_of_isSound h hf hg
  unfold Program.typingDefects at hdef
  have hredefined := (List.append_eq_nil_iff.1 hdef).1
  exact (firstTypes_of_no_defects hredefined).1 _ _ (get?_paramTypes_of_nodup hnames hq)

/-- An accepted function is in single-assignment form if and only if its parameters have different
names. -/
theorem isSingleAssignment_iff (h : p.isSound = true) (hf : f ∈ p.functions) :
    f.IsSingleAssignment ↔ f.paramNames.Nodup := by
  obtain ⟨g, hg⟩ := exists_flow_of_isSound h hf
  have htyping : Typing f f.varTypes := typing_of_isSound h hf hg
  have hresult {i : Instr} {x : String} {v : Value} (ha : i.action = .assign x v) :
      i.result? = some x := by
    simp [Instr.result?, ha]
  constructor
  · intro hsingle
    have honce := hsingle.once
    rw [map_fst_typedVars] at honce
    exact honce.of_append_left
  · intro hnames
    refine ⟨?_, fun k q hq ↦ ⟨?_, ?_, ?_⟩, fun l i x v hi ha ↦ ⟨?_, ?_, ?_⟩, ?_⟩
    · rw [map_fst_typedVars, List.nodup_append]
      refine ⟨hnames, htyping.once, ?_⟩
      rintro x hx _ hy rfl
      obtain ⟨i, hi, hres⟩ := List.mem_filterMap.1 hy
      exact htyping.fresh i hi x hres hx
    · exact paramIndex?_of_nodup hnames hq
    · exact producer?_of_mem_paramNames htyping (List.mem_map_of_mem (List.mem_of_getElem? hq))
    · exact get?_varTypes_of_isSound h hf hnames (List.mem_of_getElem? hq)
    · exact paramIndex?_eq_none.2 (htyping.fresh i (mem_instrs_of_mem_labelled hi) x (hresult ha))
    · exact producer?_of_mem_labelled htyping hi (hresult ha)
    · exact htyping.result i (mem_instrs_of_mem_labelled hi) x v ha
    · exact fun i hi x t hx ↦ get?_type_of_isSound h hf htyping hi hx

/-- In the loop each variable is defined once. -/
theorem isSingleAssignment_circling :
    Program.isSound ⟨[], [], [circling]⟩ = true ∧ circling.IsSingleAssignment :=
  ⟨isSound_circling,
    (isSingleAssignment_iff isSound_circling (List.mem_singleton_self circling)).2 (by decide)⟩

end Function

/-! ## Two parameters of one name -/

open Width (byte word)

/-- The second parameter is named by its position, as the first one is called already. -/
def collidingText : String :=
  "function @f(i8 %1, i16) -> i16 \x7b\nentry:\n  ret i16 %1\n\x7d\n"

def colliding : Function where
  name := "f"
  params := [⟨"1", .int byte⟩, ⟨"1", .int word⟩]
  returns := .int word
  isVararg := false
  blocks := [⟨"entry",
    [⟨.finish (.ret (.int word) (.var "1" (.int word))), 3⟩]⟩]

/-- The check accepts two parameters of one name; the position that is found for the name is that of
the first, the type that of the second. -/
theorem not_isSingleAssignment_colliding :
    Program.parse collidingText = .ok ⟨[], [], [colliding]⟩ ∧
    Program.isSound ⟨[], [], [colliding]⟩ = true ∧ ¬colliding.IsSingleAssignment ∧
    colliding.paramIndex? "1" = some 0 ∧
    (colliding.params[0]?).map Param.ty = some (.int byte) ∧
    colliding.varTypes.get? "1" = some (.int word) := by
  have hparse : Program.parse collidingText = .ok ⟨[], [], [colliding]⟩ := by decide +kernel
  have hsound : Program.isSound ⟨[], [], [colliding]⟩ = true :=
    Function.isSound_of_allAvailable rfl rfl (by decide) (by decide) (by decide) (by decide)
  refine ⟨hparse, hsound, fun hsingle ↦ ?_, rfl, rfl, rfl⟩
  exact absurd hsingle.once (by decide)

end RangeFlow
