import RangeFlow.Proofs.Check.Assignment
import RangeFlow.Proofs.Program.Rearranged

/-!
# Acceptance does not depend on the order of blocks

What is available in a function is the greatest family of sets that agree with each other
(`Function.mem_availability`), so it stays what it is when the blocks are permuted, and with it
every use is still defined.
-/

namespace RangeFlow

/-! ## Uses -/

section Uses

variable {a a' : Availability} {b : Block} {i : Instr} {s s' : OrderedSet String}

/-- With more variables at hand a use is still defined. -/
theorem useDefects_mono (ha : ∀ l x, x ∈ a.atEnd l → x ∈ a'.atEnd l) (hs : ∀ x ∈ s, x ∈ s')
    (h : useDefects a b i s = []) : useDefects a' b i s' = [] := by
  unfold useDefects at h ⊢
  split
  · rename_i hi
    rw [hi] at h
    simp only [List.map_eq_nil_iff, List.filterMap_eq_nil_iff] at h ⊢
    intro entry hentry
    have hnone := h entry hentry
    cases hvar : entry.value.var? with
    | none => rfl
    | some x =>
      rw [hvar, Option.bind_some] at hnone
      split at hnone
      · rename_i hx
        rw [Option.bind_some, if_pos (ha _ _ hx)]
      · cases hnone
  · rename_i hphi
    split at h
    · rename_i ha
      exact absurd ha (hphi _ _ _)
    · simp only [List.map_eq_nil_iff, List.filter_eq_nil_iff, decide_eq_true_eq, not_not] at h ⊢
      exact fun x hx ↦ hs x (h x hx)

/-- From more variables at the start of a block more are available before each instruction. -/
theorem exists_availableBefore_of_subset (hs : ∀ x ∈ s, x ∈ s') {is : List Instr}
    {t' : OrderedSet String} (h : (i, t') ∈ is.zip (availableBefore s' is)) :
    ∃ t, (i, t) ∈ is.zip (availableBefore s is) ∧ ∀ x ∈ t, x ∈ t' := by
  induction is generalizing s s' with
  | nil => cases h
  | cons j is ih =>
    rw [availableBefore, List.zip_cons_cons] at h ⊢
    rcases List.mem_cons.1 h with heq | h
    · cases heq
      exact ⟨s, List.mem_cons_self, hs⟩
    · cases hj : j.result? with
      | none =>
        rw [hj] at h
        obtain ⟨t, ht, hsub⟩ := ih hs h
        exact ⟨t, List.mem_cons_of_mem _ ht, hsub⟩
      | some y =>
        rw [hj] at h
        have hinsert (x : String) (hx : x ∈ s.insert y) : x ∈ s'.insert y :=
          OrderedSet.mem_insert.2 ((OrderedSet.mem_insert.1 hx).imp_left (hs x))
        obtain ⟨t, ht, hsub⟩ := ih hinsert h
        exact ⟨t, List.mem_cons_of_mem _ ht, hsub⟩

end Uses

/-! ## Types -/

/-- Variables that are new and different have a first definition only. -/
theorem firstTypes_of_fresh {types : OrderedMap String Ty} {is : List Instr}
    (hfresh : ∀ i ∈ is, ∀ x, i.result? = some x → x ∉ types.keys)
    (honce : (is.filterMap Instr.result?).Nodup) : (Function.firstTypes types is).2 = [] := by
  induction is generalizing types with
  | nil => rfl
  | cons i is ih =>
    have hrest := fun j hj ↦ hfresh j (List.mem_cons_of_mem i hj)
    cases ha : i.action with
    | assign x v =>
      have hx : i.result? = some x := by simp [Instr.result?, ha]
      have hnew := hfresh i List.mem_cons_self x hx
      rw [List.filterMap_cons_some hx, List.nodup_cons] at honce
      simp only [Function.firstTypes, ha]
      rw [if_neg (by simpa [OrderedMap.contains] using hnew)]
      refine ih (fun j hj y hy hmem ↦ ?_) honce.2
      rcases OrderedMap.mem_keys_insert.1 hmem with hmem | rfl
      · exact hrest j hj y hy hmem
      · exact honce.1 (List.mem_filterMap.2 ⟨j, hj, hy⟩)
    | store | call | finish =>
      rw [List.filterMap_cons_none (by simp [Instr.result?, ha])] at honce
      simp only [Function.firstTypes, ha]
      exact ih hrest honce

/-- An instruction without defects in its types reads each variable at the type entered for it. -/
theorem typeDefects_eq_nil {types : OrderedMap String Ty} {i : Instr} :
    typeDefects types i = [] ↔
      ∀ x t, .var x t ∈ i.operands → ∀ t', types.get? x = some t' → t = t' := by
  rw [typeDefects, List.filterMap_eq_nil_iff]
  constructor
  · intro h x t hx t' ht'
    have hvar := h _ hx
    simp only [ht', Option.bind_some] at hvar
    split at hvar
    · assumption
    · cases hvar
  · intro h o ho
    cases o with
    | literal | symbol => rfl
    | var x t =>
      dsimp only
      cases hx : types.get? x with
      | none => rfl
      | some t' => rw [Option.bind_some, if_pos (h x t ho t' hx)]

/-! ## Functions whose blocks are permuted -/

namespace Function

namespace Rearranges

variable {p q : Program} {f f' : Function} {g g' : Flow} {l x : String}

/-- A block is found by its label wherever it is laid out. -/
theorem block? (h : f'.Rearranges f) (hlabels : f.labels.Nodup) (l : String) :
    f'.block? l = f.block? l := by
  refine Option.ext fun b ↦ ?_
  rw [block?_eq_some (h.labels.nodup_iff.2 hlabels), block?_eq_some hlabels, h.blocks.mem_iff]

/-- The predecessors of a block do not depend on the layout. -/
theorem mem_predecessors (h : f'.Rearranges f) (hg : f.flow = .ok g) (hg' : f'.flow = .ok g')
    {source : String} : source ∈ g'.predecessors l ↔ source ∈ g.predecessors l := by
  rw [RangeFlow.mem_predecessors hg, RangeFlow.mem_predecessors hg']
  exact exists_congr fun b ↦ and_congr_left fun _ ↦ h.blocks.mem_iff

theorem predecessors_eq_nil (h : f'.Rearranges f) (hg : f.flow = .ok g) (hg' : f'.flow = .ok g') :
    g'.predecessors l = [] ↔ g.predecessors l = [] := by
  rw [List.eq_nil_iff_forall_not_mem, List.eq_nil_iff_forall_not_mem]
  exact forall_congr' fun source ↦ not_congr (h.mem_predecessors hg hg')

/-- The variables of a function do not depend on the layout. -/
theorem mem_knownVars (h : f'.Rearranges f) : x ∈ f'.knownVars ↔ x ∈ f.knownVars := by
  rw [Function.mem_knownVars, Function.mem_knownVars, h.paramNames,
    (h.blocks.flatMap_right Block.results).mem_iff]

/-- What is available at the end of a block stays available. -/
theorem mem_atEnd (h : f'.Rearranges f) (hlabels : f.labels.Nodup) (hg : f.flow = .ok g)
    (hg' : f'.flow = .ok g') (hx : x ∈ (f.availability g).atEnd l) :
    x ∈ (f'.availability g').atEnd l := by
  refine mem_availability (A := fun l x ↦ x ∈ (f.availability g).atEnd l) (fun l x hx ↦ ?_)
    (fun l x hx ↦ h.mem_knownVars.2 (mem_knownVars_of_mem_atEnd hx)) hx
  obtain ⟨b, hb, hway⟩ := f.isConsistent_availability g l x hx
  refine ⟨b, by rw [h.block? hlabels, hb], hway.imp_right ?_⟩
  rw [h.paramNames]
  refine Or.imp (And.imp_left (h.predecessors_eq_nil hg hg').2) ?_
  rintro ⟨hne, hall⟩
  exact ⟨mt (h.predecessors_eq_nil hg hg').1 hne,
    fun q hq ↦ hall q ((h.mem_predecessors hg hg').1 hq)⟩

/-- What is available at the start of a block stays available. -/
theorem mem_availableIn (h : f'.Rearranges f) (hlabels : f.labels.Nodup) (hg : f.flow = .ok g)
    (hg' : f'.flow = .ok g') (hx : x ∈ f.availableIn g (f.availability g) l) :
    x ∈ f'.availableIn g' (f'.availability g') l := by
  by_cases hnil : g.predecessors l = []
  · rw [mem_availableIn_of_nil hnil] at hx
    rw [mem_availableIn_of_nil ((h.predecessors_eq_nil hg hg').2 hnil), h.paramNames]
    exact hx
  · rw [Function.mem_availableIn hnil] at hx
    rw [Function.mem_availableIn (mt (h.predecessors_eq_nil hg hg').1 hnil)]
    exact fun q hq ↦ h.mem_atEnd hlabels hg hg' (hx q ((h.mem_predecessors hg hg').1 hq))

/-- No use comes to lie before its definition. -/
theorem definitionDefects (h : f'.Rearranges f) (hlabels : f.labels.Nodup) (hg : f.flow = .ok g)
    (hg' : f'.flow = .ok g') (hdefs : f.definitionDefects g = []) :
    f'.definitionDefects g' = [] := by
  unfold Function.definitionDefects at hdefs ⊢
  rw [List.flatMap_eq_nil_iff] at hdefs ⊢
  intro b hb
  have hblock := List.flatMap_eq_nil_iff.1 (hdefs b (h.blocks.mem_iff.1 hb))
  refine List.flatMap_eq_nil_iff.2 ?_
  rintro ⟨i, t'⟩ ht'
  obtain ⟨t, ht, hsub⟩ := exists_availableBefore_of_subset
    (fun x hx ↦ h.mem_availableIn hlabels hg hg' hx) ht'
  exact useDefects_mono (fun l x hx ↦ h.mem_atEnd hlabels hg hg' hx) hsub (hblock _ ht)

/-- What an instruction refers to does not depend on the layout. -/
theorem misfit? (h : f'.Rearranges f) (hq : q.Rearranges p) (i : Instr) :
    q.misfit? f' i = p.misfit? f i := by
  have hcall (callee : String) (n : Nat) : ((q.function? callee).bind fun g ↦
      if n < g.params.length || (g.params.length < n && !g.isVararg) then
        some (Misfit.arity g.name g.params.length n) else none) =
      (p.function? callee).bind fun g ↦
        if n < g.params.length || (g.params.length < n && !g.isVararg) then
          some (Misfit.arity g.name g.params.length n) else none := by
    cases hg : q.function? callee with
    | none =>
      cases hf : p.function? callee with
      | none => rfl
      | some f₁ =>
        obtain ⟨g₁, hg₁, -⟩ := hq.symm.exists_function? hf
        rw [hg] at hg₁
        cases hg₁
    | some g₁ =>
      obtain ⟨f₁, hf₁, hgf⟩ := hq.exists_function? hg
      rw [hf₁, Option.bind_some, Option.bind_some, hgf.params, hgf.isVararg, hgf.name]
  unfold Program.misfit?
  rw [h.returns]
  split
  · rfl
  · rfl
  · rw [Program.fields?_congr hq.structs]
  · exact hcall _ _
  · exact hcall _ _
  · rfl

/-- A variable that is used keeps its type. -/
theorem get?_varTypes (h : f'.Rearranges f) (hredefined : (firstTypes f.paramTypes f.instrs).2 = [])
    (hredefined' : (firstTypes f'.paramTypes f'.instrs).2 = []) (hx : x ∈ f.knownVars) :
    f'.varTypes.get? x = f.varTypes.get? x := by
  obtain ⟨hkept, hnew, -⟩ := firstTypes_of_no_defects hredefined
  obtain ⟨hkept', hnew', -⟩ := firstTypes_of_no_defects hredefined'
  unfold varTypes
  rcases Function.mem_knownVars.1 hx with hparam | hresult
  · obtain ⟨t, ht⟩ := Option.isSome_iff_exists.1
      (OrderedMap.get?_isSome_iff.2 (mem_keys_paramTypes.2 hparam))
    have ht' : f'.paramTypes.get? x = some t := by
      rw [paramTypes, h.params]
      exact ht
    rw [hkept x t ht, hkept' x t ht']
  · obtain ⟨b, hb, hres⟩ := List.mem_flatMap.1 hresult
    obtain ⟨i, hib, hix⟩ := List.mem_filterMap.1 hres
    have hi : i ∈ f.instrs := List.mem_flatMap.2 ⟨b, hb, hib⟩
    cases ha : i.action with
    | assign y v =>
      obtain rfl : y = x := by simpa [Instr.result?, ha] using hix
      rw [(hnew i hi y v ha).2, (hnew' i (h.instrs.mem_iff.2 hi) y v ha).2]
    | store | call | finish => simp [Instr.result?, ha] at hix

theorem typingDefects (h : f'.Rearranges f) (hq : q.Rearranges p) (hsound : p.isSound = true)
    (hf : f ∈ p.functions) (hg : f.flow = .ok g) : q.typingDefects f' = [] := by
  have htyping : Typing f f.varTypes := typing_of_isSound hsound hf hg
  have hdefs := typingDefects_of_isSound hsound hf hg
  unfold Program.typingDefects at hdefs ⊢
  obtain ⟨hredefined, -⟩ := List.append_eq_nil_iff.1 hdefs
  have htyping' := h.typing htyping
  have hredefined' : (firstTypes f'.paramTypes f'.instrs).2 = [] := by
    refine firstTypes_of_fresh (fun i hi x hx ↦ ?_) htyping'.once
    rw [mem_keys_paramTypes]
    exact htyping'.fresh i hi x hx
  refine List.append_eq_nil_iff.2 ⟨hredefined', List.flatMap_eq_nil_iff.2 fun i hi ↦ ?_⟩
  have hi' := h.instrs.mem_iff.1 hi
  refine List.append_eq_nil_iff.2 ⟨typeDefects_eq_nil.2 fun x t hx t' ht' ↦ ?_, ?_⟩
  · change f'.varTypes.get? x = some t' at ht'
    rw [h.get?_varTypes hredefined hredefined' (mem_knownVars_of_isSound hsound hf hi' hx)] at ht'
    exact htyping.operand i hi' x t hx t' ht'
  · have huses := List.flatMap_eq_nil_iff.1 (List.append_eq_nil_iff.1 hdefs).2 i hi'
    rw [h.misfit? hq]
    exact (List.append_eq_nil_iff.1 huses).2

/-- The defects of structure of a block do not depend on the layout. -/
theorem structureDefects (h : f'.Rearranges f) (hq : q.Rearranges p) (b : Block) :
    q.structureDefects f' b = p.structureDefects f b := by
  have hdangling : q.danglingDefects f' = p.danglingDefects f := by
    funext i
    unfold Program.danglingDefects Program.knowsSymbol
    simp only [h.hasBlock, hq.global?, hq.hasFunction]
  unfold Program.structureDefects
  rw [hdangling]

end Rearranges

end Function

/-- If a program is accepted, then so is every one that differs from it in the order of blocks. -/
theorem Program.Rearranges.isSound {p q : Program} (h : q.Rearranges p)
    (hlabels : ∀ f ∈ p.functions, f.labels.Nodup) (hsound : p.isSound = true) :
    q.isSound = true := by
  rw [Program.isSound, List.isEmpty_iff, Program.defects, List.flatMap_eq_nil_iff]
  intro f' hf'
  obtain ⟨f, hf, hff'⟩ := h.exists_of_mem hf'
  obtain ⟨g, hg⟩ := exists_flow_of_isSound hsound hf
  have hstructure : f'.blocks.flatMap (q.structureDefects f') = [] := by
    refine List.flatMap_eq_nil_iff.2 fun b hb ↦ ?_
    rw [hff'.structureDefects h]
    exact structureDefects_eq_nil hsound hf (hff'.blocks.mem_iff.1 hb)
  unfold Program.functionDefects
  rw [hstructure]
  cases hg' : f'.flow with
  | error x => rfl
  | ok g' =>
    refine List.append_eq_nil_iff.2 ⟨?_, hff'.typingDefects h hsound hf hg⟩
    exact hff'.definitionDefects (hlabels f hf) hg hg' (definitionDefects_of_isSound hsound hf hg)

end RangeFlow
