import RangeFlow.Check
import RangeFlow.Proofs.Ordered.Map

/-!
# What the check promises

In a function of an accepted program every variable has one type, the one at its only definition or
as a parameter, and is read at that type.  Terminators stand at the end of blocks and nowhere else.
-/

namespace RangeFlow

/-- The types of the variables of a function: each is defined once, and read as it is defined. -/
structure Typing (f : Function) (types : OrderedMap String Ty) : Prop where
  param : ∀ x ∈ f.paramNames, ∃ t, types.get? x = some t
  result : ∀ i ∈ f.instrs, ∀ x v, i.action = .assign x v → types.get? x = some v.ty
  operand : ∀ i ∈ f.instrs, ∀ x t, .var x t ∈ i.operands → ∀ t', types.get? x = some t' → t = t'
  fresh : ∀ i ∈ f.instrs, ∀ x, i.result? = some x → x ∉ f.paramNames
  once : (f.instrs.filterMap Instr.result?).Nodup

/-- Types without a second definition: those of before are kept, and each definition adds one of a
new variable. -/
theorem firstTypes_of_no_defects {types : OrderedMap String Ty} {is : List Instr}
    (h : (Function.firstTypes types is).2 = []) :
    (∀ x t, types.get? x = some t → (Function.firstTypes types is).1.get? x = some t) ∧
    (∀ i ∈ is, ∀ x v, i.action = .assign x v →
      x ∉ types.keys ∧ (Function.firstTypes types is).1.get? x = some v.ty) ∧
    (is.filterMap Instr.result?).Nodup := by
  induction is generalizing types with
  | nil => exact ⟨fun _ _ h ↦ h, fun _ hi ↦ (List.not_mem_nil hi).elim, List.nodup_nil⟩
  | cons i is ih =>
    cases ha : i.action with
    | assign x v =>
      simp only [Function.firstTypes, ha] at h ⊢
      split at h
      · simp at h
      · rename_i hc
        rw [if_neg hc]
        obtain ⟨hkept, hnew, hnodup⟩ := ih h
        have hx : x ∉ types.keys := by simpa [OrderedMap.contains] using hc
        refine ⟨fun y t hy ↦ hkept y t ?_, fun j hj y u hju ↦ ?_, ?_⟩
        · have hne : y ≠ x := by
            rintro rfl
            exact hx (OrderedMap.get?_isSome_iff.1 (by simp [hy]))
          rw [OrderedMap.get?_insert_of_ne _ _ hne, hy]
        · rcases List.mem_cons.1 hj with rfl | hj
          · rw [ha] at hju
            cases hju
            exact ⟨hx, hkept _ _ (OrderedMap.get?_insert_self _ _ _)⟩
          · obtain ⟨hkey, hget⟩ := hnew j hj y u hju
            exact ⟨fun hy ↦ hkey (OrderedMap.mem_keys_insert.2 (.inl hy)), hget⟩
        · have hres : i.result? = some x := by simp [Instr.result?, ha]
          rw [List.filterMap_cons_some hres, List.nodup_cons]
          refine ⟨fun hmem ↦ ?_, hnodup⟩
          obtain ⟨j, hj, hjx⟩ := List.mem_filterMap.1 hmem
          cases hja : j.action with
          | assign y u =>
            obtain rfl : y = x := by simpa [Instr.result?, hja] using hjx
            exact (hnew j hj y u hja).1 (OrderedMap.mem_keys_insert.2 (.inr rfl))
          | store | call | finish => simp [Instr.result?, hja] at hjx
    | store | call | finish =>
      simp only [Function.firstTypes, ha] at h ⊢
      obtain ⟨hkept, hnew, hnodup⟩ := ih h
      have hres : i.result? = none := by simp [Instr.result?, ha]
      refine ⟨hkept, fun j hj y u hju ↦ ?_, by rwa [List.filterMap_cons_none hres]⟩
      rcases List.mem_cons.1 hj with rfl | hj
      · rw [ha] at hju
        cases hju
      · exact hnew j hj y u hju

theorem mem_keys_paramTypes {f : Function} {x : String} :
    x ∈ f.paramTypes.keys ↔ x ∈ f.paramNames := by
  unfold Function.paramTypes OrderedMap.ofList
  rw [OrderedMap.mem_keys_insertAll]
  simp [OrderedMap.empty, OrderedMap.keys, Function.paramNames]

section Sound

variable {p : Program} {f : Function} {g : Flow}

/-- The functions of an accepted program have no defects. -/
theorem functionDefects_of_isSound (h : p.isSound = true) (hf : f ∈ p.functions) :
    p.functionDefects f = [] := by
  rw [Program.isSound, List.isEmpty_iff, Program.defects, List.flatMap_eq_nil_iff] at h
  exact h f hf

/-- The functions of an accepted program have no defects of structure. -/
theorem structureDefects_of_isSound (h : p.isSound = true) (hf : f ∈ p.functions) :
    f.blocks.flatMap (p.structureDefects f) = [] := by
  have hdef := functionDefects_of_isSound h hf
  unfold Program.functionDefects at hdef
  dsimp only at hdef
  split at hdef
  · rename_i hempty
    exact List.isEmpty_iff.1 hempty
  · exact hdef

/-- The functions of an accepted program have no defects in their types. -/
theorem typingDefects_of_isSound (h : p.isSound = true) (hf : f ∈ p.functions)
    (hg : f.flow = .ok g) : p.typingDefects f = [] := by
  have hdef := functionDefects_of_isSound h hf
  unfold Program.functionDefects at hdef
  dsimp only at hdef
  rw [structureDefects_of_isSound h hf, hg] at hdef
  exact (List.append_eq_nil_iff.1 hdef).2

/-- Of an accepted program no terminator stands before the end of a block. -/
theorem not_isTerminator_of_isSound (h : p.isSound = true) (hf : f ∈ p.functions) {b : Block}
    (hb : b ∈ f.blocks) {i : Instr} (hi : i ∈ b.instrs.dropLast) : i.isTerminator = false := by
  have hdef := List.flatMap_eq_nil_iff.1 (structureDefects_of_isSound h hf) b hb
  unfold Program.structureDefects at hdef
  have hmid := (List.append_eq_nil_iff.1 (List.append_eq_nil_iff.1 hdef).1).2
  rw [List.map_eq_nil_iff, List.filter_eq_nil_iff] at hmid
  simpa using hmid i hi

/-- The types of the variables of a function of an accepted program. -/
theorem typing_of_isSound (h : p.isSound = true) (hf : f ∈ p.functions) (hg : f.flow = .ok g) :
    Typing f (Function.firstTypes f.paramTypes f.instrs).1 := by
  have hdef := typingDefects_of_isSound h hf hg
  unfold Program.typingDefects at hdef
  obtain ⟨hredefined, huses⟩ := List.append_eq_nil_iff.1 hdef
  obtain ⟨hkept, hnew, hnodup⟩ := firstTypes_of_no_defects hredefined
  refine ⟨fun x hx ↦ ?_, fun i hi x v ha ↦ (hnew i hi x v ha).2, fun i hi x t ho t' ht' ↦ ?_,
    fun i hi x hx ↦ ?_, hnodup⟩
  · obtain ⟨t, ht⟩ := Option.isSome_iff_exists.1
      (OrderedMap.get?_isSome_iff.2 (mem_keys_paramTypes.2 hx))
    exact ⟨t, hkept x t ht⟩
  · have huse := (List.append_eq_nil_iff.1 (List.flatMap_eq_nil_iff.1 huses i hi)).1
    rw [typeDefects, List.filterMap_eq_nil_iff] at huse
    have hvar := huse (.var x t) ho
    simp only [ht', Option.bind_some] at hvar
    split at hvar
    · assumption
    · cases hvar
  · cases ha : i.action with
    | assign y v =>
      obtain rfl : y = x := by simpa [Instr.result?, ha] using hx
      exact fun hy ↦ (hnew i hi y v ha).1 (mem_keys_paramTypes.2 hy)
    | store | call | finish => simp [Instr.result?, ha] at hx

end Sound

end RangeFlow
