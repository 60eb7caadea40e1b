import Mathlib.Data.List.Basic
import RangeFlow.Proofs.Check.Typing
import RangeFlow.Proofs.Flow.Availability
import RangeFlow.Proofs.Width

/-!
# Variables are defined before they are used

A way through a function is a sequence of blocks in which each passes control to the next.  On
every way of an accepted function from the entry to a use the variable is a parameter or was
assigned, with one exception: if a block jumps back to the entry, the set of the entry is never
brought down to the parameters, and what is available at the end of all blocks that jump there
counts as available at the first step too (`Function.Regained`).
-/

namespace RangeFlow

/-! ## Functions without defects of structure have a flow graph -/

theorem Block.mem_instrs_of_terminator? {b : Block} {t : Terminator}
    (h : b.terminator? = some t) : ∃ i ∈ b.instrs, i.action = .finish t := by
  unfold Block.terminator? at h
  obtain ⟨i, hi, ht⟩ := Option.bind_eq_some_iff.1 h
  refine ⟨i, List.mem_of_getLast? hi, ?_⟩
  unfold Instr.terminator? at ht
  split at ht
  · rename_i ha
    cases ht
    exact ha
  · cases ht

section Structure

variable {p : Program} {f : Function}

section Wired

variable (h : f.blocks.flatMap (p.structureDefects f) = [])
include h

/-- Without defects of structure every block is terminated. -/
theorem isTerminated_of_structure {b : Block} (hb : b ∈ f.blocks) : b.isTerminated = true := by
  have hdef := List.flatMap_eq_nil_iff.1 h b hb
  unfold Program.structureDefects at hdef
  have hend := (List.append_eq_nil_iff.1 (List.append_eq_nil_iff.1 hdef).1).1
  by_contra hnot
  simp [hnot] at hend

/-- Without defects of structure no label and no symbol dangles. -/
theorem danglingDefects_eq_nil {i : Instr} (hi : i ∈ f.instrs) : p.danglingDefects f i = [] := by
  obtain ⟨b, hb, hib⟩ := List.mem_flatMap.1 hi
  have hdef := List.flatMap_eq_nil_iff.1 h b hb
  unfold Program.structureDefects at hdef
  exact List.flatMap_eq_nil_iff.1 (List.append_eq_nil_iff.1 hdef).2 i hib

/-- The labels that the function names are labels of its blocks. -/
theorem hasBlock_of_structure {i : Instr} (hi : i ∈ f.instrs) {l : String} (hl : l ∈ i.labels) :
    f.hasBlock l = true := by
  have hdef := danglingDefects_eq_nil h hi
  unfold Program.danglingDefects at hdef
  have hlabels := (List.append_eq_nil_iff.1 hdef).1
  rw [List.map_eq_nil_iff, List.filter_eq_nil_iff] at hlabels
  simpa using hlabels l hl

/-- Without defects of structure a function is wired. -/
theorem isWired_of_structure : f.IsWired := by
  refine ⟨fun b hb ↦ isTerminated_of_structure h hb, fun b hb l hl ↦ ?_⟩
  obtain ⟨t, ht, hl⟩ := Block.mem_targets.1 hl
  obtain ⟨i, hib, ha⟩ := Block.mem_instrs_of_terminator? ht
  have hi : i ∈ f.instrs := List.mem_flatMap.2 ⟨b, hb, hib⟩
  refine Function.hasBlock_iff.1 (hasBlock_of_structure h hi ?_)
  simpa [Instr.labels, Action.labels, ha] using hl

end Wired

/-- The blocks of an accepted program have no defects of structure. -/
theorem structureDefects_eq_nil (h : p.isSound = true) (hf : f ∈ p.functions) {b : Block}
    (hb : b ∈ f.blocks) : p.structureDefects f b = [] :=
  List.flatMap_eq_nil_iff.1 (structureDefects_of_isSound h hf) b hb

/-- The labels that an accepted function names are labels of its blocks. -/
theorem hasBlock_of_isSound (h : p.isSound = true) (hf : f ∈ p.functions) {i : Instr}
    (hi : i ∈ f.instrs) {l : String} (hl : l ∈ i.labels) : f.hasBlock l = true :=
  hasBlock_of_structure (structureDefects_of_isSound h hf) hi hl

/-- The functions of an accepted program have a flow graph. -/
theorem exists_flow_of_isSound (h : p.isSound = true) (hf : f ∈ p.functions) :
    ∃ g, f.flow = .ok g :=
  Function.exists_flow (isWired_of_structure (structureDefects_of_isSound h hf))

/-- The functions of an accepted program use no variable before its definition. -/
theorem definitionDefects_of_isSound (h : p.isSound = true) (hf : f ∈ p.functions) {g : Flow}
    (hg : f.flow = .ok g) : f.definitionDefects g = [] := by
  have hdef := functionDefects_of_isSound h hf
  unfold Program.functionDefects at hdef
  dsimp only at hdef
  rw [structureDefects_of_isSound h hf, hg] at hdef
  exact (List.append_eq_nil_iff.1 hdef).1

end Structure

/-! ## Uses without a defect -/

/-- Whether the instruction reads at the end of other blocks. -/
def Instr.isPhi (i : Instr) : Bool :=
  match i.action with
  | .assign _ (.phi _ _) => true
  | _ => false

section Uses

variable {a : Availability} {b : Block} {i : Instr} {s : OrderedSet String} {x : String} {t : Ty}

/-- What an instruction without a defect reads is available before it. -/
theorem mem_of_useDefects_eq_nil (h : useDefects a b i s = []) (hphi : i.isPhi = false)
    (hx : .var x t ∈ i.operands) : x ∈ s := by
  unfold useDefects at h
  unfold Instr.isPhi at hphi
  split at h
  · rename_i hi
    simp [hi] at hphi
  · rw [List.map_eq_nil_iff, List.filter_eq_nil_iff] at h
    simpa using h x (List.mem_filterMap.2 ⟨_, hx, rfl⟩)

/-- What a phi without a defect takes from a block is available at its end. -/
theorem mem_atEnd_of_useDefects_eq_nil (h : useDefects a b i s = []) {y : String} {u : Ty}
    {entries : List PhiEntry} (hi : i.action = .assign y (.phi u entries)) {l : String}
    (hl : ⟨l, .var x t⟩ ∈ entries) : x ∈ a.atEnd l := by
  unfold useDefects at h
  rw [hi] at h
  dsimp only at h
  rw [List.map_eq_nil_iff, List.filterMap_eq_nil_iff] at h
  have hentry := h _ hl
  simp only [Operand.var?, Option.bind_some] at hentry
  by_contra hx
  rw [if_neg hx] at hentry
  cases hentry

/-- Before an instruction is available what was at first and what the instructions before it assign.
-/
theorem exists_availableBefore (s : OrderedSet String) (done : List Instr) (i : Instr)
    (rest : List Instr) :
    ∃ before, (i, before) ∈ (done ++ i :: rest).zip (availableBefore s (done ++ i :: rest)) ∧
      ∀ x, x ∈ before ↔ x ∈ s ∨ x ∈ done.filterMap Instr.result? := by
  refine ⟨_, List.mem_of_getElem? (i := done.length) ?_, fun x ↦ OrderedSet.mem_insertAll⟩
  rw [List.getElem?_zip_eq_some]
  exact ⟨by simp, getElem?_availableBefore s done i rest⟩

end Uses

/-! ## Ways -/

namespace Function

variable {p : Program} {f : Function} {g : Flow} {before : List Block} {b e : Block} {x : String}

/-- A way from the entry to a block, with the blocks that it passes through before. -/
inductive Way (f : Function) : List Block → Block → Prop
  | entry {b : Block} (h : f.entry? = some b) : Way f [] b
  | step {before : List Block} {b c : Block} (h : Way f before b) (hl : c.label ∈ b.targets)
    (hc : f.block? c.label = some c) : Way f (before ++ [b]) c

/-- The entry is found by its label, as it is the first block. -/
theorem block?_of_entry? (h : f.entry? = some e) : f.block? e.label = some e := by
  obtain ⟨bs, hbs⟩ := List.head?_eq_some_iff.1 h
  simp [block?, hbs]

theorem Way.block?_eq (h : f.Way before b) : f.block? b.label = some b := by
  cases h with
  | entry h => exact block?_of_entry? h
  | step h hl hc => exact hc

theorem Way.mem (h : f.Way before b) : b ∈ f.blocks := List.mem_of_find?_eq_some h.block?_eq

/-- The blocks that jump to the entry all end with the variable, which therefore counts as available
at the start of the entry. -/
def Regained (f : Function) (x : String) : Prop :=
  ∃ g e, f.flow = .ok g ∧ f.entry? = some e ∧ g.predecessors e.label ≠ [] ∧
    ∀ q ∈ g.predecessors e.label, x ∈ (f.availability g).atEnd q

/-- Where nothing jumps to the entry, no variable is available there but the parameters. -/
theorem not_regained (h : ∀ e, f.entry? = some e → ∀ b ∈ f.blocks, e.label ∉ b.targets) :
    ¬f.Regained x := by
  rintro ⟨g, e, hg, he, hne, -⟩
  refine hne (List.eq_nil_iff_forall_not_mem.2 fun q hq ↦ ?_)
  obtain ⟨b, hb, -, ht⟩ := (mem_predecessors hg).1 hq
  exact h e he b hb (Block.mem_targets.2 ht)

/-- What is available at the start of the entry is a parameter, or comes back to it. -/
theorem mem_params_or_regained (hg : f.flow = .ok g) (he : f.entry? = some e)
    (hx : x ∈ f.availableIn g (f.availability g) e.label) : x ∈ f.paramNames ∨ f.Regained x := by
  by_cases hnil : g.predecessors e.label = []
  · exact .inl ((mem_availableIn_of_nil hnil).1 hx)
  · exact .inr ⟨g, e, hg, he, hnil, (mem_availableIn hnil).1 hx⟩

/-- What a way has made available stays so in the next block. -/
theorem given_append {P : Prop} (h : x ∈ f.paramNames ∨ x ∈ before.flatMap Block.results ∨ P) :
    x ∈ f.paramNames ∨ x ∈ (before ++ [b]).flatMap Block.results ∨ P := by
  rw [List.flatMap_append, List.mem_append]
  rcases h with hx | hx | hx
  · exact .inl hx
  · exact .inr (.inl (.inl hx))
  · exact .inr (.inr hx)

theorem mem_flatMap_append (hx : x ∈ b.results) : x ∈ (before ++ [b]).flatMap Block.results :=
  List.mem_flatMap.2 ⟨b, List.mem_append_right _ (List.mem_singleton_self b), hx⟩

/-- What is available at the start of a block was assigned on every way there. -/
theorem Way.mem_of_mem_availableIn (hg : f.flow = .ok g) (h : f.Way before b)
    (hx : x ∈ f.availableIn g (f.availability g) b.label) :
    x ∈ f.paramNames ∨ x ∈ before.flatMap Block.results ∨ f.Regained x := by
  induction h with
  | entry he =>
    rcases mem_params_or_regained hg he hx with hx | hx
    · exact .inl hx
    · exact .inr (.inr hx)
  | @step before b c hway hl hc ih =>
    have hpred : b.label ∈ g.predecessors c.label :=
      (mem_predecessors hg).2 ⟨b, hway.mem, rfl, Block.mem_targets.1 hl⟩
    have hend := (mem_availableIn (List.ne_nil_of_mem hpred)).1 hx _ hpred
    rcases mem_of_mem_atEnd hway.block?_eq hend with hin | hb
    · exact given_append (ih hin)
    · exact .inr (.inl (mem_flatMap_append hb))

/-- An instruction of an accepted function has no defect in its uses, given what is available at the
start of its block and what the instructions before it assign. -/
theorem useDefects_of_isSound (h : p.isSound = true) (hf : f ∈ p.functions) (hg : f.flow = .ok g)
    (hb : b ∈ f.blocks) {done rest : List Instr} {i : Instr} (hi : b.instrs = done ++ i :: rest) :
    ∃ s, useDefects (f.availability g) b i s = [] ∧
      ∀ x, x ∈ s ↔ x ∈ f.availableIn g (f.availability g) b.label ∨
        x ∈ done.filterMap Instr.result? := by
  have hdefs := definitionDefects_of_isSound h hf hg
  unfold definitionDefects at hdefs
  obtain ⟨s, hs, hiff⟩ :=
    exists_availableBefore (f.availableIn g (f.availability g) b.label) done i rest
  rw [← hi] at hs
  exact ⟨s, List.flatMap_eq_nil_iff.1 (List.flatMap_eq_nil_iff.1 hdefs b hb) _ hs, hiff⟩

/-- The variables that an accepted function reads are its own. -/
theorem mem_knownVars_of_isSound (h : p.isSound = true) (hf : f ∈ p.functions) {i : Instr}
    (hi : i ∈ f.instrs) {t : Ty} (hx : .var x t ∈ i.operands) : x ∈ f.knownVars := by
  obtain ⟨g, hg⟩ := exists_flow_of_isSound h hf
  obtain ⟨b, hb, hib⟩ := List.mem_flatMap.1 hi
  obtain ⟨done, rest, hsplit⟩ := List.append_of_mem hib
  obtain ⟨s, huse, hiff⟩ := useDefects_of_isSound h hf hg hb hsplit
  cases hphi : i.isPhi with
  | true =>
    unfold Instr.isPhi at hphi
    split at hphi
    · rename_i y u entries ha
      rw [Instr.operands, ha] at hx
      obtain ⟨⟨l, o⟩, hentry, rfl⟩ := List.mem_map.1 hx
      exact mem_knownVars_of_mem_atEnd (mem_atEnd_of_useDefects_eq_nil huse ha hentry)
    · cases hphi
  | false =>
    rcases (hiff x).1 (mem_of_useDefects_eq_nil huse hphi hx) with hin | hdone
    · exact mem_knownVars_of_mem_availableIn hin
    · obtain ⟨j, hj, hres⟩ := List.mem_filterMap.1 hdone
      have hjb : j ∈ b.instrs := by
        rw [hsplit]
        exact List.mem_append_left _ hj
      exact mem_knownVars.2 (.inr (List.mem_flatMap.2 ⟨b, hb, List.mem_filterMap.2 ⟨j, hjb, hres⟩⟩))

/-- The type of a variable of an accepted function is the one that it is read at. -/
theorem get?_type_of_isSound (h : p.isSound = true) (hf : f ∈ p.functions)
    {types : OrderedMap String Ty} (htypes : Typing f types) {i : Instr} (hi : i ∈ f.instrs)
    {t : Ty} (hx : .var x t ∈ i.operands) : types.get? x = some t := by
  obtain ⟨t', ht'⟩ : ∃ t', types.get? x = some t' := by
    rcases mem_knownVars.1 (mem_knownVars_of_isSound h hf hi hx) with hparam | hresult
    · exact htypes.param x hparam
    · obtain ⟨b, hb, hres⟩ := List.mem_flatMap.1 hresult
      obtain ⟨j, hj, hjx⟩ := List.mem_filterMap.1 hres
      cases ha : j.action with
      | assign y v =>
        obtain rfl : y = x := by simpa [Instr.result?, ha] using hjx
        exact ⟨_, htypes.result j (List.mem_flatMap.2 ⟨b, hb, hj⟩) y v ha⟩
      | store | call | finish => simp [Instr.result?, ha] at hjx
  rw [ht', htypes.operand i hi x t hx t' ht']

/-- Every variable that an instruction on a way reads is a parameter or was assigned on that way,
and every variable that a phi takes from a block is a parameter or is assigned on every way to the
end of that block; or it is one that jumps back to the entry make available there. -/
theorem assigned_on_every_way (h : p.isSound = true) (hf : f ∈ p.functions) :
    (∀ before b, f.Way before b → ∀ done i rest, b.instrs = done ++ i :: rest →
      i.isPhi = false → ∀ x t, .var x t ∈ i.operands →
        x ∈ f.paramNames ∨ x ∈ before.flatMap Block.results ∨
          x ∈ done.filterMap Instr.result? ∨ f.Regained x) ∧
    (∀ i ∈ f.instrs, ∀ y u entries, i.action = .assign y (.phi u entries) →
      ∀ l x t, ⟨l, .var x t⟩ ∈ entries → ∀ before b, f.Way before b → b.label = l →
        x ∈ f.paramNames ∨ x ∈ (before ++ [b]).flatMap Block.results ∨ f.Regained x) ∧
    ((∀ e, f.entry? = some e → ∀ b ∈ f.blocks, e.label ∉ b.targets) → ∀ x, ¬f.Regained x) := by
  obtain ⟨g, hg⟩ := exists_flow_of_isSound h hf
  refine ⟨?_, ?_, fun hentry x ↦ not_regained hentry⟩
  · intro before b hway done i rest hb hphi x t hx
    obtain ⟨s, huse, hiff⟩ := useDefects_of_isSound h hf hg hway.mem hb
    rcases (hiff x).1 (mem_of_useDefects_eq_nil huse hphi hx) with hin | hdone
    · rcases hway.mem_of_mem_availableIn hg hin with hx | hx | hx
      · exact .inl hx
      · exact .inr (.inl hx)
      · exact .inr (.inr (.inr hx))
    · exact .inr (.inr (.inl hdone))
  · rintro i hi y u entries ha l x t hentry before b hway rfl
    obtain ⟨c, hc, hic⟩ := List.mem_flatMap.1 hi
    obtain ⟨done, rest, hsplit⟩ := List.append_of_mem hic
    obtain ⟨s, huse, -⟩ := useDefects_of_isSound h hf hg hc hsplit
    have hend := mem_atEnd_of_useDefects_eq_nil huse ha hentry
    rcases mem_of_mem_atEnd hway.block?_eq hend with hin | hb
    · exact given_append (hway.mem_of_mem_availableIn hg hin)
    · exact .inr (.inl (mem_flatMap_append hb))

/-! ## Functions without a variable to drop

Meets go through hash sets, which no proof evaluates.  With all variables at the end of every block
the sets that a visit finds are given here by intersections of lists. -/

/-- What is available at the start of a block when every block ends with all variables. -/
def startVars (f : Function) (g : Flow) (l : String) : OrderedSet String :=
  match g.predecessors l with
  | [] => .ofList f.paramNames
  | p :: ps => ps.foldl (fun s q ↦ s.inter [f.allAvailable.atEnd q]) (f.allAvailable.atEnd p)

theorem availableIn_allAvailable (f : Function) (g : Flow) (l : String) :
    f.availableIn g f.allAvailable l = f.startVars g l := by
  unfold availableIn startVars
  cases g.predecessors l with
  | nil => rfl
  | cons q qs => simp only [OrderedSet.meet_eq_inter]

/-- If every block keeps all variables, a program of one function is accepted when no use has a
defect with all of them at hand. -/
theorem isSound_of_allAvailable (hp : p.functions = [f]) (hg : f.flow = .ok g)
    (hkeep : ∀ b ∈ f.blocks, ∀ x ∈ f.knownVars.toList,
      x ∈ (f.startVars g b.label).insertAll b.results)
    (huses : (f.blocks.flatMap fun b ↦
      (b.instrs.zip (availableBefore (f.startVars g b.label) b.instrs)).flatMap
        fun (i, before) ↦ useDefects f.allAvailable b i before) = [])
    (hstructure : f.blocks.flatMap (p.structureDefects f) = []) (htypes : p.typingDefects f = []) :
    p.isSound = true := by
  have havail : f.availability g = f.allAvailable := by
    refine availability_eq_allAvailable fun b hb x hx ↦ ?_
    rw [foundAtEnd, availableIn_allAvailable]
    exact hkeep b hb x hx
  have hdefs : f.definitionDefects g = [] := by
    unfold definitionDefects
    simp only [havail, availableIn_allAvailable]
    exact huses
  rw [Program.isSound, List.isEmpty_iff, Program.defects, hp, List.flatMap_singleton,
    Program.functionDefects, hstructure, hg]
  dsimp only
  rw [hdefs, htypes]
  rfl

end Function

/-! ## A loop, and a loop at the entry -/

open Width (byte)

/-- A function that compares, goes round a loop, and returns a sum. -/
def circling : Function where
  name := "f"
  params := [⟨"a", .int byte⟩]
  returns := .int byte
  isVararg := false
  blocks :=
    [⟨"entry",
      [⟨.assign "x" (.binary .add (.int byte) (.var "a" (.int byte)) (.literal 1 byte)), 1⟩,
        ⟨.assign "c" (.compare .ult (.int byte) (.var "x" (.int byte)) (.literal 9 byte)), 2⟩,
        ⟨.finish (.jmp "head"), 3⟩]⟩,
      ⟨"head", [⟨.finish (.jnz (.var "c" .i1) "head" "out"), 4⟩]⟩,
      ⟨"out", [⟨.finish (.ret (.int byte) (.var "x" (.int byte))), 5⟩]⟩]

/-- The function is accepted: its variable is defined on every way. -/
theorem isSound_circling : Program.isSound ⟨[], [], [circling]⟩ = true :=
  Function.isSound_of_allAvailable rfl rfl (by decide) (by decide) (by decide) (by decide)

/-- Round the loop, no variable is read that was not assigned before. -/
theorem assigned_on_every_way_circling :
    Program.isSound ⟨[], [], [circling]⟩ = true ∧
    (∀ x, ¬circling.Regained x) ∧
    ∀ before b, circling.Way before b → ∀ done i rest, b.instrs = done ++ i :: rest →
      i.isPhi = false → ∀ x t, .var x t ∈ i.operands →
        x = "a" ∨ x ∈ before.flatMap Block.results ∨ x ∈ done.filterMap Instr.result? := by
  obtain ⟨huses, -, hentry⟩ :=
    Function.assigned_on_every_way isSound_circling (List.mem_singleton_self circling)
  have hnone : ∀ x, ¬circling.Regained x := hentry (by decide)
  refine ⟨isSound_circling, hnone, ?_⟩
  intro before b hway done i rest hb hphi x t hx
  rcases huses before b hway done i rest hb hphi x t hx with hx | hx | hx | hx
  · exact .inl (List.mem_singleton.1 hx)
  · exact .inr (.inl hx)
  · exact .inr (.inr hx)
  · exact absurd hx (hnone x)

/-- A function whose entry jumps to itself, and reads the variable that it assigns. -/
def spinning : Function where
  name := "f"
  params := []
  returns := .void
  isVararg := false
  blocks :=
    [⟨"entry",
      [⟨.assign "x" (.binary .add (.int byte) (.var "x" (.int byte)) (.literal 1 byte)), 1⟩,
        ⟨.finish (.jmp "entry"), 2⟩]⟩]

/-- The function is accepted, although its variable is read before it is assigned. -/
theorem isSound_spinning : Program.isSound ⟨[], [], [spinning]⟩ = true :=
  Function.isSound_of_allAvailable rfl rfl (by decide) (by decide) (by decide) (by decide)

/-- A use before the definition can be accepted: the entry counts its own result among the variables
that it starts with. -/
theorem not_assigned_on_every_way_spinning :
    Program.isSound ⟨[], [], [spinning]⟩ = true ∧
    ∃ b i rest x t, spinning.Way [] b ∧ b.instrs = i :: rest ∧ i.isPhi = false ∧
      .var x t ∈ i.operands ∧ x ∉ spinning.paramNames := by
  refine ⟨isSound_spinning, _, _, _, "x", .int byte, .entry rfl, rfl, rfl, ?_, ?_⟩
  · exact List.mem_cons_self
  · exact List.not_mem_nil

end RangeFlow
