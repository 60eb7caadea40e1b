import Mathlib.Logic.Relation
import Mathlib.Order.WellFounded
import RangeFlow.Proofs.Flow.Availability

/-!
# What is available does not depend on the order of the worklist

What is available at the ends of the blocks is the greatest solution of one equation for each block
(`Function.IsGreatestSolution`).  A worklist that takes its blocks in any order (`Function.Visits`)
ends with this solution too, since what its visits keep (`Function.Settles`) says nothing of an
order.
-/

namespace RangeFlow

open Relation (ReflTransGen)

def Availability.Has (a : Availability) (l x : String) : Prop := x ∈ a.atEnd l

namespace Function

variable {f : Function} {g : Flow} {A B : String → String → Prop} {a : Availability} {b : Block}
variable {l x : String}

/-! ## Solutions -/

/-- The variables at the start of a block, given those at the ends of all blocks: the parameters if
no block leads to it, else what is there at the end of all that lead to it. -/
def AtStart (f : Function) (A : String → String → Prop) (l x : String) : Prop :=
  ((∀ q, ¬f.Passes q l) ∧ x ∈ f.paramNames) ∨
    ((∃ q, f.Passes q l) ∧ ∀ q, f.Passes q l → A q x)

/-- The variables at the end of a block: those at its start and those that it assigns. -/
def AtEnd (f : Function) (A : String → String → Prop) (b : Block) (x : String) : Prop :=
  f.AtStart A b.label x ∨ x ∈ b.results

/-- Sets of variables of the function, one for the end of each block, that solve the equations. -/
structure IsSolution (f : Function) (A : String → String → Prop) : Prop where
  known : ∀ b ∈ f.blocks, ∀ x, A b.label x → x ∈ f.knownVars
  equation : ∀ b ∈ f.blocks, ∀ x, A b.label x ↔ f.AtEnd A b x

/-- The solution that contains all others. -/
structure IsGreatestSolution (f : Function) (A : String → String → Prop) : Prop
    extends f.IsSolution A where
  greatest : ∀ B, f.IsSolution B → ∀ b ∈ f.blocks, ∀ x, B b.label x → A b.label x

/-- There is one greatest solution. -/
theorem IsGreatestSolution.unique (hA : f.IsGreatestSolution A) (hB : f.IsGreatestSolution B)
    (hb : b ∈ f.blocks) : A b.label x ↔ B b.label x :=
  ⟨hB.greatest A hA.toIsSolution b hb x, hA.greatest B hB.toIsSolution b hb x⟩

theorem predecessors_eq_nil_iff (hg : f.flow = .ok g) :
    g.predecessors l = [] ↔ ∀ q, ¬f.Passes q l := by
  simp only [List.eq_nil_iff_forall_not_mem, passes_iff_mem_predecessors hg]

/-- The start of a block is worked out as its equation says. -/
theorem mem_availableIn_iff (hg : f.flow = .ok g) :
    x ∈ f.availableIn g a l ↔ f.AtStart a.Has l x := by
  by_cases hnil : g.predecessors l = []
  · have hnone := (predecessors_eq_nil_iff hg).1 hnil
    rw [mem_availableIn_of_nil hnil]
    refine ⟨fun hx ↦ .inl ⟨hnone, hx⟩, fun hx ↦ ?_⟩
    rcases hx with ⟨-, hx⟩ | ⟨⟨q, hq⟩, -⟩
    · exact hx
    · exact absurd hq (hnone q)
  · rw [mem_availableIn hnil]
    simp only [← passes_iff_mem_predecessors hg]
    rw [predecessors_eq_nil_iff hg] at hnil
    push Not at hnil
    refine ⟨fun hx ↦ .inr ⟨hnil, hx⟩, fun hx ↦ ?_⟩
    rcases hx with ⟨hnone, -⟩ | ⟨-, hx⟩
    · exact absurd hnil.choose_spec (hnone _)
    · exact hx

/-- A visit finds what the equation of the block gives. -/
theorem mem_foundAtEnd_iff (hg : f.flow = .ok g) : x ∈ f.foundAtEnd g a b ↔ f.AtEnd a.Has b x := by
  rw [mem_foundAtEnd, mem_availableIn_iff hg, AtEnd]

/-- A solution agrees. -/
theorem IsSolution.isConsistent (hA : f.IsSolution A) (hlabels : f.labels.Nodup)
    (hg : f.flow = .ok g) : f.IsConsistent g fun l x ↦ ∃ b ∈ f.blocks, b.label = l ∧ A l x := by
  rintro l x ⟨b, hb, rfl, hx⟩
  refine ⟨b, (block?_eq_some hlabels).2 ⟨hb, rfl⟩, ?_⟩
  rcases (hA.equation b hb x).1 hx with (⟨hnone, hparam⟩ | ⟨⟨q, hq⟩, hall⟩) | hresult
  · exact .inr (.inl ⟨(predecessors_eq_nil_iff hg).2 hnone, hparam⟩)
  · refine .inr (.inr ⟨fun hnil ↦ (predecessors_eq_nil_iff hg).1 hnil q hq, fun r hr ↦ ?_⟩)
    have hpasses := (passes_iff_mem_predecessors hg).2 hr
    obtain ⟨c, hc, hlabel, -⟩ := id hpasses
    exact ⟨c, hc, hlabel, hall r hpasses⟩
  · exact .inl hresult

/-! ## The variables that are available -/

/-- When no block is left to be visited, the sets are the greatest solution. -/
theorem Settles.isGreatestSolution {s : Progress} (h : f.Settles g s) (hwork : s.work = ∅)
    (hlabels : f.labels.Nodup) (hg : f.flow = .ok g) : f.IsGreatestSolution s.ends.Has := by
  have hblock {b : Block} (hb : b ∈ f.blocks) : f.block? b.label = some b :=
    (block?_eq_some hlabels).2 ⟨hb, rfl⟩
  refine ⟨⟨fun b _ x hx ↦ (h.own b.label x hx).2, fun b hb x ↦ ⟨fun hx ↦ ?_, fun hx ↦ ?_⟩⟩, ?_⟩
  · refine (mem_foundAtEnd_iff hg).1 (h.solved b.label b (hblock hb) ?_ x hx)
    exact hwork ▸ OrderedSet.notMem_empty _
  · exact h.found b.label b (hblock hb) x ((mem_foundAtEnd_iff hg).2 hx)
  · intro B hB b hb x hx
    refine h.above _ (hB.isConsistent hlabels hg) ?_ b.label x ⟨b, hb, rfl, hx⟩
    rintro l y ⟨c, hc, rfl, hy⟩
    exact hB.known c hc y hy

/-- What is available at the ends of the blocks is the greatest solution. -/
theorem isGreatestSolution_availability (hlabels : f.labels.Nodup) (hg : f.flow = .ok g) :
    f.IsGreatestSolution (f.availability g).Has := by
  obtain ⟨hsettles, hwork⟩ := f.settles_settled g
  exact hsettles.isGreatestSolution hwork hlabels hg

/-- The variables at the end of each block are the greatest solution, and those before each
instruction are there at the start of its block or assigned before it. -/
structure IsAvailability (f : Function) (ends : Availability)
    (before : Block → List (OrderedSet String)) : Prop where
  greatest : f.IsGreatestSolution ends.Has
  before : ∀ b ∈ f.blocks, ∀ done i rest, b.instrs = done ++ i :: rest →
    ∃ s, (before b)[done.length]? = some s ∧
      ∀ x, x ∈ s ↔ f.AtStart ends.Has b.label x ∨ x ∈ done.filterMap Instr.result?

/-- The sets before the instructions follow from those at the starts of the blocks. -/
theorem isAvailability_of_greatest {before : Block → List (OrderedSet String)}
    (hg : f.flow = .ok g) (ha : f.IsGreatestSolution a.Has)
    (hbefore : ∀ b ∈ f.blocks, before b = availableBefore (f.availableIn g a b.label) b.instrs) :
    f.IsAvailability a before where
  greatest := ha
  before b hb done i rest hinstrs := by
    refine ⟨(f.availableIn g a b.label).insertAll (done.filterMap Instr.result?), ?_, fun x ↦ ?_⟩
    · rw [hbefore b hb, hinstrs]
      exact getElem?_availableBefore _ done i rest
    · rw [OrderedSet.mem_insertAll, mem_availableIn_iff hg]

/-! ## Any order -/

/-- The sets noted for the instructions of a block. -/
def Progress.before (s : Progress) (b : Block) : List (OrderedSet String) :=
  (s.noted.get? b.label).getD []

/-- One step of the worklist, which may take any of its blocks. -/
inductive Visits (f : Function) (g : Flow) (s : Progress) : Progress → Prop
  | visit (b : Block) : b ∈ f.blocks → b.label ∈ s.work → Visits f g s (f.visit g s b)

section Visits

variable {s t : Progress} (hlabels : f.labels.Nodup)

namespace Settles

include hlabels

/-- The worklist becomes empty, whatever blocks it takes. -/
theorem acc {s : Progress} (h : f.Settles g s) : Acc (fun t s ↦ f.Visits g s t) s := by
  refine ⟨s, fun t ht ↦ ?_⟩
  obtain ⟨b, hb, hwork⟩ := ht
  have hblock := (block?_eq_some hlabels).2 ⟨hb, rfl⟩
  exact (h.visit hblock).acc
termination_by (s.ends.weight, s.work.size)
decreasing_by exact h.visit_lt hblock hwork

/-- A run keeps what every visit keeps, and blocks on the worklist. -/
theorem reach (htargets : ∀ l, ∀ k ∈ g.successors l, k ∈ f.labels)
    (h : f.Settles g s ∧ ∀ k ∈ s.work, k ∈ f.labels) (hreach : ReflTransGen (f.Visits g) s t) :
    f.Settles g t ∧ ∀ k ∈ t.work, k ∈ f.labels := by
  induction hreach with
  | refl => exact h
  | tail _ hstep ih =>
    obtain ⟨b, hb, -⟩ := hstep
    exact ⟨ih.1.visit ((block?_eq_some hlabels).2 ⟨hb, rfl⟩),
      fun k ↦ mem_labels_of_mem_work_visit (htargets b.label) ih.2⟩

/-- When the worklist is empty, the sets are what is available. -/
theorem isAvailability (h : f.Settles g s) (hwork : s.work = ∅) (hg : f.flow = .ok g) :
    f.IsAvailability s.ends s.before := by
  refine isAvailability_of_greatest hg (h.isGreatestSolution hwork hlabels hg) fun b hb ↦ ?_
  have hblock := (block?_eq_some hlabels).2 ⟨hb, rfl⟩
  rw [Progress.before, h.noted b.label b hblock (hwork ▸ OrderedSet.notMem_empty _),
    Option.getD_some]

end Settles

/-- A worklist of blocks can go on until it is empty. -/
theorem exists_visits (h : ∀ k ∈ s.work, k ∈ f.labels) (hwork : s.work ≠ ∅) :
    ∃ t, f.Visits g s t := by
  cases hpop : s.work.pop? with
  | none => exact absurd (OrderedSet.pop?_eq_none.1 hpop) hwork
  | some p =>
    obtain ⟨l, rest⟩ := p
    obtain ⟨hl, -⟩ := OrderedSet.pop?_eq_some hpop
    obtain ⟨b, hb, rfl⟩ := List.mem_map.1 (h l hl)
    exact ⟨_, .visit b hb hl⟩

end Visits

/-- **Availability.**  In a function whose blocks are terminated and have labels of their own, and
whose terminators name labels that exist, what is available at the ends of the blocks is the
greatest solution, and before an instruction is available what is at the start of its block and what
is assigned before it.  A worklist that takes its blocks in any order can always go on until it is
empty, becomes empty after finitely many steps, and has then found the same. -/
theorem availability_greatest (hlabels : f.labels.Nodup) (hwired : f.IsWired) :
    ∃ g, f.flow = .ok g ∧
      f.IsAvailability (f.availability g) (fun b ↦
        availableBefore (f.availableIn g (f.availability g) b.label) b.instrs) ∧
      (¬∃ run : ℕ → Progress, run 0 = f.unvisited ∧ ∀ n, f.Visits g (run n) (run (n + 1))) ∧
      ∀ s, ReflTransGen (f.Visits g) f.unvisited s →
        (s.work ≠ ∅ → ∃ t, f.Visits g s t) ∧
        (s.work = ∅ → f.IsAvailability s.ends s.before ∧
          ∀ b ∈ f.blocks, ∀ x, x ∈ s.ends.atEnd b.label ↔ x ∈ (f.availability g).atEnd b.label) := by
  obtain ⟨g, hg⟩ := exists_flow hwired
  have htargets : ∀ l, ∀ k ∈ g.successors l, k ∈ f.labels := fun l k hk ↦
    hwired.mem_labels_of_passes ((passes_iff_mem_successors hg).2 hk)
  have hgreatest := isGreatestSolution_availability hlabels hg
  refine ⟨g, hg, isAvailability_of_greatest hg hgreatest fun _ _ ↦ rfl, ?_, fun s hreach ↦ ?_⟩
  · rintro ⟨run, hstart, hrun⟩
    have hacc := (f.settles_unvisited g).acc hlabels
    exact (acc_iff_isEmpty_descending_chain.1 hacc).false ⟨run, hstart, hrun⟩
  · obtain ⟨hsettles, hwork⟩ := Settles.reach hlabels htargets
      ⟨f.settles_unvisited g, fun _ ↦ OrderedSet.mem_ofList.1⟩ hreach
    refine ⟨exists_visits hwork, fun hempty ↦ ?_⟩
    have havail := hsettles.isAvailability hlabels hempty hg
    exact ⟨havail, fun b hb x ↦ havail.greatest.unique hgreatest hb⟩

end Function

/-- A loop that assigns a variable, and a block that nothing but itself leads to. -/
def detached : Function where
  name := "f"
  params := [⟨"c", .i1⟩]
  returns := .void
  isVararg := false
  blocks :=
    [⟨"entry", [⟨.finish (.jmp "loop"), 1⟩]⟩,
      ⟨"loop", [⟨.assign "x" (.load .i1 (.symbol "g")), 2⟩,
        ⟨.finish (.jnz (.var "c" .i1) "loop" "out"), 3⟩]⟩,
      ⟨"dead", [⟨.finish (.jmp "dead"), 4⟩]⟩,
      ⟨"out", [⟨.finish .retVoid, 5⟩]⟩]

/-- Whatever the order, the variable is available after the loop but not before it, and also in the
block that cannot be reached, where nothing assigns it. -/
theorem availability_greatest_detached :
    detached.labels.Nodup ∧ detached.IsWired ∧ ∃ g, detached.flow = .ok g ∧
      ∀ s, ReflTransGen (detached.Visits g) detached.unvisited s → s.work = ∅ →
        "x" ∉ s.ends.atEnd "entry" ∧ "x" ∈ s.ends.atEnd "loop" ∧ "x" ∈ s.ends.atEnd "dead" := by
  have hlabels : detached.labels.Nodup := by decide
  have hwired : detached.IsWired := ⟨by decide, by decide⟩
  obtain ⟨g, hg, -, -, hruns⟩ := Function.availability_greatest hlabels hwired
  refine ⟨hlabels, hwired, g, hg, fun s hreach hwork ↦ ?_⟩
  obtain ⟨⟨hgreatest, -⟩, -⟩ := (hruns s hreach).2 hwork
  have hpasses {q l : String} : detached.Passes q l ↔ (q = "entry" ∧ l = "loop") ∨
      (q = "loop" ∧ (l = "loop" ∨ l = "out")) ∨ (q = "dead" ∧ l = "dead") := by
    simp [Function.Passes, detached, Block.targets, Block.terminator?, Instr.terminator?,
      Terminator.labels, eq_comm]
  have hparams : detached.paramNames = ["c"] := rfl
  have hsolution : detached.IsSolution fun l x ↦ x = "c" ∨ (x = "x" ∧ l ≠ "entry") := by
    constructor
    · rintro b - x (rfl | ⟨rfl, -⟩) <;> exact Function.mem_knownVars.2 (by decide)
    · intro b hb x
      simp only [detached, List.mem_cons, List.not_mem_nil, or_false] at hb
      rcases hb with rfl | rfl | rfl | rfl <;>
        simp [Function.AtEnd, Function.AtStart, hpasses, hparams, Block.results, Instr.result?]
      grind
  have hrest {l : String} (hl : l ∈ detached.labels) (hne : l ≠ "entry") : s.ends.Has l "x" := by
    obtain ⟨b, hb, rfl⟩ := List.mem_map.1 hl
    exact hgreatest.greatest _ hsolution b hb "x" (.inr ⟨rfl, hne⟩)
  refine ⟨fun hx ↦ ?_, hrest (by decide) (by decide), hrest (by decide) (by decide)⟩
  have hend := (hgreatest.equation _ List.mem_cons_self "x").1 hx
  simp [Function.AtEnd, Function.AtStart, hpasses, hparams, Block.results, Instr.result?] at hend

end RangeFlow
