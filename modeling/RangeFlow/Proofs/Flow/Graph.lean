import Mathlib.Data.List.Nodup
import RangeFlow.Flow.Graph

/-!
# The flow graph of a function

The edges of the graph lead from each block to those that its terminator names
(`Function.Passes`).  A function has a graph if each of its blocks is terminated and each label that
a terminator names is that of a block (`Function.IsWired`).
-/

namespace RangeFlow

/-! ## Maps that may fail -/

/-- A map that may fail and does not gives a result for each element, and no others. -/
theorem mem_of_mapM {ε α β : Type} {h : α → Except ε β} {xs : List α} {ys : List β}
    (hxs : xs.mapM h = .ok ys) :
    (∀ x ∈ xs, ∃ y ∈ ys, h x = .ok y) ∧ ∀ y ∈ ys, ∃ x ∈ xs, h x = .ok y := by
  induction xs generalizing ys with
  | nil =>
    cases hxs
    exact ⟨fun _ h ↦ (List.not_mem_nil h).elim, fun _ h ↦ (List.not_mem_nil h).elim⟩
  | cons x xs ih =>
    rw [List.mapM_cons] at hxs
    cases hx : h x with
    | error e => simp [hx, bind, Except.bind] at hxs
    | ok y =>
      cases hrest : xs.mapM h with
      | error e => simp [hx, hrest, bind, Except.bind] at hxs
      | ok zs =>
        simp only [hx, hrest, bind, Except.bind, pure, Except.pure, Except.ok.injEq] at hxs
        subst hxs
        obtain ⟨hl, hr⟩ := ih hrest
        constructor
        · intro x' hx'
          rcases List.mem_cons.1 hx' with rfl | hx'
          · exact ⟨y, List.mem_cons_self, hx⟩
          · obtain ⟨z, hz, hxz⟩ := hl x' hx'
            exact ⟨z, List.mem_cons_of_mem y hz, hxz⟩
        · intro z hz
          rcases List.mem_cons.1 hz with rfl | hz
          · exact ⟨x, List.mem_cons_self, hx⟩
          · obtain ⟨x', hx', hxz⟩ := hr z hz
            exact ⟨x', List.mem_cons_of_mem x hx', hxz⟩

/-- A map succeeds if it does on each element. -/
theorem exists_mapM_eq_ok {ε α β : Type} {h : α → Except ε β} {xs : List α}
    (hxs : ∀ x ∈ xs, ∃ y, h x = .ok y) : ∃ ys, xs.mapM h = .ok ys := by
  induction xs with
  | nil => exact ⟨[], rfl⟩
  | cons x xs ih =>
    obtain ⟨y, hy⟩ := hxs x List.mem_cons_self
    obtain ⟨ys, hys⟩ := ih fun x' hx' ↦ hxs x' (List.mem_cons_of_mem x hx')
    exact ⟨y :: ys, by simp [List.mapM_cons, hy, hys, bind, Except.bind, pure, Except.pure]⟩

/-! ## Blocks and their labels -/

namespace Function

/-- If labels are distinct, a block is found by its label, and no other block is. -/
theorem block?_eq_some {f : Function} (h : f.labels.Nodup) {l : String} {b : Block} :
    f.block? l = some b ↔ b ∈ f.blocks ∧ b.label = l := by
  constructor
  · exact mem_of_block?
  · rintro ⟨hb, rfl⟩
    cases hc : f.block? b.label with
    | none =>
      have hnone := List.find?_eq_none.1 hc b hb
      simp at hnone
    | some c =>
      obtain ⟨hmem, hlabel⟩ := mem_of_block? hc
      rw [List.inj_on_of_nodup_map h hmem hb hlabel]

/-- There is a block for a label if and only if it is one of the labels. -/
theorem hasBlock_iff {f : Function} {l : String} : f.hasBlock l = true ↔ l ∈ f.labels := by
  simp [hasBlock, block?, labels]

end Function

/-- The labels of the blocks that a block can pass control to. -/
def Block.targets (b : Block) : List String := (b.terminator?.map Terminator.labels).getD []

theorem Block.mem_targets {b : Block} {l : String} :
    l ∈ b.targets ↔ ∃ t, b.terminator? = some t ∧ l ∈ t.labels := by
  unfold targets
  cases b.terminator? <;> simp

/-! ## Edges -/

theorem target_eq_ok {f : Function} {l l' : String} (h : f.target l = .ok l') : l' = l := by
  unfold Function.target at h
  split at h
  · cases h
    rfl
  · cases h

/-- The successors of a block are the labels that its terminator names. -/
theorem mem_successors {f : Function} {b : Block} {ls : List String} (h : f.successors b = .ok ls)
    {l : String} : l ∈ ls ↔ ∃ t, b.terminator? = some t ∧ l ∈ t.labels := by
  unfold Function.successors at h
  cases ht : b.terminator? with
  | none => simp [ht] at h
  | some t =>
    simp only [ht] at h
    obtain ⟨hl, hr⟩ := mem_of_mapM h
    have hlabels : l ∈ (OrderedSet.ofList t.labels).toList ↔ l ∈ t.labels := by
      rw [OrderedSet.mem_toList, OrderedSet.mem_ofList]
    simp only [Option.some.injEq, exists_eq_left']
    rw [← hlabels]
    constructor
    · intro hmem
      obtain ⟨l', hl', htarget⟩ := hr l hmem
      rw [target_eq_ok htarget]
      exact hl'
    · intro hmem
      obtain ⟨l', hl', htarget⟩ := hl l hmem
      rw [← target_eq_ok htarget]
      exact hl'

/-- The edges of a flow graph are those that the terminators name. -/
theorem mem_edges {f : Function} {g : Flow} (h : f.flow = .ok g) {edge : Edge} :
    edge ∈ g.edges ↔ ∃ b ∈ f.blocks, b.label = edge.source ∧
      ∃ t, b.terminator? = some t ∧ edge.target ∈ t.labels := by
  have hfrom {b : Block} {es : List Edge} (hes : f.edgesFrom b = .ok es) :
      edge ∈ es ↔ b.label = edge.source ∧ ∃ t, b.terminator? = some t ∧ edge.target ∈ t.labels := by
    unfold Function.edgesFrom at hes
    cases hls : f.successors b with
    | error x => simp [hls, bind, Except.bind] at hes
    | ok ls =>
      simp only [hls, bind, Except.bind, pure, Except.pure, Except.ok.injEq] at hes
      subst hes
      rw [List.mem_map, ← mem_successors hls]
      constructor
      · rintro ⟨l, hl, rfl⟩
        exact ⟨rfl, hl⟩
      · rintro ⟨hsource, hl⟩
        exact ⟨edge.target, hl, by rw [hsource]⟩
  unfold Function.flow at h
  cases hes : f.blocks.mapM f.edgesFrom with
  | error x => simp [hes, bind, Except.bind] at h
  | ok es =>
    simp only [hes, bind, Except.bind, pure, Except.pure, Except.ok.injEq] at h
    subst h
    obtain ⟨hl, hr⟩ := mem_of_mapM hes
    rw [List.mem_flatten]
    constructor
    · rintro ⟨es', hes', hedge⟩
      obtain ⟨b, hb, hfb⟩ := hr es' hes'
      exact ⟨b, hb, (hfrom hfb).1 hedge⟩
    · rintro ⟨b, hb, hedge⟩
      obtain ⟨es', hes', hfb⟩ := hl b hb
      exact ⟨es', hes', (hfrom hfb).2 hedge⟩

/-- The predecessors of a block are those whose terminator names it. -/
theorem mem_predecessors {f : Function} {g : Flow} (h : f.flow = .ok g) {l source : String} :
    source ∈ g.predecessors l ↔ ∃ b ∈ f.blocks, b.label = source ∧
      ∃ t, b.terminator? = some t ∧ l ∈ t.labels := by
  unfold Flow.predecessors
  rw [List.mem_map]
  constructor
  · rintro ⟨edge, hedge, rfl⟩
    rw [List.mem_filter, mem_edges h, beq_iff_eq] at hedge
    obtain ⟨hedge, rfl⟩ := hedge
    exact hedge
  · intro hsource
    exact ⟨⟨source, l⟩, List.mem_filter.2 ⟨(mem_edges h).2 hsource, beq_self_eq_true l⟩, rfl⟩

theorem Flow.mem_successors_iff {g : Flow} {l k : String} :
    k ∈ g.successors l ↔ l ∈ g.predecessors k := by
  simp only [successors, predecessors, List.mem_map, List.mem_filter, beq_iff_eq]
  constructor
  · rintro ⟨edge, ⟨hedge, rfl⟩, rfl⟩
    exact ⟨edge, ⟨hedge, rfl⟩, rfl⟩
  · rintro ⟨edge, ⟨hedge, rfl⟩, rfl⟩
    exact ⟨edge, ⟨hedge, rfl⟩, rfl⟩

namespace Function

variable {f : Function} {g : Flow} {l source : String}

/-- Control can pass from the end of a block to the start of another one. -/
def Passes (f : Function) (source target : String) : Prop :=
  ∃ b ∈ f.blocks, b.label = source ∧ target ∈ b.targets

/-- Control passes along the edges of the graph: from predecessors. -/
theorem passes_iff_mem_predecessors (h : f.flow = .ok g) :
    f.Passes source l ↔ source ∈ g.predecessors l := by
  simp only [Passes, mem_predecessors h, Block.mem_targets]

/-- Control passes along the edges of the graph: to successors. -/
theorem passes_iff_mem_successors (h : f.flow = .ok g) :
    f.Passes source l ↔ l ∈ g.successors source := by
  rw [passes_iff_mem_predecessors h, Flow.mem_successors_iff]

/-! ## Functions that have a graph -/

/-- Every block is terminated, and every label that a terminator names is that of a block. -/
structure IsWired (f : Function) : Prop where
  terminated : ∀ b ∈ f.blocks, b.isTerminated = true
  mem_labels : ∀ b ∈ f.blocks, ∀ l ∈ b.targets, l ∈ f.labels

theorem IsWired.exists_successors (h : f.IsWired) {b : Block} (hb : b ∈ f.blocks) :
    ∃ ls, f.successors b = .ok ls := by
  obtain ⟨t, ht⟩ := Option.isSome_iff_exists.1 (h.terminated b hb)
  unfold successors
  rw [ht]
  refine exists_mapM_eq_ok fun l hl ↦ ⟨l, ?_⟩
  rw [OrderedSet.mem_toList, OrderedSet.mem_ofList] at hl
  have hl := h.mem_labels b hb l (Block.mem_targets.2 ⟨t, ht, hl⟩)
  rw [target, if_pos (hasBlock_iff.2 hl)]

/-- A function that is wired has a flow graph. -/
theorem exists_flow (h : f.IsWired) : ∃ g, f.flow = .ok g := by
  have hedges : ∀ b ∈ f.blocks, ∃ es, f.edgesFrom b = .ok es := by
    intro b hb
    obtain ⟨ls, hls⟩ := h.exists_successors hb
    exact ⟨_, by rw [edgesFrom, hls]; rfl⟩
  obtain ⟨es, hes⟩ := exists_mapM_eq_ok hedges
  exact ⟨_, by rw [flow, hes]; rfl⟩

/-- The blocks of the graph are those of the function, in layout order. -/
theorem labels_of_flow (h : f.flow = .ok g) : g.labels = f.labels := by
  unfold flow at h
  cases hes : f.blocks.mapM f.edgesFrom with
  | error x => simp [hes, bind, Except.bind] at h
  | ok es =>
    rw [hes] at h
    cases h
    rfl

/-- In a wired function control passes to blocks only. -/
theorem IsWired.mem_labels_of_passes (h : f.IsWired) (hl : f.Passes source l) : l ∈ f.labels := by
  obtain ⟨b, hb, -, hl⟩ := hl
  exact h.mem_labels b hb l hl

end Function

end RangeFlow
