import RangeFlow.Flow.BackEdge
import RangeFlow.Proofs.Flow.Graph

/-!
# Functions laid out forward

If every edge leads to a block that is laid out later, no edge closes a loop: the blocks under
search have growing positions, so a successor of the innermost one is not among them.
-/

namespace RangeFlow

/-! ## Back edges -/

namespace Flow

/-- The blocks under search lie one after the other, and their successors after them. -/
structure Climbs (rank : String → Nat) (stack : List Frame) : Prop where
  blocks : stack.Pairwise fun inner outer ↦ rank outer.block < rank inner.block
  pending : ∀ frame ∈ stack, ∀ s ∈ frame.pending, rank frame.block < rank s

namespace Climbs

variable {rank : String → Nat} {b s : String} {pending : List String} {stack : List Frame}

theorem tail {frame : Frame} (h : Climbs rank (frame :: stack)) : Climbs rank stack :=
  ⟨h.blocks.of_cons, fun fr hfr ↦ h.pending fr (List.mem_cons_of_mem frame hfr)⟩

/-- The block that is looked at next lies after the one under search. -/
theorem rank_lt (h : Climbs rank (⟨b, s :: pending⟩ :: stack)) : rank b < rank s :=
  h.pending _ List.mem_cons_self s List.mem_cons_self

/-- The innermost block has looked at one of its successors. -/
theorem advance (h : Climbs rank (⟨b, s :: pending⟩ :: stack)) :
    Climbs rank (⟨b, pending⟩ :: stack) := by
  refine ⟨List.pairwise_cons.2 ⟨(List.pairwise_cons.1 h.blocks).1, h.tail.blocks⟩, ?_⟩
  intro frame hframe
  rcases List.mem_cons.1 hframe with rfl | hframe
  · exact fun t ht ↦ h.pending _ List.mem_cons_self t (List.mem_cons_of_mem s ht)
  · exact h.tail.pending frame hframe

/-- The search goes on with a successor. -/
theorem push (h : Climbs rank (⟨b, s :: pending⟩ :: stack)) {next : List String}
    (hnext : ∀ t ∈ next, rank s < rank t) :
    Climbs rank (⟨s, next⟩ :: ⟨b, pending⟩ :: stack) := by
  refine ⟨List.pairwise_cons.2 ⟨fun frame hframe ↦ ?_, h.advance.blocks⟩, ?_⟩
  · rcases List.mem_cons.1 hframe with rfl | hframe
    · exact h.rank_lt
    · exact Nat.lt_trans ((List.pairwise_cons.1 h.blocks).1 frame hframe) h.rank_lt
  · intro frame hframe
    rcases List.mem_cons.1 hframe with rfl | hframe
    · exact hnext
    · exact h.advance.pending frame hframe

/-- A successor of the innermost block is not under search. -/
theorem not_closing (h : Climbs rank (⟨b, s :: pending⟩ :: stack)) :
    ¬(s = b ∨ s ∈ stack.map Frame.block) := by
  rintro (rfl | hmem)
  · exact absurd h.rank_lt (Nat.lt_irrefl _)
  · obtain ⟨frame, hframe, rfl⟩ := List.mem_map.1 hmem
    have hlt := (List.pairwise_cons.1 h.blocks).1 frame hframe
    exact absurd (Nat.lt_trans hlt h.rank_lt) (Nat.lt_irrefl _)

end Climbs

/-- A search along edges that lead upwards finds no edge that closes a loop. -/
theorem search_of_climbs {g : Flow} {rank : String → Nat}
    (hrank : ∀ edge ∈ g.edges, rank edge.source < rank edge.target) (unvisited : List String)
    (found : OrderedSet Edge) (stack : List Frame) (h : Climbs rank stack) :
    g.search unvisited found stack = found := by
  induction unvisited, found, stack using Flow.search.induct g with
  | case1 unvisited found => rw [search]
  | case2 unvisited found b stack ih =>
    rw [search]
    exact ih h.tail
  | case3 unvisited found b s pending stack hs ih =>
    rw [search, if_pos hs]
    refine ih (h.push fun t ht ↦ ?_)
    obtain ⟨edge, hedge, rfl⟩ := List.mem_map.1 ht
    rw [List.mem_filter, beq_iff_eq] at hedge
    obtain ⟨hedge, rfl⟩ := hedge
    exact hrank edge hedge
  | case4 unvisited found b s pending stack hs hclosing ih => exact absurd hclosing h.not_closing
  | case5 unvisited found b s pending stack hs hclosing ih =>
    rw [search, if_neg hs, if_neg hclosing]
    exact ih h.advance

end Flow

/-- Every edge leads to a block that is laid out later. -/
def Function.IsForward (f : Function) : Prop :=
  f.blocks.Pairwise (fun b c ↦ b.label ∉ c.targets) ∧ ∀ b ∈ f.blocks, b.label ∉ b.targets

instance (f : Function) : Decidable f.IsForward := inferInstanceAs (Decidable (_ ∧ _))

/-- No edge leads to its own block or to one laid out before. -/
theorem Function.IsForward.notMem_targets {f : Function} (hf : f.IsForward)
    {before after : List Block} {b : Block} (heq : f.blocks = before ++ b :: after) {c : Block}
    (hc : c ∈ before ++ [b]) : c.label ∉ b.targets := by
  rcases List.mem_append.1 hc with hc | hc
  · have hpairs := hf.1
    rw [heq, List.pairwise_append] at hpairs
    exact hpairs.2.2 c hc b List.mem_cons_self
  · rw [List.mem_singleton.1 hc]
    exact hf.2 b (by simp [heq])

/-- In a forward function edges lead on in the layout. -/
theorem idxOf_lt_of_isForward {f : Function} {g : Flow} (hf : f.IsForward) (hg : f.flow = .ok g)
    {edge : Edge} (h : edge ∈ g.edges) :
    f.labels.idxOf edge.source < f.labels.idxOf edge.target := by
  obtain ⟨b, hb, hsource, t, ht, htarget⟩ := (mem_edges hg).1 h
  obtain ⟨before, after, heq⟩ := List.append_of_mem hb
  have hlabels : f.labels = (before ++ [b]).map Block.label ++ after.map Block.label := by
    simp [Function.labels, heq]
  have hmem : edge.source ∈ (before ++ [b]).map Block.label := by
    rw [← hsource]
    simp
  have hnot : edge.target ∉ (before ++ [b]).map Block.label := by
    intro hl
    obtain ⟨c, hc, hcl⟩ := List.mem_map.1 hl
    exact hf.notMem_targets heq hc (Block.mem_targets.2 ⟨t, ht, hcl ▸ htarget⟩)
  rw [hlabels, List.idxOf_append_of_mem hmem, List.idxOf_append_of_notMem hnot]
  exact Nat.lt_add_right _ (List.idxOf_lt_length_of_mem hmem)

/-- In a function laid out forward no edge closes a loop. -/
theorem backEdges_of_isForward {f : Function} {loops : OrderedSet Edge} (hf : f.IsForward)
    (h : f.backEdges = .ok loops) : loops = ∅ := by
  unfold Function.backEdges at h
  cases hg : f.flow with
  | error x => simp [hg, bind, Except.bind] at h
  | ok g =>
    simp only [hg, bind, Except.bind] at h
    split at h
    · rename_i b _
      cases h
      let rank := fun l ↦ f.labels.idxOf l
      have hrank : ∀ edge ∈ g.edges, rank edge.source < rank edge.target :=
        fun edge hedge ↦ idxOf_lt_of_isForward hf hg hedge
      refine Flow.search_of_climbs hrank _ _ _ ⟨List.pairwise_singleton _ _, ?_⟩
      intro frame hframe s hs
      rw [List.mem_singleton] at hframe
      subst hframe
      obtain ⟨edge, hedge, rfl⟩ := List.mem_map.1 hs
      rw [List.mem_filter, beq_iff_eq] at hedge
      rw [← hedge.2]
      exact hrank edge hedge.1
    · cases h

end RangeFlow
