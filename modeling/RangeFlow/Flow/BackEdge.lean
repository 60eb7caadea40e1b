import RangeFlow.Flow.Graph

/-! # Edges that close loops

A depth-first search from the entry takes the successors of each block in order. An edge to a
block whose search is still under way closes a loop. -/

namespace RangeFlow

namespace Flow

/-- A block under search and the successors it has yet to look at. -/
structure Frame where
  block : String
  pending : List String
deriving DecidableEq, Repr

/-- The number of steps a frame can still take. -/
def Frame.weight (f : Frame) : Nat := f.pending.length + 1

/-- Continues the search with the innermost frame; `unvisited` lists the blocks not met so far. -/
def search (g : Flow) (unvisited : List String) (found : OrderedSet Edge) :
    List Frame → OrderedSet Edge
  | [] => found
  | ⟨_, []⟩ :: stack => search g unvisited found stack
  | ⟨b, s :: pending⟩ :: stack =>
    if s ∈ unvisited then
      search g (unvisited.erase s) found (⟨s, g.successors s⟩ :: ⟨b, pending⟩ :: stack)
    else if s = b ∨ s ∈ stack.map Frame.block then
      search g unvisited (found.insert ⟨b, s⟩) (⟨b, pending⟩ :: stack)
    else search g unvisited found (⟨b, pending⟩ :: stack)
termination_by stack => (unvisited.length, stack.foldr (fun f n => f.weight + n) 0)
decreasing_by
  · apply Prod.Lex.right
    simp [Frame.weight]
  · apply Prod.Lex.left
    rename_i h
    rw [List.length_erase_of_mem h]
    have := List.length_pos_of_mem h
    omega
  · apply Prod.Lex.right
    simp [Frame.weight]
  · apply Prod.Lex.right
    simp [Frame.weight]

/-- The edges that close loops, in the order in which the search meets them. -/
def backEdges (g : Flow) (entry : String) : OrderedSet Edge :=
  g.search (g.labels.erase entry) ∅ [⟨entry, g.successors entry⟩]

end Flow

/-- The edges of a function that close loops. -/
def Function.backEdges (f : Function) : Except Fault (OrderedSet Edge) := do
  let g ← f.flow
  match f.entry? with
  | some b => return g.backEdges b.label
  | none => throw (.noEntry f.name)

end RangeFlow
