import Mathlib.Data.List.Nodup
import Mathlib.Logic.Relation
import RangeFlow.Flow.BackEdge
import RangeFlow.Proofs.Flow.Graph

/-!
# Back edges cut the loops, and only loops

Two invariants of the depth-first search, one for each half of the statement.  The blocks met so far
form a tree, in which those under search lie on one branch, and an edge is reported if it leads up
this branch, so its target leads back to its source along the tree (`Grows`).  A block is finished
when all its successors are, but for the reported edges, so that edges which are not reported lead
to blocks that were finished before (`Finishes`).
-/

namespace RangeFlow

open Relation (ReflTransGen TransGen)

/-- Nothing that can take only finitely many steps comes back. -/
theorem not_transGen_of_acc {α : Type} {r : α → α → Prop} {a : α} (h : Acc (fun b a ↦ r a b) a) :
    ¬TransGen r a a := by
  induction h with
  | intro a _ ih =>
    intro hcycle
    obtain ⟨b, hab, hba⟩ := TransGen.head'_iff.1 hcycle
    exact ih b hab (TransGen.tail' hba hab)

namespace Flow

variable {g : Flow} {entry b s : String} {tree : String → String → Prop}
variable {unvisited finished pending : List String} {found loops : OrderedSet Edge}
variable {stack : List Frame}

def Leads (g : Flow) (u v : String) : Prop := v ∈ g.successors u

/-- One block leads to another by an edge that closes no loop. -/
def Keeps (g : Flow) (loops : OrderedSet Edge) (u v : String) : Prop :=
  g.Leads u v ∧ ⟨u, v⟩ ∉ loops

/-! ## Reported edges close loops -/

/-- The edges along which blocks were met form a tree without reported edges.  The blocks under
search lead to each other along it, from the outermost to the innermost, and the target of a
reported edge leads to its source. -/
structure Grows (g : Flow) (entry : String) (tree : String → String → Prop)
    (unvisited : List String) (found : OrderedSet Edge) (stack : List Frame) : Prop where
  nodup : unvisited.Nodup
  kept : ∀ u v, tree u v → g.Keeps found u v
  visited : ∀ u v, tree u v → u ∉ unvisited
  irrefl : ∀ u, ¬tree u u
  under : ∀ frame ∈ stack, frame.block ∉ unvisited ∧ ReflTransGen tree entry frame.block ∧
    ∀ t ∈ frame.pending, g.Leads frame.block t
  nested : stack.Pairwise fun inner outer ↦
    ReflTransGen tree outer.block inner.block ∧ ¬tree inner.block outer.block
  closes : ∀ u v, ⟨u, v⟩ ∈ found → v ∉ unvisited ∧ g.Leads u v ∧
    ReflTransGen tree entry u ∧ ReflTransGen tree v u

namespace Grows

theorem tail {frame : Frame} (h : Grows g entry tree unvisited found (frame :: stack)) :
    Grows g entry tree unvisited found stack where
  nodup := h.nodup
  kept := h.kept
  visited := h.visited
  irrefl := h.irrefl
  under fr hfr := h.under fr (List.mem_cons_of_mem frame hfr)
  nested := h.nested.of_cons
  closes := h.closes

/-- The innermost block has looked at one of its successors. -/
theorem advance (h : Grows g entry tree unvisited found (⟨b, s :: pending⟩ :: stack)) :
    Grows g entry tree unvisited found (⟨b, pending⟩ :: stack) where
  nodup := h.nodup
  kept := h.kept
  visited := h.visited
  irrefl := h.irrefl
  under frame hframe := by
    rcases List.mem_cons.1 hframe with rfl | hframe
    · obtain ⟨hb, hentry, hpending⟩ := h.under _ List.mem_cons_self
      exact ⟨hb, hentry, fun t ht ↦ hpending t (List.mem_cons_of_mem s ht)⟩
    · exact h.tail.under frame hframe
  nested := List.pairwise_cons.2 (List.pairwise_cons.1 h.nested)
  closes := h.closes

theorem leads (h : Grows g entry tree unvisited found (⟨b, s :: pending⟩ :: stack)) : g.Leads b s :=
  (h.under _ List.mem_cons_self).2.2 s List.mem_cons_self

/-- A block under search leads to the innermost one, and is none of its children. -/
theorem under_search (h : Grows g entry tree unvisited found (⟨b, pending⟩ :: stack))
    (hs : s = b ∨ s ∈ stack.map Frame.block) :
    s ∉ unvisited ∧ ReflTransGen tree s b ∧ ¬tree b s := by
  rcases hs with rfl | hs
  · exact ⟨(h.under _ List.mem_cons_self).1, .refl, h.irrefl s⟩
  · obtain ⟨outer, houter, rfl⟩ := List.mem_map.1 hs
    obtain ⟨hpath, hchild⟩ := (List.pairwise_cons.1 h.nested).1 outer houter
    exact ⟨(h.tail.under outer houter).1, hpath, hchild⟩

/-- An edge up the branch under search is reported. -/
theorem close (h : Grows g entry tree unvisited found (⟨b, s :: pending⟩ :: stack))
    (hs : s = b ∨ s ∈ stack.map Frame.block) :
    Grows g entry tree unvisited (found.insert ⟨b, s⟩) (⟨b, pending⟩ :: stack) := by
  obtain ⟨hvisited, hpath, hchild⟩ := h.advance.under_search hs
  refine { h.advance with kept := fun u v huv ↦ ?_, closes := fun u v huv ↦ ?_ }
  · obtain ⟨hleads, hnew⟩ := h.kept u v huv
    refine ⟨hleads, fun hmem ↦ ?_⟩
    rcases OrderedSet.mem_insert.1 hmem with hmem | heq
    · exact hnew hmem
    · cases heq
      exact hchild huv
  · rcases OrderedSet.mem_insert.1 huv with huv | heq
    · exact h.closes u v huv
    · cases heq
      exact ⟨hvisited, h.leads, (h.under _ List.mem_cons_self).2.1, hpath⟩

/-- A block that was not met before becomes a child of the innermost one. -/
theorem push (h : Grows g entry tree unvisited found (⟨b, s :: pending⟩ :: stack))
    (hs : s ∈ unvisited) :
    Grows g entry (fun u v ↦ tree u v ∨ (u = b ∧ v = s)) (unvisited.erase s) found
      (⟨s, g.successors s⟩ :: ⟨b, pending⟩ :: stack) := by
  have hmono {u v : String} : ReflTransGen tree u v →
      ReflTransGen (fun u v ↦ tree u v ∨ (u = b ∧ v = s)) u v := .mono (fun _ _ ↦ .inl) u v
  have herase {u : String} (hu : u ∉ unvisited) : u ∉ unvisited.erase s :=
    fun hmem ↦ hu (List.mem_of_mem_erase hmem)
  have hne {u : String} (hu : u ∉ unvisited) : u ≠ s := by
    rintro rfl
    exact hu hs
  have hunder := h.advance.under
  have hb := hunder _ List.mem_cons_self
  have hstep : ReflTransGen (fun u v ↦ tree u v ∨ (u = b ∧ v = s)) b s := .single (.inr ⟨rfl, rfl⟩)
  constructor
  case nodup => exact h.nodup.erase s
  case kept =>
    rintro u v (huv | ⟨rfl, rfl⟩)
    · exact h.kept u v huv
    · exact ⟨h.leads, fun hmem ↦ (h.closes u v hmem).1 hs⟩
  case visited =>
    rintro u v (huv | ⟨rfl, rfl⟩)
    · exact herase (h.visited u v huv)
    · exact herase hb.1
  case irrefl =>
    rintro u (huu | ⟨rfl, heq⟩)
    · exact h.irrefl u huu
    · exact hne hb.1 heq
  case under =>
    intro frame hframe
    rcases List.mem_cons.1 hframe with rfl | hframe
    · exact ⟨h.nodup.not_mem_erase, (hmono hb.2.1).trans hstep, fun t ht ↦ ht⟩
    · obtain ⟨hmem, hentry, hpending⟩ := hunder frame hframe
      exact ⟨herase hmem, hmono hentry, hpending⟩
  case nested =>
    refine List.pairwise_cons.2 ⟨fun outer houter ↦ ⟨?_, ?_⟩, ?_⟩
    · rcases List.mem_cons.1 houter with rfl | houter
      · exact hstep
      · exact (hmono ((List.pairwise_cons.1 h.nested).1 outer houter).1).trans hstep
    · rintro (hchild | ⟨heq, -⟩)
      · exact h.visited _ _ hchild hs
      · exact hne hb.1 heq.symm
    · refine h.advance.nested.imp_of_mem fun {inner outer} _ houter hnested ↦ ⟨hmono hnested.1, ?_⟩
      rintro (hchild | ⟨-, heq⟩)
      · exact hnested.2 hchild
      · exact hne (hunder outer houter).1 heq
  case closes =>
    intro u v huv
    obtain ⟨hv, hleads, hentry, hpath⟩ := h.closes u v huv
    exact ⟨herase hv, hleads, hmono hentry, hmono hpath⟩

end Grows

/-- A search that has met blocks along a tree ends with one. -/
theorem exists_grows_search (h : Grows g entry tree unvisited found stack) :
    ∃ tree' unvisited', Grows g entry tree' unvisited' (g.search unvisited found stack) [] := by
  induction unvisited, found, stack using Flow.search.induct g generalizing tree with
  | case1 unvisited found =>
    rw [search]
    exact ⟨tree, unvisited, h⟩
  | case2 unvisited found b stack ih =>
    rw [search]
    exact ih h.tail
  | case3 unvisited found b s pending stack hs ih =>
    rw [search, if_pos hs]
    exact ih (h.push hs)
  | case4 unvisited found b s pending stack hs hunder ih =>
    rw [search, if_neg hs, if_pos hunder]
    exact ih (h.close hunder)
  | case5 unvisited found b s pending stack hs hunder ih =>
    rw [search, if_neg hs, if_neg hunder]
    exact ih h.advance

/-! ## What is not reported closes none -/

/-- Each block under search, the innermost first, has looked at all its successors but the pending
ones: the edge is reported, or the successor is past, which are the finished blocks and, for an
outer block, those further in. -/
def Handled (g : Flow) (found : OrderedSet Edge) : List String → List Frame → Prop
  | _, [] => True
  | past, frame :: stack =>
    (∀ t, g.Leads frame.block t → t ∈ frame.pending ∨ ⟨frame.block, t⟩ ∈ found ∨ t ∈ past) ∧
      Handled g found (frame.block :: past) stack

theorem Handled.mono {found' : OrderedSet Edge} {past past' : List String}
    (hfound : ∀ e ∈ found, e ∈ found') (hpast : past ⊆ past') (h : g.Handled found past stack) :
    g.Handled found' past' stack := by
  induction stack generalizing past past' with
  | nil => trivial
  | cons frame stack ih =>
    refine ⟨fun t ht ↦ ?_, ih (List.cons_subset_cons frame.block hpast) h.2⟩
    exact (h.1 t ht).imp_right (Or.imp (hfound _) (@hpast t))

/-- Every block is unvisited, under search or finished.  A finished block leads to finished blocks
but for reported edges, and any way that goes on from it along other edges ends. -/
structure Finishes (g : Flow) (finished unvisited : List String) (found : OrderedSet Edge)
    (stack : List Frame) : Prop where
  parts : (unvisited ++ (stack.map Frame.block ++ finished)).Perm g.labels
  pending : ∀ frame ∈ stack, ∀ t ∈ frame.pending, g.Leads frame.block t
  met : ∀ u v, ⟨u, v⟩ ∈ found → v ∉ unvisited
  handled : g.Handled found finished stack
  closed : ∀ u ∈ finished, ∀ v, g.Leads u v → ⟨u, v⟩ ∈ found ∨ v ∈ finished
  ends : ∀ u ∈ finished, Acc (fun v u ↦ g.Keeps found u v) u

namespace Finishes

/-- The innermost block has looked at all its successors. -/
theorem pop (h : Finishes g finished unvisited found (⟨b, []⟩ :: stack)) :
    Finishes g (b :: finished) unvisited found stack := by
  have hdone (t : String) (ht : g.Leads b t) : ⟨b, t⟩ ∈ found ∨ t ∈ finished :=
    (h.handled.1 t ht).resolve_left List.not_mem_nil
  constructor
  case parts => exact (List.perm_middle.append_left unvisited).trans h.parts
  case pending => exact fun frame hframe ↦ h.pending frame (List.mem_cons_of_mem _ hframe)
  case met => exact h.met
  case handled => exact h.handled.2
  case closed =>
    intro u hu v huv
    refine Or.imp_right (List.mem_cons_of_mem b) ?_
    rcases List.mem_cons.1 hu with rfl | hu
    · exact hdone v huv
    · exact h.closed u hu v huv
  case ends =>
    intro u hu
    rcases List.mem_cons.1 hu with rfl | hu
    · exact ⟨u, fun v hv ↦ h.ends v ((hdone v hv.1).resolve_left hv.2)⟩
    · exact h.ends u hu

theorem leads (h : Finishes g finished unvisited found (⟨b, s :: pending⟩ :: stack)) :
    g.Leads b s :=
  h.pending _ List.mem_cons_self s List.mem_cons_self

theorem pending_advance (h : Finishes g finished unvisited found (⟨b, s :: pending⟩ :: stack)) :
    ∀ frame ∈ (⟨b, pending⟩ :: stack : List Frame), ∀ t ∈ frame.pending, g.Leads frame.block t := by
  intro frame hframe t ht
  rcases List.mem_cons.1 hframe with rfl | hframe
  · exact h.pending _ List.mem_cons_self t (List.mem_cons_of_mem s ht)
  · exact h.pending frame (List.mem_cons_of_mem _ hframe) t ht

/-- The innermost block has looked at a successor that was met before. -/
theorem advance {found' : OrderedSet Edge}
    (h : Finishes g finished unvisited found (⟨b, s :: pending⟩ :: stack))
    (hfound : ∀ e, e ∈ found' → e ∈ found ∨ e = ⟨b, s⟩) (hfound' : ∀ e ∈ found, e ∈ found')
    (hs : s ∉ unvisited) (hdone : ⟨b, s⟩ ∈ found' ∨ s ∈ finished) :
    Finishes g finished unvisited found' (⟨b, pending⟩ :: stack) where
  parts := h.parts
  pending := h.pending_advance
  met u v huv := by
    rcases hfound _ huv with huv | heq
    · exact h.met u v huv
    · cases heq
      exact hs
  handled := by
    refine ⟨fun t ht ↦ ?_, h.handled.2.mono hfound' (List.Subset.refl _)⟩
    rcases h.handled.1 t ht with hmem | hmem | hmem
    · rcases List.mem_cons.1 hmem with rfl | hmem
      · exact .inr hdone
      · exact .inl hmem
    · exact .inr (.inl (hfound' _ hmem))
    · exact .inr (.inr hmem)
  closed u hu v huv := (h.closed u hu v huv).imp_left (hfound' _)
  ends u hu := Subrelation.accessible (fun hv ↦ ⟨hv.1, mt (hfound' _) hv.2⟩) (h.ends u hu)

/-- The search goes on with a successor that was not met before. -/
theorem push (h : Finishes g finished unvisited found (⟨b, s :: pending⟩ :: stack))
    (hs : s ∈ unvisited) :
    Finishes g finished (unvisited.erase s) found
      (⟨s, g.successors s⟩ :: ⟨b, pending⟩ :: stack) where
  parts := by
    refine List.Perm.trans ?_ h.parts
    rw [List.map_cons, List.cons_append]
    exact List.perm_middle.trans ((List.perm_cons_erase hs).symm.append_right _)
  pending frame hframe t ht := by
    rcases List.mem_cons.1 hframe with rfl | hframe
    · exact ht
    · exact h.pending_advance frame hframe t ht
  met u v huv hmem := h.met u v huv (List.mem_of_mem_erase hmem)
  handled := by
    refine ⟨fun t ht ↦ .inl ht, fun t ht ↦ ?_, ?_⟩
    · rcases h.handled.1 t ht with hmem | hmem | hmem
      · rcases List.mem_cons.1 hmem with rfl | hmem
        · exact .inr (.inr List.mem_cons_self)
        · exact .inl hmem
      · exact .inr (.inl hmem)
      · exact .inr (.inr (List.mem_cons_of_mem s hmem))
    · refine h.handled.2.mono (fun _ ↦ id) ?_
      exact List.cons_subset_cons b (List.subset_cons_self s finished)
  closed := h.closed
  ends := h.ends

/-- A block that is neither unvisited nor under search is finished. -/
theorem mem_finished (h : Finishes g finished unvisited found stack) (hs : s ∈ g.labels)
    (hvisited : s ∉ unvisited) (hunder : s ∉ stack.map Frame.block) : s ∈ finished := by
  have hmem := h.parts.mem_iff.2 hs
  rw [List.mem_append, List.mem_append] at hmem
  exact (hmem.resolve_left hvisited).resolve_left hunder

end Finishes

/-- A search that has finished some blocks finishes all that it meets. -/
theorem exists_finishes_search (hlabels : ∀ u v, g.Leads u v → v ∈ g.labels)
    (h : Finishes g finished unvisited found stack) :
    ∃ finished' unvisited', unvisited' ⊆ unvisited ∧
      Finishes g finished' unvisited' (g.search unvisited found stack) [] := by
  induction unvisited, found, stack using Flow.search.induct g generalizing finished with
  | case1 unvisited found =>
    rw [search]
    exact ⟨finished, unvisited, List.Subset.refl _, h⟩
  | case2 unvisited found b stack ih =>
    rw [search]
    exact ih h.pop
  | case3 unvisited found b s pending stack hs ih =>
    rw [search, if_pos hs]
    obtain ⟨finished', unvisited', hsub, hfin⟩ := ih (h.push hs)
    exact ⟨finished', unvisited', List.Subset.trans hsub List.erase_subset, hfin⟩
  | case4 unvisited found b s pending stack hs hunder ih =>
    rw [search, if_neg hs, if_pos hunder]
    refine ih (h.advance (fun _ ↦ OrderedSet.mem_insert.1)
      (fun _ he ↦ OrderedSet.mem_insert.2 (.inl he)) hs ?_)
    exact .inl (OrderedSet.mem_insert.2 (.inr rfl))
  | case5 unvisited found b s pending stack hs hunder ih =>
    rw [search, if_neg hs, if_neg hunder]
    refine ih (h.advance (fun _ ↦ .inl) (fun _ ↦ id) hs (.inr ?_))
    refine h.mem_finished (hlabels b s h.leads) hs ?_
    rwa [List.map_cons, List.mem_cons]

/-! ## The whole search -/

section Search

variable (hlabels : ∀ u v, g.Leads u v → v ∈ g.labels) (hentry : entry ∈ g.labels)
variable (hnodup : g.labels.Nodup)
include hnodup

/-- A reported edge leads from a block that can be reached to one that leads back to it, and the way
to the first and the way back have no reported edge. -/
theorem reflTransGen_of_mem_backEdges {u v : String} (h : ⟨u, v⟩ ∈ g.backEdges entry) :
    g.Leads u v ∧ ReflTransGen (g.Keeps (g.backEdges entry)) entry u ∧
      ReflTransGen (g.Keeps (g.backEdges entry)) v u := by
  have hstart : Grows g entry (fun _ _ ↦ False) (g.labels.erase entry) ∅
      [⟨entry, g.successors entry⟩] := by
    constructor
    case nodup => exact hnodup.erase entry
    case kept | visited => exact fun _ _ ↦ False.elim
    case irrefl => exact fun _ ↦ id
    case under =>
      intro frame hframe
      rw [List.mem_singleton.1 hframe]
      exact ⟨hnodup.not_mem_erase, .refl, fun _ ↦ id⟩
    case nested => exact List.pairwise_singleton _ _
    case closes => exact fun u v huv ↦ absurd huv (OrderedSet.notMem_empty _)
  obtain ⟨tree, unvisited, hgrows⟩ := exists_grows_search hstart
  obtain ⟨-, hleads, hreach, hback⟩ := hgrows.closes u v h
  exact ⟨hleads, ReflTransGen.mono hgrows.kept _ _ hreach, ReflTransGen.mono hgrows.kept _ _ hback⟩

include hlabels hentry

/-- From a block that can be reached no way without reported edges comes back. -/
theorem not_transGen_keeps {u : String} (h : ReflTransGen g.Leads entry u) :
    ¬TransGen (g.Keeps (g.backEdges entry)) u u := by
  have hstart : Finishes g [] (g.labels.erase entry) ∅ [⟨entry, g.successors entry⟩] := by
    constructor
    case parts => exact List.perm_append_comm.trans (List.perm_cons_erase hentry).symm
    case pending =>
      intro frame hframe
      rw [List.mem_singleton.1 hframe]
      exact fun _ ↦ id
    case met => exact fun u v huv ↦ absurd huv (OrderedSet.notMem_empty _)
    case handled => exact ⟨fun t ht ↦ .inl ht, trivial⟩
    case closed | ends => exact fun u hu ↦ absurd hu List.not_mem_nil
  obtain ⟨finished, unvisited, hsub, hfin⟩ := exists_finishes_search hlabels hstart
  have hmem : u ∈ finished := by
    induction h with
    | refl =>
      exact hfin.mem_finished hentry (fun h ↦ hnodup.not_mem_erase (hsub h)) List.not_mem_nil
    | tail _ huv ih =>
      rcases hfin.closed _ ih _ huv with hfound | hmem
      · exact hfin.mem_finished (hlabels _ _ huv) (hfin.met _ _ hfound) List.not_mem_nil
      · exact hmem
  exact not_transGen_of_acc (hfin.ends u hmem)

end Search

end Flow

namespace Function

/-- **Back edges.**  In a function that has blocks, whose blocks are terminated and have labels of
their own, and whose terminators name labels that exist, the search ends.  Each edge that it reports
is an edge between blocks that can be reached from the entry, and its target leads back to its
source by edges that are not reported; and from no block that can be reached do edges that are not
reported lead back to it. -/
theorem backEdges_cut_loops {f : Function} (hblocks : f.blocks ≠ []) (hlabels : f.labels.Nodup)
    (hwired : f.IsWired) :
    ∃ entry loops, f.entry? = some entry ∧ f.backEdges = .ok loops ∧
      (∀ u v, ⟨u, v⟩ ∈ loops → f.Passes u v ∧ ReflTransGen f.Passes entry.label u ∧
        ReflTransGen f.Passes entry.label v ∧
        ReflTransGen (fun a b ↦ f.Passes a b ∧ ⟨a, b⟩ ∉ loops) v u) ∧
      ∀ u, ReflTransGen f.Passes entry.label u →
        ¬TransGen (fun a b ↦ f.Passes a b ∧ ⟨a, b⟩ ∉ loops) u u := by
  obtain ⟨g, hg⟩ := exists_flow hwired
  obtain ⟨entry, rest, hentry⟩ := List.exists_cons_of_ne_nil hblocks
  have hhead : f.entry? = some entry := by
    unfold entry?
    rw [hentry, List.head?_cons]
  have hloops : f.backEdges = .ok (g.backEdges entry.label) := by
    rw [backEdges, hg, hhead]
    rfl
  have hpasses : g.Leads = f.Passes :=
    funext₂ fun _ _ ↦ propext (passes_iff_mem_successors hg).symm
  have hnodup : g.labels.Nodup := labels_of_flow hg ▸ hlabels
  have hmem : entry.label ∈ g.labels := by
    rw [labels_of_flow hg, labels, hentry]
    exact List.mem_cons_self
  have htargets : ∀ u v, g.Leads u v → v ∈ g.labels := by
    intro u v huv
    rw [hpasses] at huv
    exact labels_of_flow hg ▸ hwired.mem_labels_of_passes huv
  refine ⟨entry, _, hhead, hloops, fun u v huv ↦ ?_, fun u hu ↦ ?_⟩
  · obtain ⟨hleads, hreach, hback⟩ := Flow.reflTransGen_of_mem_backEdges hnodup huv
    have hreach : ReflTransGen g.Leads entry.label u := .mono (fun _ _ ↦ And.left) _ _ hreach
    unfold Flow.Keeps at hback
    rw [hpasses] at hleads hreach hback
    exact ⟨hleads, hreach, hreach.tail hleads, hback⟩
  · rw [← hpasses] at hu ⊢
    exact Flow.not_transGen_keeps htargets hmem hnodup hu

end Function

/-- A loop around a block that jumps to itself, and a block that nothing leads to. -/
def nesting : Function where
  name := "f"
  params := [⟨"c", .i1⟩]
  returns := .void
  isVararg := false
  blocks :=
    [⟨"entry", [⟨.finish (.jmp "head"), 1⟩]⟩,
      ⟨"head", [⟨.finish (.jnz (.var "c" .i1) "body" "out"), 2⟩]⟩,
      ⟨"body", [⟨.finish (.jnz (.var "c" .i1) "body" "head"), 3⟩]⟩,
      ⟨"dead", [⟨.finish (.jmp "dead"), 4⟩]⟩,
      ⟨"out", [⟨.finish .retVoid, 5⟩]⟩]

/-- Two edges close the two loops that can be reached; without them no way comes back. -/
theorem backEdges_cut_loops_nesting :
    nesting.blocks ≠ [] ∧ nesting.labels.Nodup ∧ nesting.IsWired ∧
      nesting.backEdges = .ok ⟨[⟨"body", "body"⟩, ⟨"body", "head"⟩], by decide⟩ ∧
      ReflTransGen (fun a b ↦ nesting.Passes a b ∧
        (⟨a, b⟩ : Edge) ∉ [⟨"body", "body"⟩, ⟨"body", "head"⟩]) "head" "body" ∧
      ∀ u, ReflTransGen nesting.Passes "entry" u →
        ¬TransGen (fun a b ↦ nesting.Passes a b ∧
          (⟨a, b⟩ : Edge) ∉ [⟨"body", "body"⟩, ⟨"body", "head"⟩]) u u := by
  have hblocks : nesting.blocks ≠ [] := by decide
  have hlabels : nesting.labels.Nodup := by decide
  have hwired : nesting.IsWired := ⟨by decide, by decide⟩
  have hloops :
      nesting.backEdges = .ok ⟨[⟨"body", "body"⟩, ⟨"body", "head"⟩], by decide⟩ := by cbv
  obtain ⟨entry, loops, hentry, heq, hclose, hcut⟩ :=
    Function.backEdges_cut_loops hblocks hlabels hwired
  rw [hloops] at heq
  cases heq
  cases hentry
  exact ⟨hblocks, hlabels, hwired, hloops,
    (hclose "body" "head" (List.mem_cons_of_mem _ List.mem_cons_self)).2.2.2, hcut⟩

end RangeFlow
