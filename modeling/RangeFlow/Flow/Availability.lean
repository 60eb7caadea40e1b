import RangeFlow.Flow.Graph
import RangeFlow.Ordered.Map

/-! # Variables that are defined at every point

A variable is available at a point if every way there defines it. At the start of a block without
predecessors the parameters are available, at the start of any other block what is available at
the end of all its predecessors. The greatest solution is found from above: every variable is
assumed available at the end of every block, and a worklist replaces the set of a block by what is
found there. It becomes empty, since what is found is never more than the set it replaces
(`Function.Descends`). -/

namespace RangeFlow

/-- The variables available at the end of each block. -/
abbrev Availability := OrderedMap String (OrderedSet String)

namespace Availability

/-- The number of variables over all blocks. -/
def weight (a : Availability) : Nat := a.entries.foldr (fun e n => e.2.size + n) 0

def atEnd (a : Availability) (label : String) : OrderedSet String := (a.get? label).getD ∅

private theorem replaceIn_of_notMem {k : String} {s : OrderedSet String}
    {es : List (String × OrderedSet String)} (h : k ∉ es.map Prod.fst) :
    OrderedMap.replaceIn k s es = es := by
  induction es with
  | nil => rfl
  | cons e es ih =>
    simp only [List.map_cons, List.mem_cons, not_or] at h
    have he : e.1 ≠ k := fun c => h.1 c.symm
    simp only [OrderedMap.replaceIn, List.map_cons] at ih ⊢
    rw [ih h.2]
    simp [he]

private theorem weight_replaceIn_lt {k : String} {old new : OrderedSet String}
    {es : List (String × OrderedSet String)} (hn : (es.map Prod.fst).Nodup)
    (hf : (es.find? fun e => decide (e.1 = k)).map Prod.snd = some old)
    (hlt : new.size < old.size) :
    (OrderedMap.replaceIn k new es).foldr (fun e n => e.2.size + n) 0 <
      es.foldr (fun e n => e.2.size + n) 0 := by
  induction es with
  | nil => simp at hf
  | cons e es ih =>
    rw [List.map_cons, List.nodup_cons] at hn
    by_cases he : e.1 = k
    · have hold : e.2 = old := by simpa [he] using hf
      have htail := replaceIn_of_notMem (s := new) (he ▸ hn.1)
      simp only [OrderedMap.replaceIn, List.map_cons] at htail ⊢
      rw [htail]
      simp only [he, if_true, List.foldr_cons, hold]
      omega
    · have hf' : (es.find? fun e => decide (e.1 = k)).map Prod.snd = some old := by
        simpa [he] using hf
      have := ih hn.2 hf'
      simp only [OrderedMap.replaceIn, List.map_cons, he, if_false, List.foldr_cons] at this ⊢
      omega

/-- A smaller set at the end of a block lowers the number of variables over all blocks. -/
theorem weight_insert_lt {a : Availability} {k : String} {old new : OrderedSet String}
    (h : a.get? k = some old) (hlt : new.size < old.size) :
    weight (a.insert k new) < weight a := by
  have hk : k ∈ a.keys := by
    unfold OrderedMap.get? at h
    obtain ⟨e, he, _⟩ := Option.map_eq_some_iff.1 h
    have hmem := List.mem_of_find?_eq_some he
    have hkey := List.find?_some he
    simp only [decide_eq_true_eq] at hkey
    exact hkey ▸ List.mem_map_of_mem hmem
  unfold OrderedMap.insert weight
  simp only [hk, dif_pos]
  exact weight_replaceIn_lt a.nodup h hlt

theorem atEnd_insert_self (a : Availability) (l : String) (s : OrderedSet String) :
    Availability.atEnd (a.insert l s) l = s := by
  rw [atEnd, OrderedMap.get?_insert_self, Option.getD_some]

theorem atEnd_insert_of_ne {a : Availability} {s : OrderedSet String} {l k : String} (h : k ≠ l) :
    Availability.atEnd (a.insert l s) k = a.atEnd k := by
  rw [atEnd, OrderedMap.get?_insert_of_ne a s h, atEnd]

end Availability

/-- The variables available before each of the instructions, given those before the first. -/
def availableBefore (s : OrderedSet String) : List Instr → List (OrderedSet String)
  | [] => []
  | i :: is =>
    s :: availableBefore (match i.result? with | some x => s.insert x | none => s) is

namespace Function

/-- The variables at the end of each block, the sets that were last noted for the instructions of
each block, and the blocks that are still to be visited. -/
structure Progress where
  ends : Availability
  noted : OrderedMap String (List (OrderedSet String))
  work : OrderedSet String

/-- The variables available at the start of a block, from those at the end of its predecessors. -/
def availableIn (f : Function) (g : Flow) (a : Availability) (label : String) : OrderedSet String :=
  match g.predecessors label with
  | [] => .ofList f.paramNames
  | p :: ps => ps.foldl (fun s q => s.meet (a.atEnd q)) (a.atEnd p)

def foundAtEnd (f : Function) (g : Flow) (a : Availability) (b : Block) : OrderedSet String :=
  (f.availableIn g a b.label).insertAll b.results

/-- Takes a block off the worklist and notes the sets of its instructions. If the set at its end is
a new one, it is replaced and the successors are put back. -/
def visit (f : Function) (g : Flow) (s : Progress) (b : Block) : Progress :=
  let found := f.foundAtEnd g s.ends b
  let noted := s.noted.insert b.label (availableBefore (f.availableIn g s.ends b.label) b.instrs)
  let rest := s.work.erase b.label
  if (s.ends.atEnd b.label).sameMembers found then ⟨s.ends, noted, rest⟩
  else ⟨s.ends.insert b.label found, noted, rest.insertAll (g.successors b.label)⟩

def knownVars (f : Function) : OrderedSet String :=
  (OrderedSet.ofList f.paramNames).insertAll (f.blocks.flatMap Block.results)

/-- At the end of every block all variables of the function are available. -/
def allAvailable (f : Function) : Availability := .ofList (f.labels.map fun l => (l, f.knownVars))

/-- Before the first visit. -/
def unvisited (f : Function) : Progress :=
  ⟨f.allAvailable, ∅, .ofList f.labels⟩

/-! ## The sets of one visit -/

section

variable {f : Function} {g : Flow} {a a' : Availability} {s : Progress} {b : Block} {l x : String}

/-- Without predecessors a block starts with the parameters. -/
theorem mem_availableIn_of_nil (h : g.predecessors l = []) :
    x ∈ f.availableIn g a l ↔ x ∈ f.paramNames := by
  simp only [availableIn, h]
  exact OrderedSet.mem_ofList

theorem mem_foldl_meet {s : OrderedSet String} {qs : List String} :
    x ∈ qs.foldl (fun s q => s.meet (a.atEnd q)) s ↔ x ∈ s ∧ ∀ q ∈ qs, x ∈ a.atEnd q := by
  induction qs generalizing s with
  | nil => simp
  | cons q qs ih =>
    rw [List.foldl_cons, ih, OrderedSet.mem_meet, List.forall_mem_cons, and_assoc]

/-- At the start of a block is available what is available at the end of all its predecessors. -/
theorem mem_availableIn (h : g.predecessors l ≠ []) :
    x ∈ f.availableIn g a l ↔ ∀ q ∈ g.predecessors l, x ∈ a.atEnd q := by
  unfold availableIn
  cases hps : g.predecessors l with
  | nil => exact absurd hps h
  | cons q qs =>
    dsimp only
    rw [mem_foldl_meet, List.forall_mem_cons]

/-- A visit finds what is available at the start of the block and what the block assigns. -/
theorem mem_foundAtEnd : x ∈ f.foundAtEnd g a b ↔ x ∈ f.availableIn g a b.label ∨ x ∈ b.results :=
  OrderedSet.mem_insertAll

/-- More variables at the ends of blocks make more available at the start of a block. -/
theorem mem_availableIn_mono (h : ∀ q, x ∈ a.atEnd q → x ∈ a'.atEnd q)
    (hx : x ∈ f.availableIn g a l) : x ∈ f.availableIn g a' l := by
  by_cases hnil : g.predecessors l = []
  · rwa [mem_availableIn_of_nil hnil] at hx ⊢
  · rw [mem_availableIn hnil] at hx ⊢
    exact fun q hq => h q (hx q hq)

/-- All that a visit can do with the sets and the worklist. -/
theorem visit_cases (f : Function) (g : Flow) (s : Progress) (b : Block) :
    ((∀ x, x ∈ s.ends.atEnd b.label ↔ x ∈ f.foundAtEnd g s.ends b) ∧
      (f.visit g s b).ends = s.ends ∧ (f.visit g s b).work = s.work.erase b.label) ∨
    (¬(s.ends.atEnd b.label).sameMembers (f.foundAtEnd g s.ends b) = true ∧
      (f.visit g s b).ends = s.ends.insert b.label (f.foundAtEnd g s.ends b) ∧
      (f.visit g s b).work = (s.work.erase b.label).insertAll (g.successors b.label)) := by
  unfold visit
  dsimp only
  split
  · rename_i hsame
    exact .inl ⟨OrderedSet.sameMembers_iff.1 hsame, rfl, rfl⟩
  · rename_i hsame
    exact .inr ⟨hsame, rfl, rfl⟩

/-- A visit leaves at the end of the block what it finds there. -/
theorem mem_atEnd_visit : x ∈ (f.visit g s b).ends.atEnd b.label ↔ x ∈ f.foundAtEnd g s.ends b := by
  rcases visit_cases f g s b with ⟨hsame, hends, -⟩ | ⟨-, hends, -⟩
  · rw [hends]
    exact hsame x
  · rw [hends, Availability.atEnd_insert_self]

/-- A visit changes nothing at the ends of other blocks. -/
theorem atEnd_visit_of_ne (h : l ≠ b.label) : (f.visit g s b).ends.atEnd l = s.ends.atEnd l := by
  rcases visit_cases f g s b with ⟨-, hends, -⟩ | ⟨-, hends, -⟩
  · rw [hends]
  · rw [hends, Availability.atEnd_insert_of_ne h]

/-- The variables of a function are its parameters and what its blocks assign. -/
theorem mem_knownVars :
    x ∈ f.knownVars ↔ x ∈ f.paramNames ∨ x ∈ f.blocks.flatMap Block.results := by
  rw [knownVars, OrderedSet.mem_insertAll, OrderedSet.mem_ofList]

theorem get?_allAvailable (f : Function) (l : String) :
    f.allAvailable.get? l = if l ∈ f.labels then some f.knownVars else none := by
  have hkeys : l ∈ f.allAvailable.keys ↔ l ∈ f.labels := by
    rw [allAvailable, OrderedMap.ofList, OrderedMap.mem_keys_insertAll]
    simp [OrderedMap.empty, OrderedMap.keys]
  cases hget : f.allAvailable.get? l with
  | none => rw [if_neg (mt hkeys.2 (OrderedMap.get?_eq_none_iff.1 hget))]
  | some s =>
    rw [if_pos (hkeys.1 (OrderedMap.get?_isSome_iff.1 (Option.isSome_of_eq_some hget)))]
    rcases OrderedMap.get?_insertAll_cases hget with hnone | hmem
    · cases hnone
    · obtain ⟨k, -, heq⟩ := List.mem_map.1 hmem
      cases heq
      rfl

/-- At first every block of the function ends with every variable of it. -/
theorem mem_atEnd_allAvailable : x ∈ f.allAvailable.atEnd l ↔ l ∈ f.labels ∧ x ∈ f.knownVars := by
  unfold Availability.atEnd
  rw [get?_allAvailable]
  by_cases hl : l ∈ f.labels <;> simp [hl]

/-- A block is looked up by its own label. -/
theorem block?_label (h : f.block? l = some b) : f.block? b.label = some b := by
  rwa [(mem_of_block? h).2]

theorem mem_labels_of_block? (h : f.block? l = some b) : l ∈ f.labels := by
  obtain ⟨hb, rfl⟩ := mem_of_block? h
  exact List.mem_map_of_mem hb

end

/-! ## The worklist -/

/-- Every block has a set for its end, and a visit finds nothing there that is not in the set. -/
structure Descends (f : Function) (g : Flow) (a : Availability) : Prop where
  present : ∀ l b, f.block? l = some b → ∃ old, a.get? l = some old
  found : ∀ l b, f.block? l = some b → ∀ x ∈ f.foundAtEnd g a b, x ∈ a.atEnd l

namespace Descends

variable {f : Function} {g : Flow} {s : Progress} {b : Block} {l x : String}

/-- A visit adds no variable. -/
theorem mem_of_mem_visit (h : f.Descends g s.ends) (hb : f.block? b.label = some b)
    (hx : x ∈ (f.visit g s b).ends.atEnd l) : x ∈ s.ends.atEnd l := by
  by_cases hl : l = b.label
  · subst hl
    exact h.found b.label b hb x (mem_atEnd_visit.1 hx)
  · rwa [atEnd_visit_of_ne hl] at hx

/-- After a visit the sets still contain all that visits find. -/
theorem visit (h : f.Descends g s.ends) (hb : f.block? b.label = some b) :
    f.Descends g (f.visit g s b).ends where
  present l c hc := by
    rcases visit_cases f g s b with ⟨-, hends, -⟩ | ⟨-, hends, -⟩
    · rw [hends]
      exact h.present l c hc
    · rw [hends, OrderedMap.get?_insert]
      split
      · exact ⟨_, rfl⟩
      · exact h.present l c hc
  found l c hc x hx := by
    have hold : x ∈ f.foundAtEnd g s.ends c := by
      rw [mem_foundAtEnd] at hx ⊢
      exact hx.imp_left (mem_availableIn_mono fun q => h.mem_of_mem_visit hb)
    by_cases hl : l = b.label
    · subst hl
      cases hb.symm.trans hc
      exact mem_atEnd_visit.2 hold
    · rw [atEnd_visit_of_ne hl]
      exact h.found l c hc x hold

/-- A visit drops a variable or leaves fewer blocks to be visited. -/
theorem visit_lt (h : f.Descends g s.ends) (hb : f.block? b.label = some b)
    (hwork : b.label ∈ s.work) :
    Prod.Lex (· < ·) (· < ·) ((f.visit g s b).ends.weight, (f.visit g s b).work.size)
      (s.ends.weight, s.work.size) := by
  rcases visit_cases f g s b with ⟨-, hends, hrest⟩ | ⟨hsame, hends, -⟩
  · rw [hends, hrest]
    exact .right _ (OrderedSet.size_erase_lt hwork)
  · obtain ⟨old, hold⟩ := h.present b.label b hb
    have hatEnd : s.ends.atEnd b.label = old := by
      rw [Availability.atEnd, hold, Option.getD_some]
    have hsub := h.found b.label b hb
    rw [hatEnd] at hsame hsub
    rw [hends]
    exact .left _ _
      (Availability.weight_insert_lt hold (OrderedSet.size_lt_of_not_sameMembers hsub hsame))

end Descends

/-- All variables are enough to begin with. -/
theorem descends_unvisited (f : Function) (g : Flow) : f.Descends g f.unvisited.ends where
  present l b hb := ⟨_, (f.get?_allAvailable l).trans (if_pos (mem_labels_of_block? hb))⟩
  found l b hb x hx := by
    refine mem_atEnd_allAvailable.2 ⟨mem_labels_of_block? hb, mem_knownVars.2 ?_⟩
    rcases mem_foundAtEnd.1 hx with hin | hresult
    · by_cases hnil : g.predecessors b.label = []
      · exact .inl ((mem_availableIn_of_nil hnil).1 hin)
      · obtain ⟨q, hq⟩ := List.exists_mem_of_ne_nil _ hnil
        have hend := (mem_availableIn hnil).1 hin q hq
        exact mem_knownVars.1 (mem_atEnd_allAvailable.1 hend).2
    · exact .inr (List.mem_flatMap.2 ⟨b, (mem_of_block? hb).1, hresult⟩)

/-- Visits the blocks of the worklist until it is empty, the one added last first. Each is looked at
before it is visited. -/
def settle {m : Type → Type} [Monad m] (f : Function) (g : Flow)
    (look : Progress → String → m Unit) (s : Progress) (h : f.Descends g s.ends) : m Progress :=
  match _hpop : s.work.pop? with
  | none => pure s
  | some (label, rest) => do
    look s label
    match hb : f.block? label with
    | none => settle f g look { s with work := rest } h
    | some b => settle f g look (f.visit g s b) (h.visit (block?_label hb))
termination_by (s.ends.weight, s.work.size)
decreasing_by
  · obtain ⟨hmem, rfl⟩ := OrderedSet.pop?_eq_some _hpop
    exact .right _ (OrderedSet.size_erase_lt hmem)
  · obtain ⟨hmem, -⟩ := OrderedSet.pop?_eq_some _hpop
    exact h.visit_lt (block?_label hb) ((mem_of_block? hb).2 ▸ hmem)

/-- What the worklist comes to when nothing is looked for. -/
def settled (f : Function) (g : Flow) (s : Progress) (h : f.Descends g s.ends) : Progress :=
  Id.run (f.settle g (fun _ _ => pure ()) s h)

/-- The greatest solution. -/
def availability (f : Function) (g : Flow) : Availability :=
  (f.settled g f.unvisited (f.descends_unvisited g)).ends

end Function

end RangeFlow
