import Mathlib.Data.List.Basic
import RangeFlow.Flow.Availability
import RangeFlow.Proofs.Flow.Graph

/-!
# The worklist finds a solution

What is available at the end of a block is assigned there or available at its start: a block whose
set is more than a visit would find is on the worklist, since a change puts back the blocks that
read it.  The sets are the greatest ones of this kind, since a visit drops no variable of such sets.
Both are kept by every visit (`Function.Settles`), and hold when the worklist is empty.
-/

namespace RangeFlow

/-- Before an instruction is available what is available at the start of the block and what the
instructions before it assign. -/
theorem getElem?_availableBefore (s : OrderedSet String) (done : List Instr) (i : Instr)
    (rest : List Instr) : (availableBefore s (done ++ i :: rest))[done.length]? =
      some (s.insertAll (done.filterMap Instr.result?)) := by
  induction done generalizing s with
  | nil => rfl
  | cons j done ih =>
    rw [List.cons_append, availableBefore, List.length_cons, List.getElem?_cons_succ, ih]
    cases hj : j.result? with
    | none => rw [List.filterMap_cons_none hj]
    | some x =>
      rw [List.filterMap_cons_some hj]
      rfl

namespace Function

variable {f : Function} {g : Flow} {a b : Availability} {l k x : String}

/-- The start of a block depends on the ends of its predecessors only. -/
theorem availableIn_congr (h : ∀ q ∈ g.predecessors l, a.atEnd q = b.atEnd q) :
    f.availableIn g a l = f.availableIn g b l := by
  unfold availableIn
  cases hps : g.predecessors l with
  | nil => rfl
  | cons q qs =>
    dsimp only
    rw [hps] at h
    rw [h q List.mem_cons_self]
    refine List.foldl_ext _ _ _ fun s p hp ↦ ?_
    rw [h p (List.mem_cons_of_mem q hp)]

/-! ## Visits -/

section Visit

variable {s : Progress} {b c : Block}

/-- What a visit notes. -/
theorem noted_visit (f : Function) (g : Flow) (s : Progress) (b : Block) :
    (f.visit g s b).noted = s.noted.insert b.label
      (availableBefore (f.availableIn g s.ends b.label) b.instrs) := by
  unfold visit
  dsimp only
  split <;> rfl

/-- A visit puts back successors of the block, and nothing else. -/
theorem mem_work_visit (h : k ∈ (f.visit g s b).work) :
    k ∈ s.work ∨ k ∈ g.successors b.label := by
  rcases visit_cases f g s b with ⟨-, -, hwork⟩ | ⟨-, -, hwork⟩
  · rw [hwork, OrderedSet.mem_erase] at h
    exact .inl h.2
  · rw [hwork, OrderedSet.mem_insertAll, OrderedSet.mem_erase] at h
    exact h.imp_left And.right

/-- A visit takes no other block off the worklist. -/
theorem mem_work_visit_of_ne (hk : k ∈ s.work) (hne : k ≠ b.label) :
    k ∈ (f.visit g s b).work := by
  have hrest := OrderedSet.mem_erase.2 ⟨hne, hk⟩
  rcases visit_cases f g s b with ⟨-, -, hwork⟩ | ⟨-, -, hwork⟩
  · rwa [hwork]
  · rw [hwork, OrderedSet.mem_insertAll]
    exact .inl hrest

/-- A block that is not put back finds at its start what it found before. -/
theorem availableIn_visit (hk : k ∉ (f.visit g s b).work) :
    f.availableIn g (f.visit g s b).ends k = f.availableIn g s.ends k := by
  rcases visit_cases f g s b with ⟨-, hends, -⟩ | ⟨-, hends, hwork⟩
  · rw [hends]
  · refine availableIn_congr fun q hq ↦ atEnd_visit_of_ne ?_
    rintro rfl
    rw [hwork, OrderedSet.mem_insertAll, Flow.mem_successors_iff] at hk
    exact hk (.inr hq)

/-- Labels on the worklist stay those of blocks. -/
theorem mem_labels_of_mem_work_visit (htargets : ∀ k ∈ g.successors b.label, k ∈ f.labels)
    (h : ∀ k ∈ s.work, k ∈ f.labels) (hk : k ∈ (f.visit g s b).work) : k ∈ f.labels :=
  (mem_work_visit hk).elim (h k) (htargets k)

end Visit

/-! ## The worklist -/

section Settle

variable {m : Type → Type} [Monad m] {look : Progress → String → m Unit} {s : Progress}

/-- With an empty worklist nothing is left to do. -/
theorem settle_of_empty {h : f.Descends g s.ends} (hwork : s.work = ∅) :
    f.settle g look s h = pure s := by
  rw [settle]
  split
  · rfl
  · rename_i hpop
    rw [OrderedSet.pop?_eq_none.2 hwork] at hpop
    cases hpop

/-- A label that names no block is looked at and passed over. -/
theorem settle_of_block?_eq_none {h : f.Descends g s.ends} {rest : OrderedSet String}
    (hpop : s.work.pop? = some (l, rest)) (hl : f.block? l = none) :
    f.settle g look s h = look s l >>= fun _ ↦ f.settle g look { s with work := rest } h := by
  rw [settle]
  split
  · rename_i hnone
    cases hnone.symm.trans hpop
  · rename_i hsome
    cases hsome.symm.trans hpop
    refine bind_congr fun _ ↦ ?_
    split
    · rfl
    · rename_i hb
      cases hb.symm.trans hl

/-- A block is looked at, visited, and the rest of the worklist follows. -/
theorem settle_of_block? {h : f.Descends g s.ends} {rest : OrderedSet String} {b : Block}
    (hpop : s.work.pop? = some (l, rest)) (hl : f.block? l = some b) :
    f.settle g look s h =
      look s l >>= fun _ ↦ f.settle g look (f.visit g s b) (h.visit (block?_label hl)) := by
  rw [settle]
  split
  · rename_i hnone
    cases hnone.symm.trans hpop
  · rename_i hsome
    cases hsome.symm.trans hpop
    refine bind_congr fun _ ↦ ?_
    split
    · rename_i hb
      cases hb.symm.trans hl
    · rename_i hb
      cases hb.symm.trans hl
      rfl

/-- What holds at first and after each visit holds when the worklist is empty; and looks that find
what they look for change nothing. -/
theorem settle_eq_pure [LawfulMonad m] (look : Progress → String → m Unit) {I : Progress → Prop}
    (hskip : ∀ s l, I s → l ∈ s.work → f.block? l = none → I { s with work := s.work.erase l })
    (hvisit : ∀ s b, I s → f.block? b.label = some b → b.label ∈ s.work → I (f.visit g s b))
    (hlook : ∀ s l, I s → l ∈ s.work → look s l = pure ())
    {s : Progress} (h : f.Descends g s.ends) (hs : I s) :
    f.settle g look s h = pure (f.settled g s h) ∧ I (f.settled g s h) ∧
      (f.settled g s h).work = ∅ := by
  unfold settled
  cases hpop : s.work.pop? with
  | none =>
    have hwork := OrderedSet.pop?_eq_none.1 hpop
    rw [settle_of_empty hwork, settle_of_empty hwork]
    exact ⟨rfl, hs, hwork⟩
  | some p =>
    obtain ⟨l, rest⟩ := p
    obtain ⟨hl, rfl⟩ := OrderedSet.pop?_eq_some hpop
    have hnext (t : Progress) (ht : f.Descends g t.ends)
        (ih : f.settle g look t ht = pure (f.settled g t ht) ∧ I (f.settled g t ht) ∧
          (f.settled g t ht).work = ∅) :
        (look s l >>= fun _ ↦ f.settle g look t ht) = pure (f.settled g t ht) ∧
          I (f.settled g t ht) ∧ (f.settled g t ht).work = ∅ := by
      rw [hlook s l hs hl, pure_bind]
      exact ih
    cases hb : f.block? l with
    | none =>
      rw [settle_of_block?_eq_none hpop hb, settle_of_block?_eq_none hpop hb]
      let t : Progress := { s with work := s.work.erase l }
      exact hnext t h (settle_eq_pure look (s := t) hskip hvisit hlook h (hskip s l hs hl hb))
    | some b =>
      have hlabel := (mem_of_block? hb).2
      rw [settle_of_block? hpop hb, settle_of_block? hpop hb]
      exact hnext _ _ (settle_eq_pure look hskip hvisit hlook _
        (hvisit s b hs (block?_label hb) (hlabel ▸ hl)))
termination_by (s.ends.weight, s.work.size)
decreasing_by
  · exact .right _ (OrderedSet.size_erase_lt hl)
  · exact h.visit_lt (block?_label hb) (hlabel ▸ hl)

/-- What holds at first and after each visit holds when the worklist is empty. -/
theorem settled_induction {I : Progress → Prop}
    (hskip : ∀ s l, I s → l ∈ s.work → f.block? l = none → I { s with work := s.work.erase l })
    (hvisit : ∀ s b, I s → f.block? b.label = some b → b.label ∈ s.work → I (f.visit g s b))
    (h : f.Descends g s.ends) (hs : I s) :
    I (f.settled g s h) ∧ (f.settled g s h).work = ∅ :=
  (settle_eq_pure (m := Id) (fun _ _ ↦ pure ()) hskip hvisit (fun _ _ _ _ ↦ rfl) h hs).2

end Settle

/-! ## What every visit keeps -/

/-- Variables at the ends of blocks that agree with each other: each is assigned in its block or
available at the end of all predecessors, or it is a parameter and there are none. -/
def IsConsistent (f : Function) (g : Flow) (A : String → String → Prop) : Prop :=
  ∀ l x, A l x → ∃ b, f.block? l = some b ∧ (x ∈ b.results ∨
    (g.predecessors l = [] ∧ x ∈ f.paramNames) ∨
    (g.predecessors l ≠ [] ∧ ∀ q ∈ g.predecessors l, A q x))

/-- A visit finds what agrees. -/
theorem IsConsistent.mem_foundAtEnd {A : String → String → Prop} {b : Block}
    (hA : f.IsConsistent g A) (h : ∀ l x, A l x → x ∈ a.atEnd l)
    (hb : f.block? b.label = some b) (hx : A b.label x) : x ∈ f.foundAtEnd g a b := by
  obtain ⟨c, hc, hcase⟩ := hA b.label x hx
  cases hb.symm.trans hc
  rw [Function.mem_foundAtEnd]
  rcases hcase with hresult | ⟨hnil, hparam⟩ | ⟨hne, hpreds⟩
  · exact .inr hresult
  · exact .inl ((mem_availableIn_of_nil hnil).2 hparam)
  · exact .inl ((mem_availableIn hne).2 fun q hq ↦ h q x (hpreds q hq))

/-- The sets hold variables of the function only, and all that agree.  A block that is not to be
visited has at its end what a visit would find, and its instructions were noted with the sets as
they are. -/
structure Settles (f : Function) (g : Flow) (s : Progress) : Prop extends
    f.Descends g s.ends where
  own : ∀ l, ∀ x ∈ s.ends.atEnd l, (∃ b, f.block? l = some b) ∧ x ∈ f.knownVars
  above : ∀ A, f.IsConsistent g A → (∀ l x, A l x → x ∈ f.knownVars) →
    ∀ l x, A l x → x ∈ s.ends.atEnd l
  solved : ∀ l b, f.block? l = some b → l ∉ s.work →
    ∀ x ∈ s.ends.atEnd l, x ∈ f.foundAtEnd g s.ends b
  noted : ∀ l b, f.block? l = some b → l ∉ s.work →
    s.noted.get? l = some (availableBefore (f.availableIn g s.ends l) b.instrs)

/-- Before the first visit every block is still to be visited, and its set holds every variable. -/
theorem settles_unvisited (f : Function) (g : Flow) : f.Settles g f.unvisited := by
  have hwork {l : String} {b : Block} (hb : f.block? l = some b) : l ∈ f.unvisited.work :=
    OrderedSet.mem_ofList.2 (mem_labels_of_block? hb)
  constructor
  case toDescends => exact f.descends_unvisited g
  case own =>
    intro l x hx
    obtain ⟨hl, hknown⟩ := mem_atEnd_allAvailable.1 hx
    exact ⟨Option.isSome_iff_exists.1 (hasBlock_iff.2 hl), hknown⟩
  case above =>
    intro A hA hknown l x hx
    obtain ⟨b, hb, -⟩ := hA l x hx
    exact mem_atEnd_allAvailable.2 ⟨mem_labels_of_block? hb, hknown l x hx⟩
  case solved => exact fun l b hb hl ↦ absurd (hwork hb) hl
  case noted => exact fun l b hb hl ↦ absurd (hwork hb) hl

namespace Settles

variable {s : Progress}

/-- What is said of the sets stays true after a visit. -/
theorem visit {b : Block} (h : f.Settles g s) (hb : f.block? b.label = some b) :
    f.Settles g (f.visit g s b) where
  toDescends := h.toDescends.visit hb
  own l x hx := h.own l x (h.mem_of_mem_visit hb hx)
  above A hA hknown l x hx := by
    have hold := h.above A hA hknown
    by_cases hl : l = b.label
    · subst hl
      exact mem_atEnd_visit.2 (hA.mem_foundAtEnd hold hb hx)
    · rw [atEnd_visit_of_ne hl]
      exact hold l x hx
  solved l c hc hwork x hx := by
    have hlabel := (mem_of_block? hc).2
    have hfound : f.foundAtEnd g (f.visit g s b).ends c = f.foundAtEnd g s.ends c := by
      rw [foundAtEnd, availableIn_visit (hlabel ▸ hwork), foundAtEnd]
    rw [hfound]
    by_cases hl : l = b.label
    · subst hl
      cases hb.symm.trans hc
      exact mem_atEnd_visit.1 hx
    · rw [atEnd_visit_of_ne hl] at hx
      exact h.solved l c hc (mt (mem_work_visit_of_ne · hl) hwork) x hx
  noted l c hc hwork := by
    rw [noted_visit, availableIn_visit hwork]
    by_cases hl : l = b.label
    · subst hl
      cases hb.symm.trans hc
      exact OrderedMap.get?_insert_self _ _ _
    · rw [OrderedMap.get?_insert_of_ne _ _ hl]
      exact h.noted l c hc (mt (mem_work_visit_of_ne · hl) hwork)

/-- A label that names no block can be passed over. -/
theorem skip (h : f.Settles g s) (hk : f.block? k = none) :
    f.Settles g { s with work := s.work.erase k } := by
  have hwork {l : String} {b : Block} (hb : f.block? l = some b) (hl : l ∉ s.work.erase k) :
      l ∉ s.work := by
    refine mt (fun hmem ↦ OrderedSet.mem_erase.2 ⟨?_, hmem⟩) hl
    rintro rfl
    cases hk.symm.trans hb
  exact ⟨h.toDescends, h.own, h.above, fun l b hb hl ↦ h.solved l b hb (hwork hb hl),
    fun l b hb hl ↦ h.noted l b hb (hwork hb hl)⟩

end Settles

/-! ## The greatest solution -/

/-- It is true of the sets that the worklist comes to, and no block is left to be visited. -/
theorem settles_settled (f : Function) (g : Flow) :
    f.Settles g (f.settled g f.unvisited (f.descends_unvisited g)) ∧
      (f.settled g f.unvisited (f.descends_unvisited g)).work = ∅ :=
  settled_induction (fun _ _ h _ ↦ h.skip) (fun _ _ h hb _ ↦ h.visit hb) _
    (f.settles_unvisited g)

/-- Only variables of the function are available. -/
theorem mem_knownVars_of_mem_atEnd (h : x ∈ (f.availability g).atEnd l) : x ∈ f.knownVars :=
  ((f.settles_settled g).1.own l x h).2

/-- Only variables of the function are available at the start of a block. -/
theorem mem_knownVars_of_mem_availableIn (h : x ∈ f.availableIn g (f.availability g) l) :
    x ∈ f.knownVars := by
  by_cases hnil : g.predecessors l = []
  · exact mem_knownVars.2 (.inl ((mem_availableIn_of_nil hnil).1 h))
  · obtain ⟨q, hq⟩ := List.exists_mem_of_ne_nil _ hnil
    exact mem_knownVars_of_mem_atEnd ((mem_availableIn hnil).1 h q hq)

/-- What is available at the end of a block is available at its start or assigned there. -/
theorem mem_of_mem_atEnd {b : Block} (hb : f.block? b.label = some b)
    (hx : x ∈ (f.availability g).atEnd b.label) :
    x ∈ f.availableIn g (f.availability g) b.label ∨ x ∈ b.results := by
  obtain ⟨hsettles, hwork⟩ := f.settles_settled g
  exact mem_foundAtEnd.1 (hsettles.solved b.label b hb (hwork ▸ OrderedSet.notMem_empty _) x hx)

/-- What is available agrees. -/
theorem isConsistent_availability (f : Function) (g : Flow) :
    f.IsConsistent g fun l x ↦ x ∈ (f.availability g).atEnd l := by
  intro l x hx
  obtain ⟨⟨b, hb⟩, -⟩ := (f.settles_settled g).1.own l x hx
  obtain rfl := (mem_of_block? hb).2
  refine ⟨b, hb, ?_⟩
  rcases mem_of_mem_atEnd hb hx with hin | hresult
  · right
    by_cases hnil : g.predecessors b.label = []
    · exact .inl ⟨hnil, (mem_availableIn_of_nil hnil).1 hin⟩
    · exact .inr ⟨hnil, (mem_availableIn hnil).1 hin⟩
  · exact .inl hresult

/-- What agrees is available. -/
theorem mem_availability {A : String → String → Prop} (hA : f.IsConsistent g A)
    (hknown : ∀ l x, A l x → x ∈ f.knownVars) (hx : A l x) :
    x ∈ (f.availability g).atEnd l :=
  (f.settles_settled g).1.above A hA hknown l x hx

/-- If a visit finds all variables at the end of every block, all stay available. -/
theorem availability_eq_allAvailable
    (h : ∀ b ∈ f.blocks, ∀ x ∈ f.knownVars, x ∈ f.foundAtEnd g f.allAvailable b) :
    f.availability g = f.allAvailable := by
  refine (settled_induction (I := fun s ↦ s.ends = f.allAvailable) (fun _ _ hs _ _ ↦ hs)
    (fun s b hs hb _ ↦ ?_) (f.descends_unvisited g) rfl).1
  rcases visit_cases f g s b with ⟨-, hends, -⟩ | ⟨hnew, -⟩
  · rw [hends, hs]
  · refine absurd (OrderedSet.sameMembers_iff.2 fun x ↦ ⟨fun hx ↦ ?_, ?_⟩) hnew
    · rw [hs] at hx ⊢
      exact h b (mem_of_block? hb).1 x (mem_atEnd_allAvailable.1 hx).2
    · rw [hs]
      exact (f.descends_unvisited g).found b.label b hb x

end Function

end RangeFlow
