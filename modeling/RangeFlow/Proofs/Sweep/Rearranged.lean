import RangeFlow.Proofs.Check.Rearranged
import RangeFlow.Proofs.Sweep.Known

/-!
# What can be known does not depend on the order of blocks

The rules by which ranges are found speak of instructions, sites and locations, which a program and
one with its blocks in another order share.
-/

namespace RangeFlow

namespace Sweep

variable {p q : Program} {settings : Settings} {f g : Function}

/-- The functions that are swept are those of the other program in another order of blocks. -/
theorem defined_of_rearranges (h : q.Rearranges p) (hg : g ∈ (Env.ofProgram q settings).defined) :
    ∃ f ∈ (Env.ofProgram p settings).defined, g.Rearranges f := by
  obtain ⟨hmem, hdefined⟩ := List.mem_filter.1 hg
  obtain ⟨f, hf, hgf⟩ := h.exists_of_mem hmem
  exact ⟨f, List.mem_filter.2 ⟨hf, by rw [← hgf.isDeclaration]; exact hdefined⟩, hgf⟩

/-! ## Sources -/

/-- The sites of a function go over its instructions in order. -/
theorem map_snd_functionSites (f : Function) : f.sites.map Prod.snd = f.instrs := by
  simp only [Function.sites, Function.instrs, List.map_flatMap, map_snd_sites]

/-- A variable that is defined once is the result of that call only. -/
theorem mem_resultOf {e : Env} {types : OrderedMap String Ty} (ht : Typing f types)
    {x name : String} : name ∈ e.resultOf f x ↔ ∃ site i c, (site, i) ∈ f.sites ∧
      i.result? = some x ∧ i.call? = some c ∧ name ∈ e.resolver.callees site c := by
  have honce : (f.sites.filterMap fun s ↦ s.2.result?).Nodup := by
    have honce := ht.once
    rwa [← map_snd_functionSites, List.filterMap_map] at honce
  have hlast {site : Site} {i : Instr} (hmem : (site, i) ∈ f.sites) (hx : i.result? = some x) :
      (f.sites.filter fun s ↦ decide (s.2.result? = some x)).getLast? = some (site, i) := by
    have hfilter := List.mem_filter (p := fun s : Site × Instr ↦ decide (s.2.result? = some x))
      |>.2 ⟨hmem, decide_eq_true hx⟩
    obtain ⟨s, hs⟩ := Option.ne_none_iff_exists'.1
      (mt List.getLast?_eq_none_iff.1 (List.ne_nil_of_mem hfilter))
    obtain ⟨hs', hsx⟩ := List.mem_filter.1 (List.mem_of_getLast? hs)
    rw [hs, eq_of_filterMap_nodup honce hs' hmem (of_decide_eq_true hsx) hx]
  unfold Env.resultOf
  constructor
  · intro h
    split at h
    · rename_i site i hs
      obtain ⟨hmem, hx⟩ := List.mem_filter.1 (List.mem_of_getLast? hs)
      cases hc : i.call? with
      | none => simp [hc] at h
      | some c =>
        rw [hc] at h
        exact ⟨site, i, c, hmem, of_decide_eq_true hx, hc, h⟩
    · cases h
  · rintro ⟨site, i, c, hmem, hx, hc, hname⟩
    rw [hlast hmem hx]
    dsimp only
    rw [hc]
    exact hname

/-- A variable reads the same ids. -/
theorem exists_sources_of_rearranges {types : OrderedMap String Ty} (h : q.Rearranges p)
    (hgf : g.Rearranges f) (ht : Typing f types) {x : String} {t : Ty} {ids : List String}
    (hids : (Env.ofProgram q settings).sources g x t = .ok ids) :
    ∃ ids', (Env.ofProgram p settings).sources f x t = .ok ids' ∧ ∀ id ∈ ids, id ∈ ids' := by
  have hresult {name : String} (hmem : name ∈ (Env.ofProgram q settings).resultOf g x) :
      name ∈ (Env.ofProgram p settings).resultOf f x := by
    obtain ⟨site, i, c, hsite, hx, hc, hname⟩ := (mem_resultOf (hgf.typing ht)).1 hmem
    exact (mem_resultOf ht).2
      ⟨site, i, c, hgf.sites.mem_iff.1 hsite, hx, hc, h.mem_callees hname⟩
  have hvalue : (Env.ofProgram q settings).program.valueLocation g (.var x t) =
      (Env.ofProgram p settings).program.valueLocation f (.var x t) := h.valueLocation hgf ht _
  unfold Env.sources at hids ⊢
  rw [hvalue] at hids
  cases hown : (Env.ofProgram p settings).program.valueLocation f (.var x t) with
  | error y => simp [hown, bind, Except.bind] at hids
  | ok own =>
    simp only [hown, bind, Except.bind, pure, Except.pure, Except.ok.injEq] at hids ⊢
    refine ⟨_, rfl, fun id hid ↦ ?_⟩
    rw [← hids] at hid
    rcases List.mem_append.1 hid with hid | hid
    · exact List.mem_append_left _ hid
    · obtain ⟨name, hname, rfl⟩ := List.mem_map.1 hid
      exact List.mem_append_right _ (List.mem_map_of_mem (hresult hname))

/-! ## Rules -/

/-- Each rule of a program is one of the program with its blocks in another order. -/
theorem Feeds.of_rearranges (h : q.Rearranges p)
    (htyping : ∀ f ∈ p.functions, ∃ types, Typing f types) {body : List Topic} {head : Topic}
    (hfeeds : Feeds (.ofProgram q settings) body head) :
    Feeds (.ofProgram p settings) body head := by
  have htypes {f : Function} (hf : f ∈ (Env.ofProgram p settings).defined) :
      ∃ types, Typing f types := htyping f (mem_functions_of_mem_defined hf)
  cases hfeeds with
  | seeded hleaf hr =>
    have hleaf' : .ok _ ∈ p.leaves := h.leaves ▸ hleaf
    exact .seeded hleaf' hr
  | tainted hg hids hid htaint =>
    obtain ⟨f, hf, hgf⟩ := defined_of_rearranges h hg
    obtain ⟨types, ht⟩ := htypes hf
    obtain ⟨ids', hids', hsub⟩ := exists_sources_of_rearranges h hgf ht hids
    rw [hgf.name]
    exact .tainted hf hids' (hsub _ hid) htaint
  | read hg hids hid =>
    obtain ⟨f, hf, hgf⟩ := defined_of_rearranges h hg
    obtain ⟨types, ht⟩ := htypes hf
    obtain ⟨ids', hids', hsub⟩ := exists_sources_of_rearranges h hgf ht hids
    rw [hgf.name]
    exact .read hf hids' (hsub _ hid)
  | value hg hi ha hos =>
    obtain ⟨f, hf, hgf⟩ := defined_of_rearranges h hg
    rw [hgf.name]
    exact .value hf (hgf.instrs.mem_iff.1 hi) ha hos
  | stored hg hi ha hint hloc =>
    obtain ⟨f, hf, hgf⟩ := defined_of_rearranges h hg
    obtain ⟨types, ht⟩ := htypes hf
    rw [hgf.name]
    exact .stored hf (hgf.instrs.mem_iff.1 hi) ha hint ((h.memoryLocation hgf ht _).symm.trans hloc)
  | pointed hg hi ha hint =>
    obtain ⟨f, hf, hgf⟩ := defined_of_rearranges h hg
    rw [hgf.name]
    exact .pointed hf (hgf.instrs.mem_iff.1 hi) ha hint
  | returned hg hi ha hint =>
    obtain ⟨f, hf, hgf⟩ := defined_of_rearranges h hg
    rw [hgf.name]
    exact .returned hf (hgf.instrs.mem_iff.1 hi) ha hint
  | passed hg hsite hc hcallee hcalled hflags harg hint =>
    obtain ⟨f, hf, hgf⟩ := defined_of_rearranges h hg
    obtain ⟨called, hcalled', hrearranges⟩ := h.exists_function? hcalled
    rw [hgf.name, hrearranges.name]
    refine .passed hf (hgf.sites.mem_iff.1 hsite) hc (h.mem_callees hcallee) hcalled' ?_ ?_ hint
    · rw [← hrearranges.isVararg, ← hrearranges.isIntrinsic]
      exact hflags
    · rw [← hrearranges.params]
      exact harg
  | answered hg hsite ha hint hcallee =>
    obtain ⟨f, hf, hgf⟩ := defined_of_rearranges h hg
    rw [hgf.name]
    exact .answered hf (hgf.sites.mem_iff.1 hsite) ha hint (h.mem_callees hcallee)

/-- What can be known of a program can be known of it with its blocks in another order. -/
theorem Known.of_rearranges (h : q.Rearranges p)
    (htyping : ∀ f ∈ p.functions, ∃ types, Typing f types) {t : Topic}
    (hknown : Known (.ofProgram q settings) t) : Known (.ofProgram p settings) t := by
  induction hknown with
  | intro hfeeds _ ih => exact .intro (hfeeds.of_rearranges h htyping) ih

end Sweep

/-! ## Programs that can be analysed -/

section Analysable

variable {p q : Program} {f g : Function} {types : OrderedMap String Ty}

/-- The chains of definitions end in either order of the blocks. -/
theorem Function.Rearranges.ends (h : g.Rearranges f) (ht : Typing f types) {o : Operand}
    (ho : f.Ends o) : g.Ends o := by
  have hnext : g.passedOn? = f.passedOn? := by
    funext x
    unfold Function.passedOn?
    rw [h.definition? ht]
  have halong (n : Nat) (o : Operand) : g.along n o = f.along n o := by
    induction n generalizing o with
    | zero => rfl
    | succ n ih =>
      rw [Function.along, Function.along, hnext]
      exact Option.bind_congr fun a _ ↦ ih a
  obtain ⟨n, hn⟩ := ho
  exact ⟨n, (halong n o).trans hn⟩

/-- Where no edge closes a loop, no value of a phi is passed over. -/
theorem Action.IsAnalysable.of_rearranges (h : g.Rearranges f) (ht : Typing f types) {a : Action}
    {loops : OrderedSet Edge} {l : String} (ha : a.IsAnalysable f ∅ l) :
    a.IsAnalysable g loops l := by
  cases a with
  | assign x v =>
    cases v with
    | phi t entries =>
      exact fun hint entry hentry _ ↦ ha hint entry hentry (OrderedSet.notMem_empty _)
    | load t address => exact fun hint ↦ h.ends ht (ha hint)
    | _ => exact ha
  | store t v address => exact fun hint ↦ h.ends ht (ha hint)
  | call c => trivial
  | finish t =>
    cases t with
    | ret t v => exact ha
    | _ => trivial

/-- Both programs have the same structs, so their types have the same parts. -/
theorem Program.Rearranges.part (h : q.Rearranges p) : q.Part = p.Part := by
  have hle {p q : Program} (h : q.Rearranges p) {s t : Ty} (hst : q.Part s t) : p.Part s t := by
    cases hst with
    | element => exact .element
    | field ht => exact .field ht
    | body hfields ht =>
      rw [fields?_congr h.structs] at hfields
      exact .body hfields ht
  funext s t
  exact propext ⟨hle h, hle h.symm⟩

/-- A constant with a zero inside has it in both programs. -/
theorem Program.Rearranges.hasZero (h : q.Rearranges p) {t u : Ty} {c : Constant}
    (hzero : q.HasZero t c u) : p.HasZero t c u := by
  induction hzero with
  | zero => exact .zero
  | field hfields hc _ ih =>
    rw [fields?_congr h.structs] at hfields
    exact .field hfields hc ih
  | element hc _ ih => exact .element hc ih

/-- If a program without loops can be analysed, then it can in any order of its blocks. -/
theorem Program.Rearranges.isAnalysable (h : q.Rearranges p) (hsound : p.isSound = true)
    (hforward : ∀ f ∈ p.functions, f.IsForward) (hp : p.IsAnalysable) : q.IsAnalysable := by
  refine ⟨fun g hg loops _ b hb i hi ↦ ?_, fun g hg hdot c hc t hzero ↦ ?_⟩
  · obtain ⟨f, hf, hgf⟩ := h.exists_of_mem hg
    obtain ⟨u, hu⟩ := exists_flow_of_isSound hsound hf
    have hb' := hgf.blocks.mem_iff.1 hb
    obtain ⟨entry, hentry⟩ := Option.isSome_iff_exists.1
      (List.isSome_head?.2 (List.ne_nil_of_mem hb'))
    have hloops : f.backEdges = .ok (u.backEdges entry.label) := by
      have hentry' : f.entry? = some entry := hentry
      rw [Function.backEdges, hu, hentry']
      rfl
    have hnone := backEdges_of_isForward (hforward f hf) hloops
    have haction := hp.functions f hf _ hloops b hb' i hi
    rw [hnone] at haction
    exact haction.of_rearranges hgf (typing_of_isSound hsound hf hu)
  · rw [h.globals] at hg
    rw [h.part]
    exact hp.globals g hg hdot c hc t (h.hasZero hzero)

theorem Program.Rearranges.isShort (h : q.Rearranges p) (hp : p.isShort = true) :
    q.isShort = true := by
  have hall {P : Function → Bool} (hP : ∀ f g, g.Rearranges f → P f = true → P g = true)
      (hall : p.functions.all P = true) : q.functions.all P = true := by
    rw [List.all_eq_true] at hall ⊢
    intro g hg
    obtain ⟨f, hf, hgf⟩ := h.exists_of_mem hg
    exact hP f g hgf (hall f hf)
  unfold Program.isShort Program.isWritable at hp ⊢
  simp only [h.structs, h.globals, Bool.and_eq_true] at hp ⊢
  refine ⟨⟨⟨⟨hp.1.1.1.1, hall (fun f g hgf hf ↦ ?_) hp.1.1.1.2⟩, hp.1.1.2⟩, hp.1.2⟩,
    hall (fun f g hgf hf ↦ ?_) hp.2⟩
  · unfold Function.isWritable at hf ⊢
    rwa [hgf.params, hgf.returns, hgf.blocks.all_eq]
  · rwa [hgf.instrs.all_eq]

end Analysable

end RangeFlow
