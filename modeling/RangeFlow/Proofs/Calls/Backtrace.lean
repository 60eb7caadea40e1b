import RangeFlow.Calls.Answers
import RangeFlow.Diagnose
import RangeFlow.Proofs.Calls.Resolver
import RangeFlow.Proofs.Symbolic.Verdict

/-!
# Backtraces

From a function the walk up a call graph goes to the first call that can invoke it, and on to the
function that makes this call.  It stops at a function that no call can invoke, and at one where it
has been before (`CallGraph.Climbs`).  Each step but the last leads to a new function, so the walk
comes to an end in every graph, however its calls lead in circles (`climbs_chain`), and what it
passes is a chain of calls (`Program.IsBacktrace`).  The graph lists the calls of a program with the
functions that they are resolved to (`CallGraph.Lists`): by name alone, or by a resolver, whatever
it was asked and told before (`Resolution`).
-/

namespace RangeFlow

/-! ## The walk up a call graph -/

namespace CallGraph

/-- The calls that are passed on the way up from a function, after other functions, latest first. -/
inductive Climbs (g : CallGraph) : List String → String → List ResolvedCall → Prop
  /-- No call can invoke the function. -/
  | top {before : List String} {function : String}
    (h : (g.callSites function).head? = none) : Climbs g before function []
  /-- The call is made by a function that was met before. -/
  | again {before : List String} {function : String} {c : ResolvedCall}
    (h : (g.callSites function).head? = some c) (hseen : c.site.function ∈ function :: before) :
    Climbs g before function [c]
  /-- The call is made by a new function. -/
  | up {before : List String} {function : String} {c : ResolvedCall} {cs : List ResolvedCall}
    (h : (g.callSites function).head? = some c) (hnew : c.site.function ∉ function :: before)
    (hup : Climbs g (function :: before) c.site.function cs) : Climbs g before function (c :: cs)

variable {g : CallGraph} {before : List String} {function : String} {c : ResolvedCall}
  {cs : List ResolvedCall}

theorem mem_callSites : c ∈ g.callSites function ↔ c ∈ g.calls ∧ function ∈ c.targets := by
  rw [callSites, List.mem_filter, decide_eq_true_eq]

/-- The first call that can invoke a function is a call of the graph with the function among its
targets. -/
theorem mem_of_head?_callSites (h : (g.callSites function).head? = some c) :
    c ∈ g.calls ∧ function ∈ c.targets :=
  mem_callSites.1 (List.mem_of_mem_head? h)

/-- The walk comes to an end, where the unseen functions are those that it has not met. -/
theorem climbs_chain {unseen : List String} (hunseen : unseen.Nodup)
    (h : ∀ c ∈ g.calls, c.site.function ∈ unseen ↔ c.site.function ∉ function :: before) :
    g.Climbs before function (g.chain unseen function) := by
  induction unseen, function using chain.induct g generalizing before with
  | case1 unseen function hnone =>
    rw [chain, hnone]
    exact .top hnone
  | case2 unseen function c hsome hmem ih =>
    -- The calling function is seen and met in one step, so the unseen ones stay those not met.
    have hc := (mem_of_head?_callSites hsome).1
    rw [chain, hsome]
    simp only [if_pos hmem]
    refine .up hsome ((h c hc).1 hmem) (ih (hunseen.erase _) fun c' hc' ↦ ?_)
    simp only [hunseen.mem_erase_iff, h c' hc', List.mem_cons, not_or, ne_eq]
  | case3 unseen function c hsome hnot =>
    have hc := (mem_of_head?_callSites hsome).1
    rw [chain, hsome]
    simp only [if_neg hnot]
    exact .again hsome (not_not.1 fun hnew ↦ hnot ((h c hc).2 hnew))

/-- The functions met on a way up, those before it included. -/
def met (before : List String) (function : String) (cs : List ResolvedCall) : List String :=
  before.reverse ++ function :: cs.map fun c ↦ c.site.function

/-- The functions met on the way begin with the one whose call is passed first. -/
theorem met_cons : met before function (c :: cs) = met (function :: before) c.site.function cs := by
  simp [met]

/-- Only the function that is met last can have been met before. -/
theorem Climbs.nodup (h : g.Climbs before function cs) (hbefore : (function :: before).Nodup) :
    (met before function cs).dropLast.Nodup := by
  induction h with
  | top => simpa [met] using hbefore.of_cons
  | @again before function c =>
    have hmet : (met before function [c]).dropLast = (function :: before).reverse := by simp [met]
    rw [hmet, List.nodup_reverse]
    exact hbefore
  | up _ hnew _ ih =>
    rw [met_cons]
    exact ih (List.nodup_cons.2 ⟨hnew, hbefore⟩)

/-- The walk stops only where it has been before, or where no call leads. -/
theorem Climbs.ends (h : g.Climbs before function cs) {name : String}
    (hname : (met before function cs).getLast? = some name) :
    name ∈ (met before function cs).dropLast ∨ g.callSites name = [] := by
  induction h with
  | top hnone =>
    obtain rfl : _ = name := by simpa [met] using hname
    exact .inr (List.head?_eq_none_iff.1 hnone)
  | again _ hseen =>
    obtain rfl : _ = name := by simpa [met] using hname
    exact .inl (by simpa [met, or_comm] using hseen)
  | up _ _ _ ih =>
    rw [met_cons] at hname ⊢
    exact ih hname

/-- Each call that is passed can invoke the function from which it is reached. -/
theorem Climbs.isChain (h : g.Climbs before function cs) {e : Site × Instr}
    (he : e.1.function = function) :
    (e :: cs.map fun c ↦ (c.site, c.instr)).IsChain fun e caller ↦
      ∃ c ∈ g.calls, (c.site, c.instr) = caller ∧ e.1.function ∈ c.targets := by
  have hstep {function : String} {e : Site × Instr} {c : ResolvedCall}
      (he : e.1.function = function) (hsome : (g.callSites function).head? = some c) :
      ∃ c' ∈ g.calls, (c'.site, c'.instr) = (c.site, c.instr) ∧ e.1.function ∈ c'.targets := by
    obtain ⟨hc, htarget⟩ := mem_of_head?_callSites hsome
    exact ⟨c, hc, rfl, he ▸ htarget⟩
  induction h generalizing e with
  | top => exact List.isChain_singleton e
  | again hsome => exact List.isChain_cons_cons.2 ⟨hstep he hsome, List.isChain_singleton _⟩
  | up hsome _ _ ih => exact List.isChain_cons_cons.2 ⟨hstep he hsome, ih rfl⟩

theorem Climbs.mem_calls (h : g.Climbs before function cs) (hc : c ∈ cs) : c ∈ g.calls := by
  induction h with
  | top => exact absurd hc List.not_mem_nil
  | again hsome =>
    obtain rfl := List.mem_singleton.1 hc
    exact (mem_of_head?_callSites hsome).1
  | up hsome _ _ ih =>
    rcases List.mem_cons.1 hc with rfl | hc
    · exact (mem_of_head?_callSites hsome).1
    · exact ih hc

end CallGraph

/-! ## The calls that a graph lists -/

/-- A graph lists calls of a program with their targets, and leaves no target of a call out. -/
structure CallGraph.Lists (g : CallGraph) (p : Program) (Targets : Site → Call → String → Prop) :
    Prop where
  sound : ∀ c ∈ g.calls, ∃ f ∈ p.functions, (c.site, c.instr) ∈ f.sites ∧
    ∃ call, c.instr.call? = some call ∧ ∀ name ∈ c.targets, Targets c.site call name
  complete : ∀ f ∈ p.functions, ∀ e ∈ f.sites, ∀ call, e.2.call? = some call →
    ∀ name, Targets e.1 call name → ∃ c ∈ g.calls, name ∈ c.targets

def Program.callAt (p : Program) (site : Site) : Call :=
  ((((p.function? site.function).bind fun f ↦ f.block? site.block).bind fun b ↦
    b.instrs[site.index]?).bind Instr.call?).getD ⟨.void, .direct "", []⟩

/-- How calls are resolved: by name alone, or by a resolver after some requests. -/
inductive Resolution
  | byName
  | resolver (requests : List Answers.Request)

namespace Resolution

def callGraph (p : Program) : Resolution → CallGraph
  | byName => p.directCallGraph
  | resolver requests => (Answers.after p p.callAt requests).callGraph

/-- The functions that the call at a site is resolved to. -/
def Targets (p : Program) : Resolution → Site → Call → String → Prop
  | byName, _, c, name => c.callee = .direct name ∧ p.hasFunction name = true
  | resolver requests, site, c, name =>
    p.Invokes (fun target ↦ .register site target ∈ requests) c name

end Resolution

namespace Function

variable {f : Function} {site : Site} {i : Instr} {label : String}

/-- A site is the place of an instruction in a block of the function. -/
theorem mem_sites :
    (site, i) ∈ f.sites ↔
      ∃ b ∈ f.blocks, ∃ n, b.instrs[n]? = some i ∧ site = ⟨f.name, b.label, n⟩ := by
  unfold sites Block.sites
  simp only [List.mem_flatMap, List.mem_map, Prod.exists, List.mem_zipIdx_iff_getElem?,
    Prod.mk.injEq]
  refine exists_congr fun b ↦ and_congr_right fun _ ↦ ⟨?_, ?_⟩
  · rintro ⟨i, n, hi, rfl, rfl⟩
    exact ⟨n, hi, rfl⟩
  · rintro ⟨n, hi, rfl⟩
    exact ⟨i, n, hi, rfl, rfl⟩

theorem function_of_mem_sites (h : (site, i) ∈ f.sites) : site.function = f.name := by
  obtain ⟨b, -, n, -, rfl⟩ := mem_sites.1 h
  rfl

/-- An instruction listed with the label of its block has a site in this block. -/
theorem exists_site_of_labelled (h : (label, i) ∈ f.labelled) :
    ∃ site, (site, i) ∈ f.sites ∧ site.function = f.name ∧ site.block = label := by
  obtain ⟨b, hb, hi⟩ := List.mem_flatMap.1 h
  obtain ⟨i, hi, heq⟩ := List.mem_map.1 hi
  cases heq
  obtain ⟨n, hn⟩ := List.mem_iff_getElem?.1 hi
  exact ⟨⟨f.name, b.label, n⟩, mem_sites.2 ⟨b, hb, n, hn, rfl⟩, rfl, rfl⟩

end Function

section Lists

variable {p : Program} {f : Function} {site : Site} {i : Instr}

theorem Program.function?_eq_some (hnames : (p.functions.map Function.name).Nodup)
    (hf : f ∈ p.functions) : p.function? f.name = some f := by
  cases hfind : p.function? f.name with
  | none => simpa using List.find?_eq_none.1 hfind f hf
  | some f' =>
    have hname : f'.name = f.name := by simpa using List.find?_some hfind
    rw [List.inj_on_of_nodup_map hnames (List.mem_of_find?_eq_some hfind) hf hname]

/-- The call at the site of a call is this call, if functions and blocks have names of their own. -/
theorem Program.callAt_of_mem_sites (hnames : (p.functions.map Function.name).Nodup)
    (hlabels : ∀ f ∈ p.functions, f.labels.Nodup) (hf : f ∈ p.functions)
    (hsite : (site, i) ∈ f.sites) {c : Call} (hc : i.call? = some c) : p.callAt site = c := by
  obtain ⟨b, hb, n, hi, rfl⟩ := Function.mem_sites.1 hsite
  have hblock : f.block? b.label = some b := (Function.block?_eq_some (hlabels f hf)).2 ⟨hb, rfl⟩
  have hfunction : p.function? f.name = some f := function?_eq_some hnames hf
  simp only [callAt, hfunction, Option.bind_some, hblock, hi, hc, Option.getD_some]

/-- A graph built by a way to resolve calls lists the targets that this way finds. -/
theorem Program.lists_callGraphBy {resolve : Site → Call → OrderedSet String}
    {Targets : Site → Call → String → Prop}
    (h : ∀ f ∈ p.functions, ∀ e ∈ f.sites, ∀ c, e.2.call? = some c →
      ∀ name, name ∈ resolve e.1 c ↔ Targets e.1 c name) :
    (p.callGraphBy resolve).Lists p Targets where
  sound := by
    intro c hc
    obtain ⟨f, hf, hc⟩ := List.mem_flatMap.1 hc
    obtain ⟨⟨site, i⟩, he, hc⟩ := List.mem_filterMap.1 hc
    obtain ⟨call, hcall, rfl⟩ := Option.map_eq_some_iff.1 hc
    exact ⟨f, hf, he, call, hcall, fun name ↦ (h f hf _ he call hcall name).1⟩
  complete := by
    rintro f hf ⟨site, i⟩ he call hcall name htarget
    refine ⟨⟨site, i, resolve site call⟩, ?_, (h f hf _ he call hcall name).2 htarget⟩
    refine List.mem_flatMap.2 ⟨f, hf, List.mem_filterMap.2 ⟨_, he, ?_⟩⟩
    exact Option.map_eq_some_iff.2 ⟨call, hcall, rfl⟩

/-- A call by name invokes the function of that name, if there is one. -/
theorem Resolver.mem_directCallees {c : Call} {name : String} :
    name ∈ directCallees p c ↔ c.callee = .direct name ∧ p.hasFunction name = true := by
  unfold directCallees
  cases c.callee with
  | direct n =>
    simp only [Callee.direct.injEq]
    split
    · rename_i hn
      refine List.mem_singleton.trans ⟨?_, fun h ↦ h.1.symm⟩
      rintro rfl
      exact ⟨rfl, hn⟩
    · rename_i hn
      refine iff_of_false (OrderedSet.notMem_empty name) ?_
      rintro ⟨rfl, h⟩
      exact hn h
  | indirect x => exact iff_of_false (OrderedSet.notMem_empty name) fun h ↦ nomatch h.1

/-- Whatever a resolver was asked and told before, the graph lists the targets that it knows now. -/
theorem Resolution.lists_callGraph (hnames : (p.functions.map Function.name).Nodup)
    (hlabels : ∀ f ∈ p.functions, f.labels.Nodup) (way : Resolution) :
    (way.callGraph p).Lists p (way.Targets p) := by
  cases way with
  | byName =>
    rw [callGraph, Program.directCallGraph]
    exact Program.lists_callGraphBy fun _ _ _ _ _ _ _ ↦ Resolver.mem_directCallees
  | resolver requests =>
    have hkeeps := Answers.Keeps.after p p.callAt requests
    rw [callGraph, Answers.callGraph, hkeeps.program]
    refine Program.lists_callGraphBy fun f hf e he c hc name ↦ ?_
    have htargets : (Answers.after p p.callAt requests).resolver.Targets e.1 =
        fun target ↦ .register e.1 target ∈ requests :=
      funext fun target ↦ propext (hkeeps.targets e.1 target)
    rw [← Program.callAt_of_mem_sites hnames hlabels hf he hc, hkeeps.callees_eq,
      Resolver.mem_callees_iff hkeeps.program hkeeps.taken, htargets, Targets]

end Lists

/-! ## Reports -/

/-- A report is made on an instruction of a program, whatever becomes of those after it. -/
def Program.Diagnoses (p : Program) (g : CallGraph) (d : Diagnostic) : Prop :=
  ∃ f ∈ p.functions, ∃ e ∈ f.labelled, ∃ s t, (p.diagnoseInstr g f e.1 e.2).run s = .ok (some d) t

theorem Symbolic.exists_run_of_mem_mapM {α β : Type} {q : α → Oracle β} {xs : List α}
    {ys : List β} {s t : Loops} (h : (xs.mapM q).run s = .ok ys t) {y : β} (hy : y ∈ ys) :
    ∃ x ∈ xs, ∃ s t, (q x).run s = .ok y t := by
  induction xs generalizing ys s with
  | nil =>
    cases h
    exact absurd hy List.not_mem_nil
  | cons x xs ih =>
    rw [List.mapM_cons] at h
    obtain ⟨y', u, hfirst, h⟩ := run_bind_eq_ok.1 h
    obtain ⟨ys', u', hrest, h⟩ := run_bind_eq_ok.1 h
    cases h
    rcases List.mem_cons.1 hy with rfl | hy
    · exact ⟨x, List.mem_cons_self, s, u, hfirst⟩
    · obtain ⟨x', hx', hrun⟩ := ih hrest hy
      exact ⟨x', List.mem_cons_of_mem x hx', hrun⟩

namespace Program

variable {p : Program} {g : CallGraph} {f : Function} {label : String} {i : Instr} {d : Diagnostic}

/-- Every report that is returned was made on an instruction. -/
theorem diagnoses_of_mem {ds : List Diagnostic} (h : p.diagnoseWith g = .ok ds) (hd : d ∈ ds) :
    p.Diagnoses g d := by
  unfold diagnoseWith at h
  cases hall : p.functions.mapM (p.diagnoseFunction g) with
  | error e => simp [hall, bind, Except.bind] at h
  | ok lists =>
    simp only [hall, bind, Except.bind, pure, Except.pure, Except.ok.injEq] at h
    subst h
    obtain ⟨ds, hds, hd⟩ := List.mem_flatten.1 hd
    obtain ⟨f, hf, hrun⟩ := (mem_of_mapM hall).2 ds hds
    unfold diagnoseFunction at hrun
    split at hrun
    · rename_i reports t hreports
      cases hrun
      obtain ⟨report, hreport, hsome⟩ := List.mem_filterMap.1 hd
      obtain rfl : report = some d := hsome
      obtain ⟨e, he, s, t, hrun⟩ := Symbolic.exists_run_of_mem_mapM hreports hreport
      exact ⟨f, hf, e, he, s, t, hrun⟩
    · cases hrun

/-- A report is on a comparison, and names the calls on the way up. -/
theorem diagnoseInstr_eq_some {s t : Symbolic.Loops}
    (h : (p.diagnoseInstr g f label i).run s = .ok (some d) t) :
    (∃ x c ty a b, i.action = .assign x (.compare c ty a b)) ∧ d.instr = i ∧
      d.place = ⟨f.name, label, i.line⟩ ∧ d.callers = p.callers g f.name := by
  unfold diagnoseInstr at h
  split at h
  · rename_i x c ty a b ha
    refine ⟨⟨x, c, ty, a, b, ha⟩, ?_⟩
    obtain ⟨pair, u, -, h⟩ := run_bind_eq_ok.1 h
    split at h
    · cases h
    · split at h
      · cases h
      · cases h
      · cases h
        exact ⟨rfl, rfl, rfl⟩
  · cases h

end Program

/-! ## Backtraces -/

/-- The place in the source of an instruction at a site. -/
def Site.place (site : Site) (i : Instr) : Place := ⟨site.function, site.block, i.line⟩

def functionsOf (entries : List (Site × Instr)) : List String := entries.map fun e ↦ e.1.function

/-- Instructions of a program that tell how the first one is reached. -/
structure Program.IsBacktrace (p : Program) (Targets : Site → Call → String → Prop)
    (entries : List (Site × Instr)) : Prop where
  mem_sites : ∀ e ∈ entries, ∃ f ∈ p.functions, e ∈ f.sites
  /-- Each instruction but the first is a call that can invoke the function of the one before. -/
  invokes : entries.IsChain fun e caller ↦
    ∃ c, caller.2.call? = some c ∧ Targets caller.1 c e.1.function
  /-- No function is met twice before the last one. -/
  nodup : (functionsOf entries).dropLast.Nodup
  /-- The last function was met before, or no call can invoke it. -/
  ends : ∀ name, (functionsOf entries).getLast? = some name →
    name ∈ (functionsOf entries).dropLast ∨
      ∀ f ∈ p.functions, ∀ e ∈ f.sites, ∀ c, e.2.call? = some c → ¬Targets e.1 c name
  length_le : entries.length ≤ p.functions.length + 1

namespace Program

variable {p : Program} {g : CallGraph} {f : Function} {site : Site} {i : Instr}
  {Targets : Site → Call → String → Prop}

/-- The walk up a graph of a program comes to an end. -/
theorem exists_climbs (hnames : (p.functions.map Function.name).Nodup) (hg : g.Lists p Targets)
    (function : String) :
    ∃ cs, g.Climbs [] function cs ∧ p.callers g function = cs.map ResolvedCall.place := by
  refine ⟨_, CallGraph.climbs_chain (hnames.erase _) fun c hc ↦ ?_, rfl⟩
  obtain ⟨f, hf, hsite, -⟩ := hg.sound c hc
  have hname : c.site.function ∈ p.functions.map Function.name :=
    List.mem_map.2 ⟨f, hf, (Function.function_of_mem_sites hsite).symm⟩
  rw [hnames.mem_erase_iff, and_iff_left hname, List.mem_singleton]

/-- A function without callers in a graph is no target of any call. -/
theorem not_target_of_callSites_eq_nil (hg : g.Lists p Targets) {name : String}
    (h : g.callSites name = []) :
    ∀ f ∈ p.functions, ∀ e ∈ f.sites, ∀ c, e.2.call? = some c → ¬Targets e.1 c name := by
  intro f hf e he call hcall htarget
  obtain ⟨c, hc, hname⟩ := hg.complete f hf e he call hcall name htarget
  have hcaller := CallGraph.mem_callSites.2 ⟨hc, hname⟩
  rw [h] at hcaller
  exact List.not_mem_nil hcaller

/-- The functions before the last one are different functions of the program. -/
theorem length_le_of_nodup {entries : List (Site × Instr)}
    (hmem : ∀ e ∈ entries, ∃ f ∈ p.functions, e ∈ f.sites)
    (hnodup : (functionsOf entries).dropLast.Nodup) : entries.length ≤ p.functions.length + 1 := by
  have hsub : (functionsOf entries).dropLast ⊆ p.functions.map Function.name := by
    intro name hname
    obtain ⟨e, he, rfl⟩ := List.mem_map.1 (List.dropLast_subset _ hname)
    obtain ⟨f, hf, hsite⟩ := hmem e he
    exact List.mem_map.2 ⟨f, hf, (Function.function_of_mem_sites hsite).symm⟩
  have hle := hnodup.length_le_of_subset hsub
  simp only [functionsOf, List.length_dropLast, List.length_map] at hle
  omega

/-- An instruction of a program and the calls on the way up from it make a backtrace. -/
theorem isBacktrace_of_climbs (hg : g.Lists p Targets) (hf : f ∈ p.functions)
    (hsite : (site, i) ∈ f.sites) {cs : List ResolvedCall} (hup : g.Climbs [] site.function cs) :
    p.IsBacktrace Targets ((site, i) :: cs.map fun c ↦ (c.site, c.instr)) := by
  have hmet : functionsOf ((site, i) :: cs.map fun c ↦ (c.site, c.instr)) =
      CallGraph.met [] site.function cs := by
    simp [functionsOf, CallGraph.met]
  have hmem : ∀ e ∈ (site, i) :: cs.map fun c ↦ (c.site, c.instr),
      ∃ f ∈ p.functions, e ∈ f.sites := by
    intro e he
    rcases List.mem_cons.1 he with rfl | he
    · exact ⟨f, hf, hsite⟩
    · obtain ⟨c, hc, rfl⟩ := List.mem_map.1 he
      obtain ⟨f', hf', hsite', -⟩ := hg.sound c (hup.mem_calls hc)
      exact ⟨f', hf', hsite'⟩
  have hnodup : (CallGraph.met [] site.function cs).dropLast.Nodup :=
    hup.nodup (List.nodup_singleton _)
  refine ⟨hmem, ?_, hmet ▸ hnodup, ?_, length_le_of_nodup hmem (hmet ▸ hnodup)⟩
  · refine (hup.isChain rfl).imp ?_
    rintro e _ ⟨c, hc, rfl, htarget⟩
    obtain ⟨-, -, -, call, hcall, htargets⟩ := hg.sound c hc
    exact ⟨call, hcall, htargets _ htarget⟩
  · intro name hname
    rw [hmet] at hname ⊢
    exact (hup.ends hname).imp id (not_target_of_callSites_eq_nil hg)

/-- **Backtraces are chains of calls.**  In every program, whose calls are resolved in any way, each
report is on a comparison, and the walk up from it ends with a backtrace that starts with the
comparison. -/
theorem backtraces_climb (hnames : (p.functions.map Function.name).Nodup)
    (hlabels : ∀ f ∈ p.functions, f.labels.Nodup) (way : Resolution) :
    (∀ ds, p.diagnoseWith (way.callGraph p) = .ok ds →
      ∀ d ∈ ds, p.Diagnoses (way.callGraph p) d) ∧
    ∀ d, p.Diagnoses (way.callGraph p) d →
      (∃ x c ty a b, d.instr.action = .assign x (.compare c ty a b)) ∧
      ∃ site cs, (way.callGraph p).Climbs [] site.function cs ∧
        p.IsBacktrace (way.Targets p) ((site, d.instr) :: cs.map fun c ↦ (c.site, c.instr)) ∧
        d.backtrace = site.place d.instr :: cs.map fun c ↦ c.site.place c.instr := by
  refine ⟨fun ds hds d hd ↦ diagnoses_of_mem hds hd, fun d hd ↦ ?_⟩
  have hlists := Resolution.lists_callGraph hnames hlabels way
  obtain ⟨f, hf, ⟨label, i⟩, hi, s, t, hrun⟩ := hd
  obtain ⟨hcompare, rfl, hplace, hcallers⟩ := diagnoseInstr_eq_some hrun
  obtain ⟨site, hsite, hfunction, rfl⟩ := Function.exists_site_of_labelled hi
  obtain ⟨cs, hup, hcs⟩ := exists_climbs hnames hlists site.function
  refine ⟨hcompare, site, cs, hup, isBacktrace_of_climbs hlists hf hsite hup, ?_⟩
  rw [Diagnostic.backtrace, hplace, hcallers, ← hfunction, hcs]
  rfl

example (p : Program) : p.diagnose = p.diagnoseWith ((Resolution.resolver []).callGraph p) := rfl

/-! ## A backtrace that comes back -/

open Width (byte)

/-- A function with a comparison calls another one, which calls through a pointer that it is
given. -/
def passing : Program where
  structs := []
  globals := []
  functions :=
    [⟨"f", [⟨"x", .int byte⟩, ⟨"q", .ptr⟩], .i1, false,
      [⟨"entry",
        [⟨.assign "m" (.binary .and (.int byte) (.var "x" (.int byte)) (.literal 1 byte)), 3⟩,
          ⟨.assign "c" (.compare .ult (.int byte) (.var "m" (.int byte)) (.literal 2 byte)), 4⟩,
          ⟨.assign "r" (.call ⟨.i1, .direct "g", [.var "x" (.int byte), .var "q" .ptr]⟩), 5⟩,
          ⟨.finish (.ret .i1 (.var "c" .i1)), 6⟩]⟩]⟩,
      ⟨"g", [⟨"x", .int byte⟩, ⟨"q", .ptr⟩], .i1, false,
        [⟨"entry",
          [⟨.assign "r" (.call ⟨.i1, .indirect "q", [.var "x" (.int byte), .var "q" .ptr]⟩), 10⟩,
            ⟨.finish (.ret .i1 (.var "r" .i1)), 11⟩]⟩]⟩]

/-- The first function is registered for the call through the pointer after its targets, which were
none, have been asked for. -/
def passingWay : Resolution :=
  .resolver [.callees ⟨"g", "entry", 0⟩, .register ⟨"g", "entry", 0⟩ "f"]

/-- The walk comes back to the function that it started from, and ends there. -/
theorem backtraces_climb_passing :
    (passing.functions.map Function.name).Nodup ∧ (∀ f ∈ passing.functions, f.labels.Nodup) ∧
    ∃ d, passing.diagnoseWith (passingWay.callGraph passing) = .ok [d] ∧
      d.backtrace = [⟨"f", "entry", 4⟩, ⟨"g", "entry", 10⟩, ⟨"f", "entry", 5⟩] ∧
      ∃ site cs, (passingWay.callGraph passing).Climbs [] site.function cs ∧
        passing.IsBacktrace (passingWay.Targets passing)
          ((site, d.instr) :: cs.map fun c ↦ (c.site, c.instr)) ∧
        d.backtrace = site.place d.instr :: cs.map fun c ↦ c.site.place c.instr := by
  have hnames : (passing.functions.map Function.name).Nodup := by decide
  have hlabels : ∀ f ∈ passing.functions, f.labels.Nodup := by decide
  obtain ⟨d, hd, hbacktrace⟩ : ∃ d, passing.diagnoseWith (passingWay.callGraph passing) = .ok [d] ∧
      d.backtrace = [⟨"f", "entry", 4⟩, ⟨"g", "entry", 10⟩, ⟨"f", "entry", 5⟩] :=
    ⟨_, rfl, by decide +kernel⟩
  obtain ⟨hreports, hclimb⟩ := backtraces_climb hnames hlabels passingWay
  obtain ⟨-, site, cs, hup, htrace, heq⟩ := hclimb d (hreports _ hd d (List.mem_singleton_self d))
  exact ⟨hnames, hlabels, d, hd, hbacktrace, site, cs, hup, htrace, heq⟩

end Program

end RangeFlow
