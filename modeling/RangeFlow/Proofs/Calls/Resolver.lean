import RangeFlow.Calls.Answers
import RangeFlow.Proofs.Flow.Graph
import RangeFlow.Proofs.Ordered.Map

/-!
# What a call can invoke

A call by name can invoke the function of this name.  A call through a pointer can invoke the
targets registered for it and every function that it fits and whose address is used somewhere: in an
initial value, at any depth, or as an operand that is not the callee of a call (`Program.Invokes`).
Kept answers stay right because a registered target changes the answer for one call only, and that
one is dropped (`Answers.Keeps`).
-/

namespace RangeFlow

/-! ## Addresses that are used -/

/-- A symbol occurs in a constant, at any depth. -/
inductive Constant.Mentions (name : String) : Constant → Prop
  | symbol : Mentions name (.symbol name)
  | struct {c : Constant} {elements : List Constant} (hc : c ∈ elements) (h : Mentions name c) :
    Mentions name (.struct elements)
  | array {c : Constant} {elements : List Constant} (hc : c ∈ elements) (h : Mentions name c) :
    Mentions name (.array elements)

/-- An instruction has an operand that is not the callee of a call. -/
def Instr.PassesOn (i : Instr) (o : Operand) : Prop :=
  ∃ n, i.operands[n]? = some o ∧ (i.call?.isSome = true → n ≠ 0)

/-- A symbol occurs in an initial value, or as an operand that is not the callee of a call. -/
def Program.UsesSymbol (p : Program) (name : String) : Prop :=
  (∃ g ∈ p.globals, ∃ c, g.init = some c ∧ c.Mentions name) ∨
    ∃ f ∈ p.functions, ∃ i ∈ f.instrs, i.PassesOn (.symbol name)

namespace Constant

variable {name : String}

mutual

theorem mentions_of_mem_symbols : (c : Constant) → name ∈ c.symbols → c.Mentions name
  | .int _, h | .zero, h => absurd h List.not_mem_nil
  | .symbol _, h => by
    rw [symbols, List.mem_singleton] at h
    exact h ▸ .symbol
  | .struct elements, h => by
    obtain ⟨c, hc, hmentions⟩ := exists_mentions_of_mem_symbolsIn elements h
    exact .struct hc hmentions
  | .array elements, h => by
    obtain ⟨c, hc, hmentions⟩ := exists_mentions_of_mem_symbolsIn elements h
    exact .array hc hmentions

theorem exists_mentions_of_mem_symbolsIn : (cs : List Constant) → name ∈ symbolsIn cs →
    ∃ c ∈ cs, c.Mentions name
  | [], h => absurd h List.not_mem_nil
  | c :: cs, h => by
    rw [symbolsIn, List.mem_append] at h
    rcases h with h | h
    · exact ⟨c, List.mem_cons_self, mentions_of_mem_symbols c h⟩
    · obtain ⟨d, hd, hmentions⟩ := exists_mentions_of_mem_symbolsIn cs h
      exact ⟨d, List.mem_cons_of_mem c hd, hmentions⟩

end

theorem mem_symbolsIn_of_mem {c : Constant} {cs : List Constant} (hc : c ∈ cs)
    (h : name ∈ c.symbols) : name ∈ symbolsIn cs := by
  induction cs with
  | nil => exact absurd hc List.not_mem_nil
  | cons d cs ih =>
    rw [symbolsIn, List.mem_append]
    rcases List.mem_cons.1 hc with rfl | hc
    · exact .inl h
    · exact .inr (ih hc)

/-- The symbols listed for a constant are those that occur in it. -/
theorem mem_symbols_iff {c : Constant} : name ∈ c.symbols ↔ c.Mentions name := by
  refine ⟨mentions_of_mem_symbols c, fun h ↦ ?_⟩
  induction h with
  | symbol => exact List.mem_singleton_self name
  | struct hc _ ih | array hc _ ih =>
    rw [symbols]
    exact mem_symbolsIn_of_mem hc ih

end Constant

/-- The operands that are passed on are all but the callee of a call. -/
theorem Instr.mem_passedOperands_iff {i : Instr} {o : Operand} :
    o ∈ i.passedOperands ↔ i.PassesOn o := by
  unfold passedOperands PassesOn
  cases hc : i.call? with
  | none => simp [List.mem_iff_getElem?]
  | some c =>
    have hoperands : i.operands = c.callee.operand :: c.args := by
      unfold call? at hc
      split at hc
      · rename_i ha
        cases hc
        rw [operands, ha, Action.operands]
      · rename_i ha
        cases hc
        rw [operands, ha, Action.operands]
      · cases hc
    rw [hoperands, List.mem_iff_getElem?]
    constructor
    · rintro ⟨n, hn⟩
      exact ⟨n + 1, by rwa [List.getElem?_cons_succ], fun _ ↦ Nat.succ_ne_zero n⟩
    · rintro ⟨_ | n, hn, hzero⟩
      · exact absurd rfl (hzero rfl)
      · exact ⟨n, by rwa [List.getElem?_cons_succ] at hn⟩

/-- The symbols listed for a program are those whose address it uses. -/
theorem Program.mem_usedSymbols_iff {p : Program} {name : String} :
    name ∈ p.usedSymbols ↔ p.UsesSymbol name := by
  unfold usedSymbols UsesSymbol
  rw [List.mem_append, List.mem_flatMap, List.mem_flatMap]
  refine or_congr (exists_congr fun g ↦ and_congr_right fun _ ↦ ?_)
    (exists_congr fun f ↦ and_congr_right fun _ ↦ ?_)
  · cases g.init with
    | none => simp
    | some c => simp [Constant.mem_symbols_iff]
  · rw [List.mem_flatMap]
    refine exists_congr fun i ↦ and_congr_right fun _ ↦ ?_
    rw [← Instr.mem_passedOperands_iff, List.mem_filterMap]
    constructor
    · rintro ⟨o, ho, hname⟩
      cases o with
      | symbol n =>
        cases hname
        exact ho
      | var | literal => cases hname
    · exact fun h ↦ ⟨_, h, rfl⟩

/-! ## Signatures that fit -/

/-- The function returns the type of the call, has a parameter type for each argument, or allows
more arguments than parameters, and takes the arguments at their types. -/
structure Function.Fits (f : Function) (c : Call) : Prop where
  returns : f.returns = c.returns
  enough : f.params.length ≤ c.args.length
  more : f.params.length < c.args.length → f.isVararg = true
  types : ∀ (n : Nat) (param : Param) (arg : Operand), f.params[n]? = some param →
    c.args[n]? = some arg → param.ty = arg.ty

/-- The test of a signature decides whether the function fits the call. -/
theorem Function.accepts_iff {f : Function} {c : Call} : f.accepts c = true ↔ f.Fits c := by
  unfold accepts
  simp only [Bool.and_eq_true, Bool.or_eq_true, decide_eq_true_eq, List.all_eq_true]
  constructor
  · rintro ⟨⟨⟨hreturns, henough⟩, hmore⟩, htypes⟩
    refine ⟨hreturns, henough, fun hlt ↦ hmore.resolve_left (by omega), fun n param arg hp ha ↦ ?_⟩
    exact htypes (param, arg) (List.mem_of_getElem? (List.getElem?_zip_eq_some.2 ⟨hp, ha⟩))
  · rintro ⟨hreturns, henough, hmore, htypes⟩
    refine ⟨⟨⟨hreturns, henough⟩, ?_⟩, fun e he ↦ ?_⟩
    · rcases Nat.eq_or_lt_of_le henough with heq | hlt
      · exact .inl heq.symm
      · exact .inr (hmore hlt)
    · obtain ⟨n, hn⟩ := List.mem_iff_getElem?.1 he
      obtain ⟨hp, ha⟩ := List.getElem?_zip_eq_some.1 hn
      exact htypes n e.1 e.2 hp ha

/-! ## Targets of calls -/

/-- The functions that a call can invoke when some targets are registered for it. -/
inductive Program.Invokes (p : Program) (targets : String → Prop) (c : Call) : String → Prop
  | named {name : String} (hc : c.callee = .direct name) (hname : p.hasFunction name = true) :
    Invokes p targets c name
  | registered {x name : String} (hc : c.callee = .indirect x) (hname : targets name) :
    Invokes p targets c name
  | fitting {x name : String} {f : Function} (hc : c.callee = .indirect x)
    (hname : p.UsesSymbol name) (hf : p.function? name = some f) (hfits : f.Fits c) :
    Invokes p targets c name

/-- The targets that are registered for the call at a site. -/
def Resolver.Targets (r : Resolver) (site : Site) (name : String) : Prop :=
  name ∈ (r.registered.get? site).getD ∅

theorem OrderedSet.mem_filter {α : Type} {x : α} {s : OrderedSet α} {q : α → Bool} :
    x ∈ s.filter q ↔ x ∈ s ∧ q x = true :=
  List.mem_filter

section Resolver

variable {p : Program} {r : Resolver} {site site' : Site} {c : Call} {name name' : String}

/-- The functions whose address is taken are the functions among the symbols that are used. -/
theorem Program.mem_addressTaken_iff :
    name ∈ p.addressTaken ↔ p.UsesSymbol name ∧ p.hasFunction name = true := by
  unfold addressTaken OrderedSet.ofList
  rw [OrderedSet.mem_insertAll, List.mem_filter, mem_usedSymbols_iff]
  exact or_iff_right (OrderedSet.notMem_empty name)

/-- A resolver finds the functions that a call can invoke, and no others. -/
theorem Resolver.mem_callees_iff (hp : r.program = p) (ht : r.taken = p.addressTaken) :
    name ∈ r.callees site c ↔ p.Invokes (r.Targets site) c name := by
  subst hp
  unfold callees
  split
  · rename_i n hc
    constructor
    · intro h
      split at h
      · rename_i hn
        obtain rfl := List.mem_singleton.1 h
        exact .named hc hn
      · exact absurd h (OrderedSet.notMem_empty name)
    · rintro (⟨hc', hn⟩ | ⟨hc', -⟩ | ⟨hc', -⟩) <;> rw [hc] at hc' <;> cases hc'
      rw [if_pos hn]
      exact List.mem_singleton_self _
  · rename_i x hc
    have htaken : name ∈ r.taken.filter (fun n ↦ (r.program.function? n).any fun f ↦ f.accepts c) ↔
        r.program.UsesSymbol name ∧ ∃ f, r.program.function? name = some f ∧ f.Fits c := by
      rw [OrderedSet.mem_filter, ht, Program.mem_addressTaken_iff, Option.any_eq_true, and_assoc]
      simp only [Function.accepts_iff]
      refine and_congr_right fun _ ↦ and_iff_right_of_imp ?_
      rintro ⟨f, hf, -⟩
      rw [Program.hasFunction, hf, Option.isSome_some]
    rw [OrderedSet.mem_insertAll, htaken]
    constructor
    · rintro (⟨hused, f, hf, hfits⟩ | htarget)
      · exact .fitting hc hused hf hfits
      · exact .registered hc htarget
    · rintro (⟨hc', -⟩ | ⟨-, htarget⟩ | ⟨-, hused, hf, hfits⟩)
      · rw [hc] at hc'
        cases hc'
      · exact .inr htarget
      · exact .inl ⟨hused, _, hf, hfits⟩

theorem Resolver.get?_register :
    ((r.register site name).registered.get? site') =
      if site' = site then some (((r.registered.get? site).getD ∅).insert name)
      else r.registered.get? site' :=
  OrderedMap.get?_insert _ _ _ _

/-- A target that is registered for one call changes the answer for this call only. -/
theorem Resolver.callees_register_of_ne (h : site' ≠ site) :
    (r.register site name).callees site' c = r.callees site' c := by
  unfold callees
  rw [get?_register, if_neg h]
  rfl

/-- To register a function adds it to the targets of one call. -/
theorem Resolver.targets_register :
    (r.register site name).Targets site' name' ↔
      r.Targets site' name' ∨ (site' = site ∧ name' = name) := by
  unfold Targets
  rw [get?_register]
  split
  · rename_i h
    rw [h, Option.getD_some, OrderedSet.mem_insert, and_iff_right rfl]
  · rename_i h
    exact (or_iff_left fun hs ↦ h hs.1).symm

end Resolver

/-! ## Kept answers -/

namespace Answers

/-- Something that is asked of a resolver, or told to it. -/
inductive Request
  | callees (site : Site)
  | register (site : Site) (function : String)

/-- Serves a request, where the call at each place is given. -/
def serve (calls : Site → Call) (a : Answers) : Request → Answers
  | .callees site => (a.callees site (calls site)).2
  | .register site function => a.register site function

/-- A resolver of a program after some requests. -/
def after (p : Program) (calls : Site → Call) (requests : List Request) : Answers :=
  requests.foldl (serve calls) (.ofProgram p)

/-- After some requests the targets are those that were registered, and every kept answer is what
would be worked out anew. -/
structure Keeps (p : Program) (calls : Site → Call) (requests : List Request) (a : Answers) :
    Prop where
  program : a.resolver.program = p
  taken : a.resolver.taken = p.addressTaken
  targets : ∀ site name, a.resolver.Targets site name ↔ .register site name ∈ requests
  fresh : ∀ site answer, a.kept.get? site = some answer →
    answer = a.resolver.callees site (calls site)

variable {p : Program} {calls : Site → Call} {requests : List Request} {a : Answers}

/-- A kept answer is given again; any other one is worked out and kept. -/
theorem callees_cases (a : Answers) (site : Site) (c : Call) :
    (∃ answer, a.kept.get? site = some answer ∧ a.callees site c = (answer, a)) ∨
    a.callees site c = (a.resolver.callees site c,
      { a with kept := a.kept.insert site (a.resolver.callees site c) }) := by
  unfold callees
  cases a.kept.get? site with
  | none => exact .inr rfl
  | some answer => exact .inl ⟨answer, rfl, rfl⟩

theorem resolver_callees (a : Answers) (site : Site) (c : Call) :
    (a.callees site c).2.resolver = a.resolver := by
  rcases a.callees_cases site c with ⟨answer, -, h⟩ | h <;> rw [h]

/-- A resolver without requests keeps no answers. -/
theorem Keeps.start (p : Program) (calls : Site → Call) : Keeps p calls [] (.ofProgram p) where
  program := rfl
  taken := rfl
  targets site name := iff_of_false (OrderedSet.notMem_empty name) List.not_mem_nil
  fresh := by
    intro site answer h
    cases h

/-- The answer is the one that would be worked out anew. -/
theorem Keeps.callees_eq (h : Keeps p calls requests a) (site : Site) :
    (a.callees site (calls site)).1 = a.resolver.callees site (calls site) := by
  rcases a.callees_cases site (calls site) with ⟨answer, hget, heq⟩ | heq
  · rw [heq]
    exact h.fresh site answer hget
  · rw [heq]

/-- An answer that is kept stays the one that would be worked out. -/
theorem Keeps.callees (h : Keeps p calls requests a) (site : Site) :
    Keeps p calls (requests ++ [.callees site]) (a.callees site (calls site)).2 where
  program := by rw [resolver_callees, h.program]
  taken := by rw [resolver_callees, h.taken]
  targets := by
    intro site' name
    rw [resolver_callees, h.targets]
    simp
  fresh := by
    intro site' answer hget
    rw [resolver_callees]
    rcases a.callees_cases site (calls site) with ⟨_, -, heq⟩ | heq
    · rw [heq] at hget
      exact h.fresh site' answer hget
    · rw [heq, OrderedMap.get?_insert] at hget
      split at hget
      · rename_i hsite
        rw [hsite, ← Option.some.inj hget]
      · exact h.fresh site' answer hget

/-- To register a function gives up the answers that it could change. -/
theorem Keeps.register (h : Keeps p calls requests a) (site : Site) (function : String) :
    Keeps p calls (requests ++ [.register site function]) (a.register site function) where
  program := h.program
  taken := h.taken
  targets := by
    intro site' name
    rw [Answers.register, Resolver.targets_register, h.targets]
    simp
  fresh := by
    intro site' answer hget
    -- The one answer that the target changes is no longer kept.
    rw [Answers.register, OrderedMap.get?_filter, Option.filter_eq_some_iff,
      decide_eq_true_eq] at hget
    rw [Answers.register, Resolver.callees_register_of_ne hget.2]
    exact h.fresh site' answer hget.1

/-- After any requests the kept answers are what would be worked out anew. -/
theorem Keeps.after (p : Program) (calls : Site → Call) (requests : List Request) :
    Keeps p calls requests (after p calls requests) := by
  induction requests using List.reverseRecOn with
  | nil => exact .start p calls
  | append_singleton requests request ih =>
    rw [Answers.after, List.foldl_append, List.foldl_cons, List.foldl_nil, ← Answers.after]
    cases request with
    | callees site => exact ih.callees site
    | register site function => exact ih.register site function

/-- **Completeness.**  After any requests, the answer for a call lists once each function that the
call can invoke when the targets so far are registered for it, and nothing else. -/
theorem callees_complete (p : Program) (calls : Site → Call) (requests : List Request)
    (site : Site) :
    ((after p calls requests).callees site (calls site)).1.toList.Nodup ∧
    ∀ name, name ∈ ((after p calls requests).callees site (calls site)).1 ↔
      p.Invokes (fun target ↦ .register site target ∈ requests) (calls site) name := by
  have hkeeps := Keeps.after p calls requests
  have htargets : (after p calls requests).resolver.Targets site =
      fun target ↦ .register site target ∈ requests :=
    funext fun target ↦ propext (hkeeps.targets site target)
  refine ⟨OrderedSet.nodup _, fun name ↦ ?_⟩
  rw [hkeeps.callees_eq, Resolver.mem_callees_iff hkeeps.program hkeeps.taken, htargets]

end Answers

end RangeFlow
