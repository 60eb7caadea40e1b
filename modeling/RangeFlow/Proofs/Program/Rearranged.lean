import RangeFlow.Calls.Resolver
import RangeFlow.Location
import RangeFlow.Proofs.Program.LoopFree
import RangeFlow.Sweep.Seed

/-!
# Blocks in another order

Blocks are named by labels, so the order in which they are written means nothing to a run of the
function, as long as the entry stays first.  A function whose blocks are permuted has the same
instructions; what is looked up by name is the same, and lists of instructions, sites and symbols
have the same members.
-/

namespace RangeFlow

/-- The first function is the second one with its blocks in another order, the entry apart. -/
structure Function.Rearranges (g f : Function) : Prop where
  name : g.name = f.name
  params : g.params = f.params
  returns : g.returns = f.returns
  isVararg : g.isVararg = f.isVararg
  entry : g.entry? = f.entry?
  blocks : g.blocks.Perm f.blocks

/-- The first program is the second one with the blocks of its functions in another order. -/
structure Program.Rearranges (q p : Program) : Prop where
  structs : q.structs = p.structs
  globals : q.globals = p.globals
  functions : List.Forall₂ Function.Rearranges q.functions p.functions

/-! ## Functions -/

namespace Function.Rearranges

variable {f g : Function} {types : OrderedMap String Ty}

theorem symm (h : g.Rearranges f) : f.Rearranges g :=
  ⟨h.name.symm, h.params.symm, h.returns.symm, h.isVararg.symm, h.entry.symm, h.blocks.symm⟩

theorem instrs (h : g.Rearranges f) : g.instrs.Perm f.instrs := h.blocks.flatMap_right _

theorem labels (h : g.Rearranges f) : g.labels.Perm f.labels := h.blocks.map _

/-- The sites of instructions are permuted, as they do not tell where a block is laid out. -/
theorem sites (h : g.Rearranges f) : g.sites.Perm f.sites := by
  unfold Function.sites
  rw [h.name]
  exact h.blocks.flatMap_right _

theorem paramNames (h : g.Rearranges f) : g.paramNames = f.paramNames := by
  rw [Function.paramNames, h.params, Function.paramNames]

theorem paramIndex? (h : g.Rearranges f) (x : String) : g.paramIndex? x = f.paramIndex? x := by
  rw [Function.paramIndex?, h.params, Function.paramIndex?]

theorem isDeclaration (h : g.Rearranges f) : g.isDeclaration = f.isDeclaration :=
  h.blocks.isEmpty_eq

theorem isIntrinsic (h : g.Rearranges f) : g.isIntrinsic = f.isIntrinsic := by
  rw [Function.isIntrinsic, h.name, Function.isIntrinsic]

theorem accepts (h : g.Rearranges f) (c : Call) : g.accepts c = f.accepts c := by
  unfold Function.accepts
  rw [h.returns, h.params, h.isVararg]

theorem hasBlock (h : g.Rearranges f) (l : String) : g.hasBlock l = f.hasBlock l := by
  unfold Function.hasBlock Function.block?
  rw [Bool.eq_iff_iff, List.find?_isSome, List.find?_isSome]
  exact exists_congr fun b ↦ and_congr_left fun _ ↦ h.blocks.mem_iff

/-- A variable is defined and read as before. -/
theorem typing (h : g.Rearranges f) (ht : Typing f types) : Typing g types where
  param x hx := ht.param x (h.paramNames ▸ hx)
  result i hi := ht.result i (h.instrs.mem_iff.1 hi)
  operand i hi := ht.operand i (h.instrs.mem_iff.1 hi)
  fresh i hi x hx := by
    rw [h.paramNames]
    exact ht.fresh i (h.instrs.mem_iff.1 hi) x hx
  once := (h.instrs.filterMap _).nodup_iff.2 ht.once

end Function.Rearranges

/-- The definition of a variable is what an instruction assigns to it. -/
theorem Typing.definition?_eq_some {f : Function} {types : OrderedMap String Ty}
    (h : Typing f types) {x : String} {v : Value} :
    f.definition? x = some v ↔ ∃ i ∈ f.instrs, i.action = .assign x v := by
  constructor
  · exact Sweep.mem_instrs_of_definition?
  · rintro ⟨i, hi, ha⟩
    exact h.definition?_of_assign hi ha

/-- Variables have the same definitions, as each has only one. -/
theorem Function.Rearranges.definition? {f g : Function} {types : OrderedMap String Ty}
    (h : g.Rearranges f) (ht : Typing f types) (x : String) :
    g.definition? x = f.definition? x := by
  refine Option.ext fun v ↦ ?_
  rw [(h.typing ht).definition?_eq_some, ht.definition?_eq_some]
  exact exists_congr fun i ↦ and_congr_left fun _ ↦ h.instrs.mem_iff

/-! ## Initial values -/

section Leaves

variable {p q : Program}

theorem Program.fields?_congr (h : q.structs = p.structs) (t : Ty) : q.fields? t = p.fields? t := by
  cases t <;> simp [fields?, h]

/-- The walk along the zero of a type looks at the structs only. -/
theorem Program.zeroLeaves_congr (h : q.structs = p.structs) (unseen : List String)
    (l : Option Location) (t : Ty) : q.zeroLeaves unseen l t = p.zeroLeaves unseen l t := by
  refine zeroLeaves.induct p (fun unseen l t ↦ q.zeroLeaves unseen l t = p.zeroLeaves unseen l t)
    (fun unseen struct index fields ↦ q.zeroFieldLeaves unseen struct index fields =
      p.zeroFieldLeaves unseen struct index fields)
    ?int ?array ?literal ?undefined ?named ?entered ?ptr ?void ?nil ?cons unseen l t
  case int | ptr | void =>
    intros
    rw [zeroLeaves, zeroLeaves]
  case array =>
    intro unseen l count element ih
    rw [zeroLeaves, zeroLeaves, ih]
  case literal =>
    intro unseen l fields ih
    rw [zeroLeaves, zeroLeaves, ih]
  case undefined =>
    intro unseen l name hnone
    rw [zeroLeaves, zeroLeaves, fields?_congr h, hnone]
  case named =>
    intro unseen l name fields hfields hunseen ih
    rw [zeroLeaves, zeroLeaves, fields?_congr h, hfields]
    dsimp only
    rw [if_pos hunseen, if_pos hunseen, ih]
  case entered =>
    intro unseen l name fields hfields hunseen
    rw [zeroLeaves, zeroLeaves, fields?_congr h, hfields]
    dsimp only
    rw [if_neg hunseen, if_neg hunseen]
  case nil =>
    intros
    rw [zeroFieldLeaves, zeroFieldLeaves]
  case cons =>
    intro unseen struct index t ts ih ihs
    rw [zeroFieldLeaves, zeroFieldLeaves, ih, ihs]

mutual

/-- The leaves of a constant depend on the structs of the program only. -/
theorem Program.constantLeaves_congr (h : q.structs = p.structs) (l : Option Location) (t : Ty) :
    (c : Constant) → q.constantLeaves l t c = p.constantLeaves l t c
  | .int _ => by cases t <;> rfl
  | .symbol _ => rfl
  | .zero => by rw [constantLeaves, constantLeaves, h, zeroLeaves_congr h]
  | .struct elements => by
    rw [constantLeaves, constantLeaves, fields?_congr h]
    cases p.fields? t with
    | none => rfl
    | some fields => exact fieldLeaves_congr h t 0 fields elements
  | .array elements => by
    cases t with
    | array count element => exact elementLeaves_congr h l element elements
    | int | ptr | void | named | literal => rfl

theorem Program.fieldLeaves_congr (h : q.structs = p.structs) (struct : Ty) (index : Nat) :
    (ts : List Ty) → (cs : List Constant) →
      q.fieldLeaves struct index ts cs = p.fieldLeaves struct index ts cs
  | [], [] | [], _ :: _ | _ :: _, [] => rfl
  | t :: ts, c :: cs => by
    rw [fieldLeaves, fieldLeaves, constantLeaves_congr h _ t c,
      fieldLeaves_congr h struct (index + 1) ts cs]

theorem Program.elementLeaves_congr (h : q.structs = p.structs) (l : Option Location) (t : Ty) :
    (cs : List Constant) → q.elementLeaves l t cs = p.elementLeaves l t cs
  | [] => rfl
  | c :: cs => by
    rw [elementLeaves, elementLeaves, constantLeaves_congr h l t c, elementLeaves_congr h l t cs]

end

end Leaves

/-! ## Programs -/

namespace Program.Rearranges

variable {p q : Program} {f g : Function} {types : OrderedMap String Ty}

theorem symm (h : q.Rearranges p) : p.Rearranges q := by
  refine ⟨h.structs.symm, h.globals.symm, ?_⟩
  exact (List.Forall₂.flip h.functions).imp fun _ _ ↦ Function.Rearranges.symm

/-- Every function is one of the other program, rearranged. -/
theorem exists_of_mem (h : q.Rearranges p) (hg : g ∈ q.functions) :
    ∃ f ∈ p.functions, g.Rearranges f := by
  have hall := h.functions
  generalize q.functions = gs at hall hg
  generalize p.functions = fs at hall ⊢
  induction hall with
  | nil => cases hg
  | cons hgf _ ih =>
    rcases List.mem_cons.1 hg with rfl | hg
    · exact ⟨_, List.mem_cons_self, hgf⟩
    · obtain ⟨f, hf, hgf⟩ := ih hg
      exact ⟨f, List.mem_cons_of_mem _ hf, hgf⟩

/-- A function is found by its name as that of the other program, rearranged. -/
theorem exists_function? (h : q.Rearranges p) {name : String} (hg : q.function? name = some g) :
    ∃ f, p.function? name = some f ∧ g.Rearranges f := by
  unfold Program.function? at hg ⊢
  have hall := h.functions
  generalize q.functions = gs at hall hg
  generalize p.functions = fs at hall ⊢
  induction hall with
  | nil => cases hg
  | @cons g' f' gs fs hgf _ ih =>
    rw [List.find?_cons] at hg ⊢
    rw [← hgf.name]
    cases hname : g'.name == name with
    | true =>
      rw [hname] at hg
      cases hg
      exact ⟨f', rfl, hgf⟩
    | false =>
      rw [hname] at hg
      exact ih hg

theorem names (h : q.Rearranges p) :
    q.functions.map Function.name = p.functions.map Function.name := by
  have hall := h.functions
  generalize q.functions = gs at hall ⊢
  generalize p.functions = fs at hall ⊢
  induction hall with
  | nil => rfl
  | cons hgf _ ih => rw [List.map_cons, List.map_cons, hgf.name, ih]

theorem hasFunction (h : q.Rearranges p) (name : String) :
    q.hasFunction name = p.hasFunction name := by
  have hle {p q : Program} (h : q.Rearranges p) (hq : q.hasFunction name = true) :
      p.hasFunction name = true := by
    obtain ⟨g, hg⟩ := Option.isSome_iff_exists.1 hq
    obtain ⟨f, hf, -⟩ := h.exists_function? hg
    exact Option.isSome_iff_exists.2 ⟨f, hf⟩
  exact Bool.eq_iff_iff.2 ⟨hle h, hle h.symm⟩

theorem global? (h : q.Rearranges p) (name : String) : q.global? name = p.global? name := by
  rw [Program.global?, h.globals, Program.global?]

theorem leaves (h : q.Rearranges p) : q.leaves = p.leaves := by
  unfold Program.leaves
  rw [h.globals]
  refine List.flatMap_congr fun g _ ↦ ?_
  unfold Program.globalLeaves
  split
  · rfl
  · cases g.init with
    | none => rfl
    | some c => exact constantLeaves_congr h.structs _ _ c

/-! ## Locations -/

theorem followAddress (h : q.Rearranges p) (hgf : g.Rearranges f) (ht : Typing f types) (n : Nat)
    (o : Operand) : q.followAddress g n o = p.followAddress f n o := by
  induction n generalizing o with
  | zero => rfl
  | succ n ih =>
    cases o with
    | symbol name => simp only [Program.followAddress, h.global? name]
    | literal v w => rfl
    | var x t =>
      simp only [Program.followAddress, hgf.definition? ht x]
      split
      · rfl
      · exact ih _
      · exact ih _
      · rfl

/-- Addresses point to the same locations. -/
theorem memoryLocation (h : q.Rearranges p) (hgf : g.Rearranges f) (ht : Typing f types)
    (o : Operand) : q.memoryLocation g o = p.memoryLocation f o := by
  rw [Program.memoryLocation, Program.memoryLocation, hgf.instrs.length_eq,
    h.followAddress hgf ht]

theorem valueLocation (h : q.Rearranges p) (hgf : g.Rearranges f) (ht : Typing f types)
    (o : Operand) : q.valueLocation g o = p.valueLocation f o := by
  unfold Program.valueLocation
  cases o with
  | symbol | literal => rfl
  | var x t =>
    dsimp only
    rw [hgf.paramIndex?, hgf.definition? ht, hgf.name]
    split
    · rfl
    · split
      · exact h.memoryLocation hgf ht _
      · rfl
      · rfl

/-! ## Calls -/

theorem mem_usedSymbols (h : q.Rearranges p) {name : String} :
    name ∈ q.usedSymbols → name ∈ p.usedSymbols := by
  unfold Program.usedSymbols
  rw [h.globals, List.mem_append, List.mem_append]
  refine Or.imp_right fun hmem ↦ ?_
  obtain ⟨g, hg, hmem⟩ := List.mem_flatMap.1 hmem
  obtain ⟨i, hi, hname⟩ := List.mem_flatMap.1 hmem
  obtain ⟨f, hf, hgf⟩ := h.exists_of_mem hg
  exact List.mem_flatMap.2 ⟨f, hf, List.mem_flatMap.2 ⟨i, hgf.instrs.mem_iff.1 hi, hname⟩⟩

theorem mem_addressTaken (h : q.Rearranges p) {name : String} (hmem : name ∈ q.addressTaken) :
    name ∈ p.addressTaken := by
  unfold Program.addressTaken OrderedSet.ofList at hmem ⊢
  rw [OrderedSet.mem_insertAll, List.mem_filter] at hmem ⊢
  rcases hmem with hmem | ⟨hmem, hname⟩
  · exact absurd hmem (OrderedSet.notMem_empty name)
  · exact .inr ⟨h.mem_usedSymbols hmem, by rw [← h.hasFunction]; exact hname⟩

/-- A call can invoke the same functions. -/
theorem mem_callees (h : q.Rearranges p) {site : Site} {c : Call} {name : String}
    (hmem : name ∈ (Resolver.ofProgram q).callees site c) :
    name ∈ (Resolver.ofProgram p).callees site c := by
  unfold Resolver.callees Resolver.ofProgram at hmem ⊢
  cases hc : c.callee with
  | direct callee =>
    simp only [hc, h.hasFunction] at hmem ⊢
    exact hmem
  | indirect pointer =>
    simp only [hc, OrderedSet.mem_insertAll] at hmem ⊢
    refine hmem.imp_left fun hmem ↦ ?_
    obtain ⟨htaken, hfits⟩ := List.mem_filter.1 hmem
    refine List.mem_filter.2 ⟨h.mem_addressTaken htaken, ?_⟩
    obtain ⟨g, hg, haccepts⟩ := (Option.any_eq_true _ _).1 hfits
    obtain ⟨f, hf, hgf⟩ := h.exists_function? hg
    exact (Option.any_eq_true _ _).2 ⟨f, hf, by rw [← hgf.accepts]; exact haccepts⟩

end Program.Rearranges

end RangeFlow
