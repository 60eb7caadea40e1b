import Mathlib.Data.Finset.Card
import Mathlib.Data.Fintype.Basic
import Mathlib.Logic.Relation
import RangeFlow.Proofs.Sweep.Composed
import RangeFlow.Sweep.Seed

/-!
# Addresses and types that come to an end

An address made by indexing or by a cast leads to another address, and a type with parts to the
types of its parts.  Nothing keeps either from leading back to itself.  The searches along them are
cut off where they go in circles: a chain of addresses is cut off exactly if it has no end, and so
is the walk along the zero of a type.
-/

namespace RangeFlow

/-! ## Addresses -/

namespace Function

/-- The address that a variable is made from by indexing or by a cast. -/
def passedOn? (f : Function) (x : String) : Option Operand :=
  match f.definition? x with
  | some (.elem _ address _) | some (.cast .bitcast _ address _) => some address
  | _ => none

/-- The address some steps along a chain. -/
def along (f : Function) : Nat → Operand → Option Operand
  | 0, o => some o
  | n + 1, o => (o.var?.bind f.passedOn?).bind (f.along n)

/-- The chain of addresses from an operand comes to an end. -/
def Ends (f : Function) (o : Operand) : Prop := ∃ n, f.along n o = none

variable {f : Function} {o : Operand} {m n : Nat}

theorem along_add : f.along (m + n) o = (f.along m o).bind (f.along n) := by
  induction m generalizing o with
  | zero => rw [Nat.zero_add, along, Option.bind_some]
  | succ m ih =>
    rw [Nat.succ_add, along, along]
    cases o.var?.bind f.passedOn? with
    | none => rfl
    | some o' => exact ih

/-- The next address depends on the name of the variable only. -/
theorem along_congr {o' : Operand} (h : o.var? = o'.var?) (hn : n ≠ 0) :
    f.along n o = f.along n o' := by
  obtain ⟨k, rfl⟩ := Nat.exists_eq_succ_of_ne_zero hn
  rw [along, along, h]

theorem along_eq_none_mono (h : f.along m o = none) (hmn : m ≤ n) : f.along n o = none := by
  obtain ⟨k, rfl⟩ := Nat.exists_eq_add_of_le hmn
  rw [along_add, h, Option.bind_none]

/-- Only results of instructions pass an address on. -/
theorem mem_results_of_passedOn? {x : String} {a : Operand} (h : f.passedOn? x = some a) :
    x ∈ f.instrs.filterMap Instr.result? := by
  unfold passedOn? at h
  cases hdef : f.definition? x with
  | none => simp [hdef] at h
  | some v =>
    obtain ⟨i, hi, ha⟩ := Sweep.mem_instrs_of_definition? hdef
    exact List.mem_filterMap.2 ⟨i, hi, by simp [Instr.result?, ha]⟩

/-- The variables that a chain passes are assigned in the function. -/
theorem exists_var_of_along (h : (f.along (n + 1) o).isSome = true) :
    ∃ o' x, f.along n o = some o' ∧ o'.var? = some x ∧ x ∈ f.instrs.filterMap Instr.result? := by
  rw [along_add] at h
  cases ho : f.along n o with
  | none => simp [ho] at h
  | some o' =>
    simp only [ho, Option.bind_some, along] at h
    cases hx : o'.var? with
    | none => simp [hx] at h
    | some x =>
      cases ha : f.passedOn? x with
      | none => simp [hx, ha] at h
      | some a => exact ⟨o', x, rfl, hx, mem_results_of_passedOn? ha⟩

/-- A chain that ends does so after no more steps than the function has instructions: a variable
that is passed twice would be passed again and again. -/
theorem Ends.along_eq_none (h : f.Ends o) : f.along (f.instrs.length + 1) o = none := by
  classical
  obtain ⟨hend, hleast⟩ := Nat.find_spec h, fun k (hk : k < Nat.find h) ↦ Nat.find_min h hk
  by_contra hsome
  have hlong : f.instrs.length + 1 < Nat.find h := by
    by_contra hle
    exact hsome (along_eq_none_mono hend (by omega))
  let results := (f.instrs.filterMap Instr.result?).toFinset
  have hcard : results.card < (Finset.range (f.instrs.length + 1)).card := by
    rw [Finset.card_range]
    exact Nat.lt_succ_of_le ((List.toFinset_card_le _).trans (List.length_filterMap_le _ _))
  have hpass (k : Nat) (hk : k ∈ Finset.range (f.instrs.length + 1)) :
      ∃ x ∈ results, (f.along k o).bind Operand.var? = some x := by
    rw [Finset.mem_range] at hk
    have hk' : (f.along (k + 1) o).isSome = true :=
      Option.isSome_iff_ne_none.2 (hleast (k + 1) (by omega))
    obtain ⟨o', x, ho', hx, hmem⟩ := exists_var_of_along hk'
    exact ⟨x, List.mem_toFinset.2 hmem, by rw [ho', Option.bind_some, hx]⟩
  choose! x hx hvar using hpass
  obtain ⟨i, hi, j, hj, hne, heq⟩ :=
    Finset.exists_ne_map_eq_of_card_lt_of_maps_to hcard fun k hk ↦ hx k hk
  wlog hij : i < j generalizing i j
  · exact this j hj i hi hne.symm heq.symm (by omega)
  obtain ⟨oi, hoi, hvi⟩ := Option.bind_eq_some_iff.1 (hvar i hi)
  obtain ⟨oj, hoj, hvj⟩ := Option.bind_eq_some_iff.1 (hvar j hj)
  rw [Finset.mem_range] at hi hj
  have hend' : f.along (Nat.find h - j) oj = none := by
    have hsplit : Nat.find h = j + (Nat.find h - j) := by omega
    rw [hsplit, along_add, hoj, Option.bind_some] at hend
    exact hend
  have hshort : f.along (i + (Nat.find h - j)) o = none := by
    rw [along_add, hoi, Option.bind_some, along_congr (hvi.trans (heq ▸ hvj.symm)) (by omega)]
    exact hend'
  exact hleast _ (by omega) hshort

end Function

namespace Program

variable {p : Program} {f : Function} {o : Operand}

/-- The search along an address is cut off while the chain goes on, and else finds a location whose
id can be written, or none. -/
theorem followAddress_cases (p : Program) (f : Function) (n : Nat) (o : Operand) :
    (p.followAddress f n o = .error .endless ∧ f.along n o ≠ none) ∨
    (f.along n o = none ∧ ((∃ l, p.followAddress f n o = .ok l) ∨
      (p.followAddress f n o = .error .unwritable ∧ ∃ i ∈ f.instrs, ∃ x t a index,
        i.action = .assign x (.field t a index) ∧ Text.isWritable index = false))) := by
  induction n generalizing o with
  | zero => exact .inl ⟨rfl, Option.some_ne_none o⟩
  | succ n ih =>
    cases o with
    | symbol name => exact .inr ⟨rfl, .inl ⟨_, rfl⟩⟩
    | literal v w => exact .inr ⟨rfl, .inl ⟨_, rfl⟩⟩
    | var x t =>
      have hpass : f.along (n + 1) (.var x t) = (f.passedOn? x).bind (f.along n) := rfl
      rw [hpass]
      rw [followAddress]
      unfold Function.passedOn?
      cases hdef : f.definition? x with
      | none => exact .inr ⟨rfl, .inl ⟨_, rfl⟩⟩
      | some v =>
        cases v with
        | field s a index =>
          refine .inr ⟨rfl, ?_⟩
          dsimp only
          cases s.fieldLocation? index with
          | none => exact .inl ⟨_, rfl⟩
          | some l =>
            dsimp only
            cases hw : Text.isWritable index with
            | true => exact .inl ⟨_, rfl⟩
            | false =>
              obtain ⟨i, hi, ha⟩ := Sweep.mem_instrs_of_definition? hdef
              exact .inr ⟨rfl, i, hi, x, s, a, index, ha, hw⟩
        | elem s a j => exact ih a
        | cast op s a t' =>
          cases op with
          | bitcast => exact ih a
          | trunc | zext | sext | ptrtoint | inttoptr => exact .inr ⟨rfl, .inl ⟨_, rfl⟩⟩
        | binary | compare | select | phi | load | alloca | call =>
          exact .inr ⟨rfl, .inl ⟨_, rfl⟩⟩

/-- A location, or none, is found only if the chain of addresses comes to an end. -/
theorem ends_of_memoryLocation {l : Option Location} (h : p.memoryLocation f o = .ok l) :
    f.Ends o := by
  unfold memoryLocation at h
  rcases p.followAddress_cases f (f.instrs.length + 1) o with ⟨herr, -⟩ | ⟨hend, -⟩
  · rw [herr] at h
    cases h
  · exact ⟨_, hend⟩

/-- If the chain of addresses comes to an end, and the numbers of fields can be written, then it is
found where it leads. -/
theorem exists_memoryLocation (h : f.Ends o)
    (hfields : ∀ i ∈ f.instrs, ∀ x t a index, i.action = .assign x (.field t a index) →
      Text.isWritable index = true) : ∃ l, p.memoryLocation f o = .ok l := by
  rcases p.followAddress_cases f (f.instrs.length + 1) o with
    ⟨-, hgoes⟩ | ⟨-, hok | ⟨-, i, hi, x, t, a, index, ha, hw⟩⟩
  · exact absurd h.along_eq_none hgoes
  · exact hok
  · rw [hfields i hi x t a index ha] at hw
    cases hw

/-! ## Zeros of types -/

/-- A type is a part of another: an element, or a field. -/
inductive Part (p : Program) : Ty → Ty → Prop
  | element {count : Int} {t : Ty} : Part p t (.array count t)
  | field {fields : List Ty} {t : Ty} (ht : t ∈ fields) : Part p t (.literal fields)
  | body {name : String} {fields : List Ty} {t : Ty} (h : p.fields? (.named name) = some fields)
    (ht : t ∈ fields) : Part p t (.named name)

/-- The struct types that were entered all have the type in question as a part of a part. -/
def Entered (p : Program) (unseen : List String) (t : Ty) : Prop :=
  ∀ name, p.fields? (.named name) ≠ none → name ∉ unseen →
    Relation.TransGen p.Part t (.named name)

/-- What has been entered has the parts of the type as parts too. -/
theorem Entered.part {unseen : List String} {s t : Ty} (h : p.Entered unseen t)
    (hs : p.Part s t) : p.Entered unseen s :=
  fun name hname hunseen ↦ .head hs (h name hname hunseen)

/-- Going into a struct type keeps this true of its fields. -/
theorem Entered.body {unseen : List String} {name : String} {fields : List Ty} {t : Ty}
    (h : p.Entered unseen (.named name)) (hfields : p.fields? (.named name) = some fields)
    (ht : t ∈ fields) : p.Entered (unseen.erase name) t := by
  intro name' hname' hunseen
  by_cases heq : name' = name
  · subst heq
    exact .single (.body hfields ht)
  · exact .head (.body hfields ht) (h name' hname' fun hmem ↦
      hunseen ((List.mem_erase_of_ne heq).2 hmem))

/-- A type whose parts come to an end is no part of itself. -/
theorem not_transGen_of_acc {t : Ty} (h : Acc p.Part t) : ¬Relation.TransGen p.Part t t := by
  intro hcycle
  have hacc := h.transGen
  clear h
  induction hacc with
  | intro t _ ih => exact ih t hcycle hcycle

/-- If the walk along the zero of a type is not cut off, the parts of the type come to an end. -/
theorem acc_of_zeroLeaves {unseen : List String} {l : Option Location} {t : Ty}
    (h : .error .endless ∉ p.zeroLeaves unseen l t) : Acc p.Part t := by
  refine zeroLeaves.induct p
    (fun unseen l t ↦ .error .endless ∉ p.zeroLeaves unseen l t → Acc p.Part t)
    (fun unseen struct index fields ↦
      .error .endless ∉ p.zeroFieldLeaves unseen struct index fields → ∀ t ∈ fields, Acc p.Part t)
    ?int ?array ?literal ?undefined ?named ?entered ?ptr ?void ?nil ?cons unseen l t h
  case int | ptr | void =>
    intros
    constructor
    intro s hs
    cases hs
  case array =>
    intro unseen l count element ih h
    rw [zeroLeaves] at h
    constructor
    intro s hs
    cases hs
    exact ih h
  case literal =>
    intro unseen l fields ih h
    rw [zeroLeaves] at h
    constructor
    intro s hs
    cases hs with
    | field ht => exact ih h s ht
  case undefined =>
    intro unseen l name hnone h
    constructor
    intro s hs
    cases hs with
    | body hfields ht =>
      rw [hnone] at hfields
      cases hfields
  case named =>
    intro unseen l name fields hfields hunseen ih h
    rw [zeroLeaves, hfields] at h
    dsimp only at h
    rw [if_pos hunseen] at h
    constructor
    intro s hs
    cases hs with
    | body hfields' ht =>
      rw [hfields] at hfields'
      cases hfields'
      exact ih h s ht
  case entered =>
    intro unseen l name fields hfields hunseen h
    rw [zeroLeaves, hfields] at h
    dsimp only at h
    rw [if_neg hunseen] at h
    exact absurd (List.mem_singleton_self _) h
  case nil =>
    intro unseen struct index h t ht
    exact absurd ht List.not_mem_nil
  case cons =>
    intro unseen struct index t ts ih ihs h s hs
    rw [zeroFieldLeaves, List.mem_append, not_or] at h
    rcases List.mem_cons.1 hs with rfl | hs
    · exact ih h.1
    · exact ihs h.2 s hs

/-- A leaf of the zeros of fields is one of the zero of some field. -/
theorem exists_of_mem_zeroFieldLeaves {unseen : List String} {struct : Ty} {index : Nat}
    {fields : List Ty} {x : Except Fault Leaf}
    (h : x ∈ p.zeroFieldLeaves unseen struct index fields) :
    ∃ t ∈ fields, ∃ l, x ∈ p.zeroLeaves unseen l t := by
  induction fields generalizing index with
  | nil =>
    rw [zeroFieldLeaves] at h
    exact absurd h List.not_mem_nil
  | cons t ts ih =>
    rw [zeroFieldLeaves, List.mem_append] at h
    rcases h with h | h
    · exact ⟨t, List.mem_cons_self, _, h⟩
    · obtain ⟨s, hs, l, hl⟩ := ih h
      exact ⟨s, List.mem_cons_of_mem t hs, l, hl⟩

/-- If the parts of a type come to an end, the walk along its zero meets integers only, and those
are parts of parts of the type. -/
theorem exists_int_of_mem_zeroLeaves {unseen : List String} {l : Option Location} {t : Ty}
    {x : Except Fault Leaf} (h : Acc p.Part t) (he : p.Entered unseen t)
    (hx : x ∈ p.zeroLeaves unseen l t) :
    ∃ w, Relation.ReflTransGen p.Part (.int w) t ∧ ∃ l', x ∈ Leaf.ofInt l' w 0 := by
  induction h generalizing unseen l with
  | intro t hacc ih =>
    cases t with
    | int w =>
      rw [zeroLeaves] at hx
      exact ⟨w, .refl, l, hx⟩
    | array count element =>
      rw [zeroLeaves] at hx
      obtain ⟨w, hw, hint⟩ := ih element .element (he.part .element) hx
      exact ⟨w, .tail hw .element, hint⟩
    | literal fields =>
      rw [zeroLeaves] at hx
      obtain ⟨s, hs, l', hx⟩ := exists_of_mem_zeroFieldLeaves hx
      obtain ⟨w, hw, hint⟩ := ih s (.field hs) (he.part (.field hs)) hx
      exact ⟨w, .tail hw (.field hs), hint⟩
    | named name =>
      rw [zeroLeaves] at hx
      cases hfields : p.fields? (.named name) with
      | none =>
        rw [hfields] at hx
        exact absurd hx List.not_mem_nil
      | some fields =>
        rw [hfields] at hx
        dsimp only at hx
        split at hx
        · obtain ⟨s, hs, l', hx⟩ := exists_of_mem_zeroFieldLeaves hx
          obtain ⟨w, hw, hint⟩ := ih s (.body hfields hs) (he.body hfields hs) hx
          exact ⟨w, .tail hw (.body hfields hs), hint⟩
        · rename_i hunseen
          have hcycle := he name (by simp [hfields]) hunseen
          exact absurd hcycle (not_transGen_of_acc ⟨_, hacc⟩)
    | ptr | void =>
      rw [zeroLeaves] at hx
      exact absurd hx List.not_mem_nil

/-- Before any struct type is entered there is nothing to ask. -/
theorem entered_all (t : Ty) : p.Entered (p.structs.map StructDecl.name) t := by
  intro name hname hunseen
  cases hfind : p.structs.find? fun s ↦ s.name == name with
  | none => simp [fields?, hfind] at hname
  | some s =>
    have hs : s.name = name := by simpa using List.find?_some hfind
    exact absurd (List.mem_map.2 ⟨s, List.mem_of_find?_eq_some hfind, hs⟩) hunseen

/-! ## Initial values -/

/-- A constant, walked along a type, has a zero at a type. -/
inductive HasZero (p : Program) : Ty → Constant → Ty → Prop
  | zero {t : Ty} : HasZero p t .zero t
  | field {t s u : Ty} {fields : List Ty} {c : Constant} {elements : List Constant}
    (hfields : p.fields? t = some fields) (hc : (s, c) ∈ fields.zip elements)
    (h : HasZero p s c u) : HasZero p t (.struct elements) u
  | element {count : Int} {t u : Ty} {c : Constant} {elements : List Constant} (hc : c ∈ elements)
    (h : HasZero p t c u) : HasZero p (.array count t) (.array elements) u

/-- The leaves of a struct are those of its elements, each walked along the type of its field. -/
theorem mem_fieldLeaves_iff {struct : Ty} {index : Nat} {fields : List Ty}
    {elements : List Constant} {x : Except Fault Leaf} :
    x ∈ p.fieldLeaves struct index fields elements ↔ ∃ n t c,
      (fields.zip elements)[n]? = some (t, c) ∧
        x ∈ p.constantLeaves (struct.fieldLocation? ((index + n : Nat) : Int)) t c := by
  induction fields generalizing index elements with
  | nil => simp [fieldLeaves]
  | cons s ts ih =>
    cases elements with
    | nil => simp [fieldLeaves]
    | cons d cs =>
      rw [fieldLeaves, List.mem_append, ih]
      constructor
      · rintro (h | ⟨n, t, c, hn, h⟩)
        · exact ⟨0, s, d, rfl, h⟩
        · exact ⟨n + 1, t, c, hn, by rwa [show index + (n + 1) = index + 1 + n by omega]⟩
      · rintro ⟨_ | n, t, c, hn, h⟩
        · cases hn
          exact .inl h
        · exact .inr ⟨n, t, c, hn, by rwa [show index + 1 + n = index + (n + 1) by omega]⟩

/-- The leaves of an array are those of its elements. -/
theorem mem_elementLeaves_iff {l : Option Location} {t : Ty} {elements : List Constant}
    {x : Except Fault Leaf} :
    x ∈ p.elementLeaves l t elements ↔ ∃ c ∈ elements, x ∈ p.constantLeaves l t c := by
  induction elements with
  | nil => simp [elementLeaves]
  | cons c cs ih =>
    rw [elementLeaves, List.mem_append, ih]
    simp

/-- A zero within a constant is walked along. -/
theorem HasZero.zeroLeaves_subset {t u : Ty} {c : Constant} (h : p.HasZero t c u)
    (l : Option Location) : ∃ l', p.zeroLeaves (p.structs.map StructDecl.name) l' u ⊆
      p.constantLeaves l t c := by
  induction h generalizing l with
  | zero => exact ⟨l, by rw [constantLeaves]; exact List.Subset.refl _⟩
  | @field t s u fields c elements hfields hc _ ih =>
    obtain ⟨n, hn⟩ := List.mem_iff_getElem?.1 hc
    obtain ⟨l', hl'⟩ := ih (t.fieldLocation? ((0 + n : Nat) : Int))
    refine ⟨l', fun x hx ↦ ?_⟩
    rw [constantLeaves, hfields]
    exact mem_fieldLeaves_iff.2 ⟨n, s, c, hn, hl' hx⟩
  | element hc _ ih =>
    obtain ⟨l', hl'⟩ := ih l
    refine ⟨l', fun x hx ↦ ?_⟩
    rw [constantLeaves]
    exact mem_elementLeaves_iff.2 ⟨_, hc, hl' hx⟩

theorem part_of_fields? {t s : Ty} {fields : List Ty} (h : p.fields? t = some fields)
    (hs : s ∈ fields) : p.Part s t := by
  cases t with
  | literal fs =>
    cases h
    exact .field hs
  | named name => exact .body h hs
  | int | ptr | void | array => cases h

/-- If every zero within a constant comes to an end, the walk along the constant meets integers
only, and those are parts of parts of its type. -/
theorem exists_int_of_mem_constantLeaves {l : Option Location} {t : Ty} {c : Constant}
    {x : Except Fault Leaf} (h : ∀ u, p.HasZero t c u → Acc p.Part u)
    (hx : x ∈ p.constantLeaves l t c) : ∃ w, Relation.ReflTransGen p.Part (.int w) t ∧
      ∃ l' v, x ∈ Leaf.ofInt l' w v ∨ x ∈ Leaf.ofWritten l' w v := by
  match c with
  | .int v =>
    cases t with
    | int w => exact ⟨w, .refl, l, v, .inr hx⟩
    | ptr | void | array | named | literal => exact absurd hx List.not_mem_nil
  | .symbol name => exact absurd hx List.not_mem_nil
  | .zero =>
    rw [constantLeaves] at hx
    obtain ⟨w, hw, l', hint⟩ := exists_int_of_mem_zeroLeaves (h t .zero) (entered_all t) hx
    exact ⟨w, hw, l', 0, .inl hint⟩
  | .struct elements =>
    rw [constantLeaves] at hx
    cases hfields : p.fields? t with
    | none =>
      rw [hfields] at hx
      exact absurd hx List.not_mem_nil
    | some fields =>
      rw [hfields] at hx
      obtain ⟨n, s, d, hn, hx⟩ := mem_fieldLeaves_iff.1 hx
      have hmem := List.mem_of_getElem? hn
      have hd : d ∈ elements := (List.of_mem_zip hmem).2
      obtain ⟨w, hw, hint⟩ := exists_int_of_mem_constantLeaves
        (fun u hu ↦ h u (.field hfields hmem hu)) hx
      exact ⟨w, .tail hw (part_of_fields? hfields (List.of_mem_zip hmem).1), hint⟩
  | .array elements =>
    cases t with
    | array count element =>
      rw [constantLeaves] at hx
      obtain ⟨d, hd, hx⟩ := mem_elementLeaves_iff.1 hx
      obtain ⟨w, hw, hint⟩ := exists_int_of_mem_constantLeaves
        (fun u hu ↦ h u (.element hd hu)) hx
      exact ⟨w, .tail hw .element, hint⟩
    | int | ptr | void | named | literal => exact absurd hx List.not_mem_nil

end Program

end RangeFlow
