import Std.Data.String.ToInt
import RangeFlow.Location
import RangeFlow.Proofs.Check.Assignment
import RangeFlow.Proofs.Source.Reparse

/-!
# The ids of locations

An id joins names that the program chooses by dots, and names may contain dots themselves.  So an id
can be read in more than one way: the name of a struct can end where a prefix, a function or a
variable ends, and the name of a caller can end within what another caller calls a result.
`Location.Clashes` lists these readings.  There are no others: the ids of two locations are equal
only if the locations are, or clash.
-/

namespace RangeFlow

/-! ## Texts with a dot -/

/-- Texts joined by a dot are equal if they are joined at one place, or at two dots of one text. -/
theorem dotted_eq_dotted {a b c d : String} : a ++ "." ++ b = c ++ "." ++ d ↔
    (a = c ∧ b = d) ∨ (∃ m, c = a ++ "." ++ m ∧ b = m ++ "." ++ d) ∨
      ∃ m, a = c ++ "." ++ m ∧ d = m ++ "." ++ b := by
  constructor
  · intro h
    have hlist : a.toList ++ ('.' :: b.toList) = c.toList ++ ('.' :: d.toList) := by
      simpa using congrArg String.toList h
    rcases List.append_eq_append_iff.1 hlist with ⟨m, hc, hb⟩ | ⟨m, ha, hd⟩
    · cases m with
      | nil =>
        rw [List.nil_append, List.cons.injEq] at hb
        rw [List.append_nil] at hc
        exact .inl ⟨(String.toList_inj.1 hc).symm, String.toList_inj.1 hb.2⟩
      | cons e m =>
        rw [List.cons_append, List.cons.injEq] at hb
        obtain ⟨rfl, hb⟩ := hb
        refine .inr (.inl ⟨String.ofList m, String.toList_inj.1 ?_, String.toList_inj.1 ?_⟩)
        · simpa using hc
        · simpa using hb
    · cases m with
      | nil =>
        rw [List.nil_append, List.cons.injEq] at hd
        rw [List.append_nil] at ha
        exact .inl ⟨String.toList_inj.1 ha, (String.toList_inj.1 hd.2).symm⟩
      | cons e m =>
        rw [List.cons_append, List.cons.injEq] at hd
        obtain ⟨rfl, hd⟩ := hd
        refine .inr (.inr ⟨String.ofList m, String.toList_inj.1 ?_, String.toList_inj.1 ?_⟩)
        · simpa using ha
        · simpa using hd
  · rintro (⟨rfl, rfl⟩ | ⟨m, rfl, rfl⟩ | ⟨m, rfl, rfl⟩)
    · rfl
    · simp only [String.append_assoc]
    · simp only [String.append_assoc]

def IsDotless (s : String) : Prop := '.' ∉ s.toList

theorem not_isDotless_dotted (a b : String) : ¬IsDotless (a ++ "." ++ b) := by
  intro h
  exact h (by simp)

theorem isDotless_natRepr (n : Nat) : IsDotless n.repr := by
  intro h
  rw [Nat.toList_repr] at h
  have hdigit := Nat.isDigit_of_mem_toDigits (by decide) (by decide) h
  cases hdigit

theorem isDotless_toString (v : Int) : IsDotless (toString v) := by
  cases v with
  | ofNat n => exact isDotless_natRepr n
  | negSucc n =>
    intro h
    change '.' ∈ ("-" ++ (n + 1).repr).toList at h
    rw [String.toList_append, List.mem_append] at h
    exact h.elim (by decide) (isDotless_natRepr (n + 1))

theorem repr_natCast (n : Nat) : (n : Int).repr = n.repr := rfl

theorem toString_inj {u v : Int} : toString u = toString v ↔ u = v := Int.repr_inj

/-- Texts joined by their last dots. -/
theorem dotted_eq_dotted_of_isDotless {a b c d : String} (hb : IsDotless b) (hd : IsDotless d) :
    a ++ "." ++ b = c ++ "." ++ d ↔ a = c ∧ b = d := by
  rw [dotted_eq_dotted]
  constructor
  · rintro (h | ⟨m, -, rfl⟩ | ⟨m, -, rfl⟩)
    · exact h
    · exact absurd hb (not_isDotless_dotted m d)
    · exact absurd hd (not_isDotless_dotted m b)
  · exact .inl

namespace Location

/-! ## Clashes -/

/-- Locations with the same id though they are different. -/
inductive Clashes : Location → Location → Prop
  /-- A global and a field of a struct whose name starts with `var`. -/
  | global (k : Int) : Clashes (.global (toString k)) (.field "var" k)
  | dottedGlobal (x : String) (k : Int) :
    Clashes (.global (x ++ "." ++ toString k)) (.field ("var." ++ x) k)
  | arg (f : String) (k : Nat) : Clashes (.arg f k) (.field ("arg." ++ f) k)
  | ret (k : Int) : Clashes (.ret (toString k)) (.field "ret" k)
  | dottedRet (f : String) (k : Int) :
    Clashes (.ret (f ++ "." ++ toString k)) (.field ("ret." ++ f) k)
  | callResult (f : String) (k : Int) :
    Clashes (.callResult f (toString k)) (.field ("callret." ++ f) k)
  | dottedCallResult (f x : String) (k : Int) :
    Clashes (.callResult f (x ++ "." ++ toString k)) (.field ("callret." ++ f ++ "." ++ x) k)
  /-- The part `m` belongs to the name of a caller or to that of a result. -/
  | callResults (f m x : String) :
    Clashes (.callResult (f ++ "." ++ m) x) (.callResult f (m ++ "." ++ x))

/-- The prefix of the id and what follows it, for locations that are no fields. -/
def split? : Location → Option (String × String)
  | .global x => some ("var", x)
  | .field _ _ => none
  | .arg f k => some ("arg", f ++ "." ++ toString (k : Int))
  | .ret f => some ("ret", f)
  | .callResult f x => some ("callret", f ++ "." ++ x)

variable {a b l : Location} {s t r : String} {k : Int}

/-- An id is its prefix and the rest with a dot between them. -/
theorem id_of_split? (h : l.split? = some (t, r)) : l.id = t ++ "." ++ r := by
  cases l with
  | field => cases h
  | global | arg | ret | callResult =>
    cases h
    exact String.toList_inj.1 (by simp [id, repr_natCast])

/-- Prefixes of ids have no dots. -/
theorem isDotless_of_split? (h : l.split? = some (t, r)) : IsDotless t := by
  cases l with
  | field => cases h
  | global | arg | ret | callResult =>
    cases h
    unfold IsDotless
    decide

/-- Only the ids of fields begin with a name of the program. -/
theorem split?_eq_none : l.split? = none ↔ ∃ s k, l = .field s k := by
  cases l with
  | field s k => exact ⟨fun _ ↦ ⟨s, k, rfl⟩, fun _ ↦ rfl⟩
  | global | arg | ret | callResult =>
    constructor
    · intro h
      cases h
    · rintro ⟨s, k, h⟩
      cases h

theorem id_field : (field s k).id = s ++ "." ++ toString k := rfl

/-- Locations that clash have one id. -/
theorem Clashes.id_eq (h : a.Clashes b) : a.id = b.id := by
  cases h <;> exact String.toList_inj.1 (by simp [id, repr_natCast])

theorem Clashes.ne (h : a.Clashes b) : a ≠ b := by
  cases h with
  | global | dottedGlobal | arg | ret | dottedRet | callResult | dottedCallResult =>
    exact Location.noConfusion
  | callResults f m x =>
    intro heq
    injection heq with hf
    have hlen := congrArg (fun s : String ↦ s.toList.length) hf
    simp at hlen

/-! ## No other clashes -/

/-- The id of a field read as that of another location. -/
theorem clashes_field_of_id_eq (hl : l.split? = some (t, r)) (h : l.id = (field s k).id) :
    l.Clashes (.field s k) := by
  have hdot := isDotless_of_split? hl
  rw [id_of_split? hl, id_field, dotted_eq_dotted] at h
  rcases h with ⟨rfl, rfl⟩ | ⟨m, rfl, rfl⟩ | ⟨m, rfl, -⟩
  · -- The index follows the prefix.
    cases l with
    | field => cases hl
    | global =>
      cases hl
      exact .global k
    | ret =>
      cases hl
      exact .ret k
    | arg | callResult =>
      obtain ⟨-, hr⟩ := Prod.mk.inj (Option.some.inj hl)
      exact absurd (hr ▸ isDotless_toString k) (not_isDotless_dotted _ _)
  · -- The name of the struct goes on after the prefix.
    cases l with
    | field => cases hl
    | global =>
      cases hl
      exact .dottedGlobal m k
    | ret =>
      cases hl
      exact .dottedRet m k
    | arg f j =>
      obtain ⟨rfl, hr⟩ := Prod.mk.inj (Option.some.inj hl)
      obtain ⟨rfl, hj⟩ :=
        (dotted_eq_dotted_of_isDotless (isDotless_toString _) (isDotless_toString k)).1 hr
      obtain rfl := toString_inj.1 hj
      exact .arg f j
    | callResult f x =>
      obtain ⟨rfl, hr⟩ := Prod.mk.inj (Option.some.inj hl)
      rcases dotted_eq_dotted.1 hr with ⟨rfl, rfl⟩ | ⟨n, rfl, rfl⟩ | ⟨n, rfl, hk⟩
      · exact .callResult f k
      · have hclash := Clashes.dottedCallResult f n k
        simp only [String.append_assoc] at hclash ⊢
        exact hclash
      · exact absurd (hk ▸ isDotless_toString k) (not_isDotless_dotted n x)
  · exact absurd hdot (not_isDotless_dotted s m)

/-- Ids under the four prefixes. -/
theorem eq_or_clashes_of_id_eq {t' r' : String} (ha : a.split? = some (t, r))
    (hb : b.split? = some (t', r')) (h : a.id = b.id) : a = b ∨ a.Clashes b ∨ b.Clashes a := by
  rw [id_of_split? ha, id_of_split? hb] at h
  obtain ⟨rfl, rfl⟩ : t = t' ∧ r = r' := by
    rcases dotted_eq_dotted.1 h with h | ⟨m, rfl, -⟩ | ⟨m, rfl, -⟩
    · exact h
    · exact absurd (isDotless_of_split? hb) (not_isDotless_dotted t m)
    · exact absurd (isDotless_of_split? ha) (not_isDotless_dotted t' m)
  have heq : a.split? = b.split? := ha.trans hb.symm
  cases a with
  | field => cases ha
  | global x =>
    cases b with
    | global y => exact .inl (congrArg _ (Prod.mk.inj (Option.some.inj heq)).2)
    | field | arg | ret | callResult => simp [split?] at heq
  | ret f =>
    cases b with
    | ret g => exact .inl (congrArg _ (Prod.mk.inj (Option.some.inj heq)).2)
    | global | field | arg | callResult => simp [split?] at heq
  | arg f j =>
    cases b with
    | arg g i =>
      obtain ⟨rfl, hi⟩ := (dotted_eq_dotted_of_isDotless (isDotless_toString j)
        (isDotless_toString i)).1 (Prod.mk.inj (Option.some.inj heq)).2
      obtain rfl := Int.natCast_inj.1 (toString_inj.1 hi)
      exact .inl rfl
    | global | field | ret | callResult => simp [split?] at heq
  | callResult f x =>
    cases b with
    | callResult g y =>
      rcases dotted_eq_dotted.1 (Prod.mk.inj (Option.some.inj heq)).2 with
        ⟨rfl, rfl⟩ | ⟨m, rfl, rfl⟩ | ⟨m, rfl, rfl⟩
      · exact .inl rfl
      · exact .inr (.inr (.callResults f m y))
      · exact .inr (.inl (.callResults g m x))
    | global | field | arg | ret => simp [split?] at heq

/-- The ids of two locations are equal if and only if they are the same location or clash. -/
theorem id_eq_id (a b : Location) : a.id = b.id ↔ a = b ∨ a.Clashes b ∨ b.Clashes a := by
  constructor
  · intro h
    cases ha : a.split? with
    | some x =>
      cases hb : b.split? with
      | some y => exact eq_or_clashes_of_id_eq ha hb h
      | none =>
        obtain ⟨s, k, rfl⟩ := split?_eq_none.1 hb
        exact .inr (.inl (clashes_field_of_id_eq ha h))
    | none =>
      obtain ⟨s, k, rfl⟩ := split?_eq_none.1 ha
      cases hb : b.split? with
      | some y => exact .inr (.inr (clashes_field_of_id_eq hb h.symm))
      | none =>
        obtain ⟨s', k', rfl⟩ := split?_eq_none.1 hb
        obtain ⟨rfl, hk⟩ :=
          (dotted_eq_dotted_of_isDotless (isDotless_toString k) (isDotless_toString k')).1 h
        rw [toString_inj.1 hk]
        exact .inl rfl
  · rintro (rfl | h | h)
    · rfl
    · exact h.id_eq
    · exact h.id_eq.symm

end Location

/-! ## The locations of a program -/

/-- The fields of a struct with a name of its own. -/
def StructDecl.locations (s : StructDecl) : List Location :=
  if isAnonymousName s.name then []
  else (List.range (s.fields.getD []).length).map fun (index : Nat) ↦ .field s.name index

/-- The arguments, the return slot, and the results of the calls of a function. -/
def Function.locations (f : Function) : List Location :=
  (List.range f.params.length).map (.arg f.name) ++
    .ret f.name :: f.calls.filterMap f.callLocation?

namespace Program

/-- A location for each place of the program that has one. -/
def locations (p : Program) : List Location :=
  p.globals.map (fun g ↦ .global g.name) ++ p.structs.flatMap StructDecl.locations ++
    p.functions.flatMap Function.locations

end Program

/-! ### Each place has a location of its own -/

/-- The name of what a location is a part of. -/
def Location.owner : Location → String
  | .global x | .field x _ | .arg x _ | .ret x | .callResult x _ => x

/-- Lists of distinct locations, each the locations of one owner, have none in common. -/
theorem nodup_flatMap_of_owner {α : Type} {xs : List α} {name : α → String}
    {locations : α → List Location} (hnames : (xs.map name).Nodup)
    (hnodup : ∀ x ∈ xs, (locations x).Nodup)
    (howner : ∀ x, ∀ l ∈ locations x, l.owner = name x) : (xs.flatMap locations).Nodup := by
  refine List.nodup_flatMap.2 ⟨hnodup, (List.pairwise_map.1 hnames).imp fun {x y} hne l hx hy ↦ ?_⟩
  exact hne ((howner x l hx).symm.trans (howner y l hy))

/-- The locations of a struct are its fields, by their position. -/
theorem StructDecl.mem_locations {s : StructDecl} {l : Location} : l ∈ s.locations ↔
    isAnonymousName s.name = false ∧
      ∃ index < (s.fields.getD []).length, l = .field s.name (index : Nat) := by
  unfold locations
  cases isAnonymousName s.name <;> simp [eq_comm]

theorem StructDecl.nodup_locations (s : StructDecl) : s.locations.Nodup := by
  unfold locations
  split
  · exact .nil
  · refine List.nodup_range.map fun i j hij ↦ ?_
    injection hij with _ h
    exact Int.natCast_inj.1 h

namespace Function

variable {f : Function} {l : Location}

/-- Calls with a result have a location, which is named after the result. -/
theorem callLocation?_eq_some {i : Instr} :
    f.callLocation? i = some l ↔ ∃ x, i.result? = some x ∧ l = .callResult f.name x := by
  simp [callLocation?, eq_comm]

/-- The locations of a function are its arguments, its return slot and the results of its calls. -/
theorem mem_locations : l ∈ f.locations ↔ (∃ index < f.params.length, l = .arg f.name index) ∨
    l = .ret f.name ∨ ∃ i ∈ f.calls, f.callLocation? i = some l := by
  simp [locations, eq_comm]

/-- If the results of a function are distinct, so are its locations. -/
theorem nodup_locations (h : (f.instrs.filterMap Instr.result?).Nodup) : f.locations.Nodup := by
  have hargs : ((List.range f.params.length).map (Location.arg f.name)).Nodup := by
    refine List.nodup_range.map fun i j hij ↦ ?_
    injection hij
  have hresults : (f.calls.filterMap f.callLocation?).Nodup := by
    have hcalls : (f.calls.filterMap Instr.result?).Nodup :=
      h.sublist (List.filter_sublist.filterMap _)
    have hmap : f.calls.filterMap f.callLocation? =
        (f.calls.filterMap Instr.result?).map (.callResult f.name) := by
      rw [List.map_filterMap]
      rfl
    rw [hmap]
    refine hcalls.map fun x y hxy ↦ ?_
    injection hxy
  unfold locations
  rw [List.nodup_append, List.nodup_cons]
  refine ⟨hargs, ⟨fun hret ↦ ?_, hresults⟩, fun a ha b hb heq ↦ ?_⟩
  · obtain ⟨i, -, hi⟩ := List.mem_filterMap.1 hret
    obtain ⟨x, -, hx⟩ := callLocation?_eq_some.1 hi
    cases hx
  · obtain ⟨k, -, rfl⟩ := List.mem_map.1 ha
    subst heq
    rcases List.mem_cons.1 hb with hb | hb
    · cases hb
    · obtain ⟨i, -, hi⟩ := List.mem_filterMap.1 hb
      obtain ⟨x, -, hx⟩ := callLocation?_eq_some.1 hi
      cases hx

theorem owner_of_mem_locations (h : l ∈ f.locations) : l.owner = f.name := by
  rcases mem_locations.1 h with ⟨k, -, rfl⟩ | rfl | ⟨i, -, hi⟩
  · rfl
  · rfl
  · obtain ⟨x, -, rfl⟩ := callLocation?_eq_some.1 hi
    rfl

end Function

namespace Program

variable {p : Program} {f : Function} {l : Location}

/-- No two places of an accepted program that was read have one location. -/
theorem nodup_locations {text : String} (hparse : Program.parse text = .ok p)
    (hsound : p.isSound = true) : p.locations.Nodup := by
  have hread := isRead_of_parse hparse
  have hglobals : (p.globals.map fun g ↦ Location.global g.name).Nodup := by
    have hmap : (p.globals.map fun g ↦ Location.global g.name) =
        (p.globals.map Global.name).map .global := by
      rw [List.map_map]
      rfl
    rw [hmap]
    refine hread.globalNames.map fun x y hxy ↦ ?_
    injection hxy
  have hstructs : (p.structs.flatMap StructDecl.locations).Nodup := by
    refine nodup_flatMap_of_owner hread.structNames (fun s _ ↦ s.nodup_locations) fun s l hl ↦ ?_
    obtain ⟨-, k, -, rfl⟩ := StructDecl.mem_locations.1 hl
    rfl
  have hfunctions : (p.functions.flatMap Function.locations).Nodup := by
    refine nodup_flatMap_of_owner hread.functionNames (fun f hf ↦ ?_)
      fun f l ↦ Function.owner_of_mem_locations
    obtain ⟨g, hg⟩ := exists_flow_of_isSound hsound hf
    exact Function.nodup_locations (typing_of_isSound hsound hf hg).once
  unfold locations
  rw [List.nodup_append, List.nodup_append]
  refine ⟨⟨hglobals, hstructs, ?_⟩, hfunctions, ?_⟩
  · rintro a ha b hb rfl
    obtain ⟨g, -, rfl⟩ := List.mem_map.1 ha
    obtain ⟨s, -, hl⟩ := List.mem_flatMap.1 hb
    obtain ⟨-, k, -, hk⟩ := StructDecl.mem_locations.1 hl
    cases hk
  · rintro a ha b hb rfl
    obtain ⟨f, -, hl⟩ := List.mem_flatMap.1 hb
    rw [Function.mem_locations] at hl
    simp only [Function.callLocation?_eq_some] at hl
    rcases List.mem_append.1 ha with ha | ha
    · obtain ⟨g, -, rfl⟩ := List.mem_map.1 ha
      simp at hl
    · obtain ⟨s, -, hs⟩ := List.mem_flatMap.1 ha
      obtain ⟨-, k, -, rfl⟩ := StructDecl.mem_locations.1 hs
      simp at hl

/-! ### Looking up a location finds one of these -/

/-- A field that is there has its location among those of the program. -/
theorem mem_locations_of_field {t : Ty} {fields : List Ty} {index : Int}
    (hfields : p.fields? t = some fields) (hindex : 0 ≤ index ∧ index < fields.length)
    (h : t.fieldLocation? index = some l) : l ∈ p.locations := by
  cases t with
  | named name =>
    rw [Ty.fieldLocation?] at h
    split at h
    · cases h
    · rename_i hanon
      cases h
      obtain ⟨s, hfind, hs⟩ := Option.bind_eq_some_iff.1 hfields
      obtain rfl : s.name = name := by simpa using List.find?_some hfind
      obtain ⟨k, rfl⟩ := Int.eq_ofNat_of_zero_le hindex.1
      have hk : k < (s.fields.getD []).length := by
        rw [hs]
        exact Int.ofNat_lt.1 hindex.2
      refine List.mem_append_left _ (List.mem_append_right _ (List.mem_flatMap.2
        ⟨s, List.mem_of_find?_eq_some hfind, ?_⟩))
      exact StructDecl.mem_locations.2 ⟨by simpa using hanon, k, hk, rfl⟩
  | int | ptr | void | array | literal => cases h

/-- What an address is followed to is a location of the program. -/
theorem mem_locations_of_followAddress (hsound : p.isSound = true) (hf : f ∈ p.functions) {n : Nat}
    {o : Operand} (h : p.followAddress f n o = .ok (some l)) : l ∈ p.locations := by
  induction n generalizing o with
  | zero => cases h
  | succ n ih =>
    cases o with
    | literal => cases h
    | symbol name =>
      rw [followAddress, Except.ok.injEq, Option.map_eq_some_iff] at h
      obtain ⟨g, hg, rfl⟩ := h
      refine List.mem_append_left _ (List.mem_append_left _ (List.mem_map.2 ⟨g, ?_, rfl⟩))
      exact List.mem_of_find?_eq_some hg
    | var x ty =>
      simp only [followAddress] at h
      split at h
      · rename_i t address index hdef
        obtain ⟨i, hi, ha⟩ := Sweep.mem_instrs_of_definition? hdef
        have hfit := misfit?_eq_none_of_isSound hsound hf hi
        simp only [misfit?, ha] at hfit
        split at hfit
        · rename_i fields hfields
          split at hfit
          · rename_i hindex
            split at h
            · rename_i l' hl'
              split at h
              · cases h
                exact mem_locations_of_field hfields hindex hl'
              · cases h
            · cases h
          · cases hfit
        · cases hfit
      · exact ih h
      · exact ih h
      · cases h

/-- The location that an address points to is one of the program. -/
theorem mem_locations_of_memoryLocation (hsound : p.isSound = true) (hf : f ∈ p.functions)
    {o : Operand} (h : p.memoryLocation f o = .ok (some l)) : l ∈ p.locations :=
  mem_locations_of_followAddress hsound hf h

/-- The location whose facts a variable reads is one of the program. -/
theorem mem_locations_of_valueLocation (hsound : p.isSound = true) (hf : f ∈ p.functions)
    {o : Operand} (h : p.valueLocation f o = .ok (some l)) : l ∈ p.locations := by
  have hfunction (hl : l ∈ f.locations) : l ∈ p.locations :=
    List.mem_append_right _ (List.mem_flatMap.2 ⟨f, hf, hl⟩)
  cases o with
  | symbol | literal => cases h
  | var x ty =>
    simp only [valueLocation] at h
    split at h
    · rename_i k hk
      cases h
      obtain ⟨hlt, -⟩ := List.findIdx?_eq_some_iff_getElem.1 hk
      exact hfunction (Function.mem_locations.2 (.inl ⟨k, hlt, rfl⟩))
    · split at h
      · exact mem_locations_of_memoryLocation hsound hf h
      · rename_i c hdef
        cases h
        obtain ⟨i, hi, ha⟩ := Sweep.mem_instrs_of_definition? hdef
        refine hfunction (Function.mem_locations.2
          (.inr (.inr ⟨i, List.mem_filter.2 ⟨hi, ?_⟩, ?_⟩)))
        · simp [Instr.call?, ha]
        · simp [Function.callLocation?, Instr.result?, ha]
      · cases h

/-- Where no locations clash, an id says which location a value of the program has. -/
theorem eq_of_valueLocation_id_eq {f' : Function} {o o' : Operand} {a b : Location}
    (hsound : p.isSound = true) (hf : f ∈ p.functions) (hf' : f' ∈ p.functions)
    (hclash : ∀ a ∈ p.locations, ∀ b ∈ p.locations, ¬a.Clashes b)
    (ha : p.valueLocation f o = .ok (some a)) (hb : p.valueLocation f' o' = .ok (some b))
    (hid : a.id = b.id) : a = b := by
  have hamem := mem_locations_of_valueLocation hsound hf ha
  have hbmem := mem_locations_of_valueLocation hsound hf' hb
  refine ((Location.id_eq_id a b).1 hid).resolve_right ?_
  rintro (hab | hba)
  · exact hclash a hamem b hbmem hab
  · exact hclash b hbmem a hamem hba

/-- The ids of two places of an accepted program are equal if and only if their locations clash. -/
theorem id_eq_id_iff_clashes {text : String} (hparse : Program.parse text = .ok p)
    (hsound : p.isSound = true) {m n : Nat} {a b : Location} (ha : p.locations[m]? = some a)
    (hb : p.locations[n]? = some b) (hne : m ≠ n) : a.id = b.id ↔ a.Clashes b ∨ b.Clashes a := by
  have hdiff : a ≠ b := by
    rintro rfl
    obtain ⟨hm, -⟩ := List.getElem?_eq_some_iff.1 ha
    exact hne ((List.getElem?_inj hm (nodup_locations hparse hsound)).1 (ha.trans hb.symm))
  rw [Location.id_eq_id]
  constructor
  · intro h
    exact h.resolve_left hdiff
  · exact .inr

end Program

/-! ## A program with a clash -/

open Width (byte)

/-- The struct is called like the prefix of ids of globals, and a global is called like the index of
a field. -/
def clashingText : String :=
  "struct %var = \x7b i8 \x7d\nglobal @0: i8 = 5\nglobal @g: %var = \x7b 9 \x7d\n"

def clashingProgram : Program :=
  { structs := [⟨"var", some [.int byte]⟩]
    globals := [⟨"0", .int byte, some (.int 5)⟩, ⟨"g", .named "var", some (.struct [.int 9])⟩]
    functions := [] }

def clashingEnv : Sweep.Env := .ofProgram clashingProgram ⟨2, none, [], Nat.zero_lt_two⟩

/-- A global and a field share one id, two globals do not. -/
theorem id_eq_id_clashing :
    Program.parse clashingText = .ok clashingProgram ∧ clashingProgram.isSound = true ∧
    clashingProgram.locations = [.global "0", .global "g", .field "var" 0] ∧
    ((Location.global "0").id = (Location.global "g").id ↔
      (Location.global "0").Clashes (.global "g") ∨ (Location.global "g").Clashes (.global "0")) := by
  have hparse : Program.parse clashingText = .ok clashingProgram := by decide +kernel
  have hsound : clashingProgram.isSound = true := rfl
  exact ⟨hparse, hsound, by decide +kernel,
    Program.id_eq_id_iff_clashes hparse hsound rfl rfl Nat.zero_ne_one⟩

/-- The global and the field of the struct are different places of an accepted program with one id,
and the table keeps one range around the initial values of both. -/
theorem not_distinct_clashing :
    Program.parse clashingText = .ok clashingProgram ∧ clashingProgram.isSound = true ∧
    clashingProgram.locations[0]? = some (.global "0") ∧
    clashingProgram.locations[2]? = some (.field "var" 0) ∧
    (Location.global "0").id = (Location.field "var" 0).id ∧
    (match (Sweep.seed clashingEnv).run (.start clashingEnv.settings .always) with
      | .ok _ s => s.table.get? "var.0"
      | .error _ _ => none) = some (.cover byte 5 9) := by
  refine ⟨by decide +kernel, rfl, rfl, rfl, rfl, by decide +kernel⟩

end RangeFlow
