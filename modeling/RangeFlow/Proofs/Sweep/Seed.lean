import RangeFlow.Proofs.Sweep.Found
import RangeFlow.Proofs.Sweep.Returns
import RangeFlow.Proofs.Table.History

/-!
# Initial values in the table

A type and a constant of it are walked along together (`Program.LiesIn`); which integers memory
starts with is a matter of the program only (`Program.StartsWith`).  The walk along a zero follows
the type, and is cut off where a struct type is entered again (`Program.MeetsZero`).  Seeding an
empty table stores each integer at its id, at the width that is stored there, and stores nothing
else.  It returns if no struct type is within itself and integers are short.
-/

namespace RangeFlow

namespace Program

/-- An integer of a width lies at a location within a constant of a type that stands at another
one.  The elements of an array are where the array is. -/
inductive LiesIn (p : Program) (k : Option Location) (w : Width) (v : Int) :
    Option Location → Ty → Constant → Prop
  | int : LiesIn p k w v k (.int w) (.int v)
  | zero (hv : v = 0) : LiesIn p k w v k (.int w) .zero
  | field {l : Option Location} {t s : Ty} {fields : List Ty} {elements : List Constant}
    {c : Constant} {n : Nat} (hfields : p.fields? t = some fields) (hs : fields[n]? = some s)
    (hc : elements[n]? = some c) (h : LiesIn p k w v (t.fieldLocation? n) s c) :
    LiesIn p k w v l t (.struct elements)
  | zeroField {l : Option Location} {t s : Ty} {fields : List Ty} {n : Nat}
    (hfields : p.fields? t = some fields) (hs : fields[n]? = some s)
    (h : LiesIn p k w v (t.fieldLocation? n) s .zero) : LiesIn p k w v l t .zero
  | element {l : Option Location} {count : Int} {t : Ty} {elements : List Constant} {c : Constant}
    (hc : c ∈ elements) (h : LiesIn p k w v l t c) :
    LiesIn p k w v l (.array count t) (.array elements)
  | zeroElement {l : Option Location} {count : Int} {t : Ty} (h : LiesIn p k w v l t .zero) :
    LiesIn p k w v l (.array count t) .zero

/-- Memory starts with an integer of a width at a location: it lies in the initial value of a
global variable that is not a compiler's own. -/
def StartsWith (p : Program) (k : Option Location) (w : Width) (v : Int) : Prop :=
  ∃ g ∈ p.globals, g.name.startsWith "." = false ∧ ∃ c, g.init = some c ∧
    p.LiesIn k w v (some (.global g.name)) g.ty c

/-- No struct type has itself as a part of a part. -/
def IsFinite (p : Program) : Prop :=
  ∀ name, ¬Relation.TransGen p.Part (.named name) (.named name)

/-! ## Leaves -/

end Program

namespace Leaf

variable {k : Option Location} {l : Location} {w : Width} {v : Int} {leaf : Leaf}

/-- What is met for an integer at a location: its leaf, or a fault. -/
def IsMet (xs : Leaves) (l : Location) (w : Width) (v : Int) : Prop :=
  ∃ x ∈ xs, ∀ leaf, x = .ok leaf → leaf = ⟨l, .singleton w v⟩

/-- A leaf that is met in some leaves is met in more of them. -/
theorem IsMet.mono {xs ys : Leaves} (h : IsMet xs l w v) (hsub : xs ⊆ ys) : IsMet ys l w v := by
  obtain ⟨x, hx, hleaf⟩ := h
  exact ⟨x, hsub hx, hleaf⟩

theorem isMet_of_eq_error {xs : Leaves} {e : Fault} (he : xs = [.error e]) : IsMet xs l w v := by
  refine ⟨.error e, he ▸ List.mem_singleton_self _, ?_⟩
  rintro leaf ⟨⟩

/-- A written integer is a leaf like any other, unless its digits are too many. -/
theorem ofWritten_cases (k : Option Location) (w : Width) (v : Int) :
    ofWritten k w v = ofInt k w v ∨ ∃ e, ofWritten k w v = [.error e] := by
  unfold ofWritten
  cases hw : Fault.ofRange w.counted with
  | error e => exact .inr ⟨e, rfl⟩
  | ok u =>
    obtain ⟨-, rfl⟩ := Sweep.counted_eq_ok.1 hw
    exact .inl rfl

/-- An integer leaf is at the place given and has its word as range. -/
theorem eq_of_ok_mem_ofInt (h : .ok leaf ∈ ofInt k w v) :
    k = some leaf.location ∧ leaf.range = .singleton w v := by
  unfold ofInt at h
  rw [Option.mem_toList, Option.map_eq_some_iff] at h
  obtain ⟨l, rfl, hl⟩ := h
  cases hw : Fault.ofRange w.counted with
  | error e =>
    rw [hw] at hl
    cases hl
  | ok u =>
    obtain ⟨-, rfl⟩ := Sweep.counted_eq_ok.1 hw
    rw [hw] at hl
    cases hl
    exact ⟨rfl, rfl⟩

/-- A written leaf is at the place given and has its word as range. -/
theorem eq_of_ok_mem_ofWritten (h : .ok leaf ∈ ofWritten k w v) :
    k = some leaf.location ∧ leaf.range = .singleton w v := by
  rcases ofWritten_cases k w v with heq | ⟨e, heq⟩
  · exact eq_of_ok_mem_ofInt (heq ▸ h)
  · rw [heq, List.mem_singleton] at h
    cases h

theorem isMet_ofInt (l : Location) (w : Width) (v : Int) : IsMet (ofInt (some l) w v) l w v := by
  obtain ⟨x, hx⟩ : ∃ x, x ∈ ofInt (some l) w v := ⟨_, Option.mem_toList.2 rfl⟩
  refine ⟨x, hx, fun leaf hleaf ↦ ?_⟩
  obtain ⟨hl, hr⟩ := eq_of_ok_mem_ofInt (hleaf ▸ hx)
  rw [Option.some.inj hl, ← hr]

theorem isMet_ofWritten (l : Location) (w : Width) (v : Int) :
    IsMet (ofWritten (some l) w v) l w v := by
  rcases ofWritten_cases (some l) w v with heq | ⟨e, heq⟩
  · rw [heq]
    exact isMet_ofInt l w v
  · exact isMet_of_eq_error heq

theorem endless_notMem_ofInt : .error .endless ∉ ofInt k w v := by
  intro h
  unfold ofInt at h
  rw [Option.mem_toList, Option.map_eq_some_iff] at h
  obtain ⟨l, -, hl⟩ := h
  cases hw : w.counted <;> rw [hw] at hl <;> cases hl

end Leaf

namespace Program

variable {p : Program} {k : Option Location} {l : Location} {w : Width} {v : Int} {t : Ty}
variable {c : Constant} {leaf : Leaf} {unseen : List String}

/-! ## The walk along a zero -/

/-- The leaves of the zeros in the fields are those of any of the fields at its place. -/
theorem mem_zeroFieldLeaves_iff {struct : Ty} {index : Nat} {fields : List Ty}
    {x : Except Fault Leaf} :
    x ∈ p.zeroFieldLeaves unseen struct index fields ↔ ∃ (n : Nat) (s : Ty),
      fields[n]? = some s ∧
        x ∈ p.zeroLeaves unseen (struct.fieldLocation? ((index + n : Nat) : Int)) s := by
  induction fields generalizing index with
  | nil => simp [zeroFieldLeaves]
  | cons s ts ih =>
    rw [zeroFieldLeaves, List.mem_append, ih]
    constructor
    · rintro (h | ⟨n, t, hn, h⟩)
      · exact ⟨0, s, rfl, h⟩
      · exact ⟨n + 1, t, hn, by rwa [show index + (n + 1) = index + 1 + n by omega]⟩
    · rintro ⟨_ | n, t, hn, h⟩
      · cases hn
        exact .inl h
      · exact .inr ⟨n, t, hn, by rwa [show index + 1 + n = index + (n + 1) by omega]⟩

/-- What the walk along the zero of a type meets, given the struct types that it has not entered. -/
inductive MeetsZero (p : Program) (x : Except Fault Leaf) :
    List String → Option Location → Ty → Prop
  | int {unseen : List String} {k : Option Location} {w : Width} (hx : x ∈ Leaf.ofInt k w 0) :
    MeetsZero p x unseen k (.int w)
  | element {unseen : List String} {k : Option Location} {count : Int} {t : Ty}
    (h : MeetsZero p x unseen k t) : MeetsZero p x unseen k (.array count t)
  | field {unseen : List String} {k : Option Location} {fields : List Ty} {n : Nat} {s : Ty}
    (hs : fields[n]? = some s) (h : MeetsZero p x unseen none s) :
    MeetsZero p x unseen k (.literal fields)
  | body {unseen : List String} {k : Option Location} {name : String} {fields : List Ty} {n : Nat}
    {s : Ty} (hfields : p.fields? (.named name) = some fields) (hunseen : name ∈ unseen)
    (hs : fields[n]? = some s)
    (h : MeetsZero p x (unseen.erase name) ((Ty.named name).fieldLocation? n) s) :
    MeetsZero p x unseen k (.named name)
  | again {unseen : List String} {k : Option Location} {name : String} {fields : List Ty}
    (hfields : p.fields? (.named name) = some fields) (hseen : name ∉ unseen)
    (hx : x = .error .endless) : MeetsZero p x unseen k (.named name)

theorem meetsZero_of_mem_zeroLeaves {x : Except Fault Leaf} (h : x ∈ p.zeroLeaves unseen k t) :
    p.MeetsZero x unseen k t := by
  refine zeroLeaves.induct p
    (fun unseen k t ↦ x ∈ p.zeroLeaves unseen k t → p.MeetsZero x unseen k t)
    (fun unseen struct index fields ↦ x ∈ p.zeroFieldLeaves unseen struct index fields →
      ∃ (n : Nat) (s : Ty), fields[n]? = some s ∧
        p.MeetsZero x unseen (struct.fieldLocation? ((index + n : Nat) : Int)) s)
    ?int ?array ?literal ?undefined ?named ?entered ?ptr ?void ?nil ?cons unseen k t h
  case int =>
    intro unseen k w h
    rw [zeroLeaves] at h
    exact .int h
  case array =>
    intro unseen k count element ih h
    rw [zeroLeaves] at h
    exact .element (ih h)
  case literal =>
    intro unseen k fields ih h
    rw [zeroLeaves] at h
    obtain ⟨n, s, hs, hmeets⟩ := ih h
    exact .field hs hmeets
  case named =>
    intro unseen k name fields hfields hunseen ih h
    rw [zeroLeaves, hfields] at h
    dsimp only at h
    rw [if_pos hunseen] at h
    obtain ⟨n, s, hs, hmeets⟩ := ih h
    rw [Nat.zero_add] at hmeets
    exact .body hfields hunseen hs hmeets
  case entered =>
    intro unseen k name fields hfields hunseen h
    rw [zeroLeaves, hfields] at h
    dsimp only at h
    rw [if_neg hunseen] at h
    exact .again hfields hunseen (List.mem_singleton.1 h)
  case undefined =>
    intro unseen k name hnone h
    rw [zeroLeaves, hnone] at h
    exact absurd h List.not_mem_nil
  case ptr | void =>
    intro unseen k h
    rw [zeroLeaves] at h
    exact absurd h List.not_mem_nil
  case nil =>
    intro unseen struct index h
    rw [zeroFieldLeaves] at h
    exact absurd h List.not_mem_nil
  case cons =>
    intro unseen struct index t ts ih ihs h
    rw [zeroFieldLeaves, List.mem_append] at h
    rcases h with h | h
    · exact ⟨0, t, rfl, ih h⟩
    · obtain ⟨n, s, hs, hmeets⟩ := ihs h
      exact ⟨n + 1, s, hs, by rwa [show index + (n + 1) = index + 1 + n by omega]⟩

/-- The walk along a zero yields what can be met in it. -/
theorem mem_zeroLeaves_iff {x : Except Fault Leaf} :
    x ∈ p.zeroLeaves unseen k t ↔ p.MeetsZero x unseen k t := by
  refine ⟨meetsZero_of_mem_zeroLeaves, fun h ↦ ?_⟩
  induction h with
  | int hx =>
    rw [zeroLeaves]
    exact hx
  | element _ ih =>
    rw [zeroLeaves]
    exact ih
  | @field _ _ _ n _ hs _ ih =>
    rw [zeroLeaves]
    exact mem_zeroFieldLeaves_iff.2 ⟨n, _, hs, ih⟩
  | @body _ _ _ _ n _ hfields hunseen hs _ ih =>
    rw [zeroLeaves, hfields]
    dsimp only
    rw [if_pos hunseen]
    exact mem_zeroFieldLeaves_iff.2 ⟨n, _, hs, by rwa [Nat.zero_add]⟩
  | again hfields hseen hx =>
    rw [zeroLeaves, hfields]
    dsimp only
    rw [if_neg hseen, hx]
    exact List.mem_singleton_self _

/-- A leaf that is met in a zero is a zero of the width that lies there. -/
theorem MeetsZero.liesIn (h : p.MeetsZero (.ok leaf) unseen k t) :
    ∃ w, p.LiesIn (some leaf.location) w 0 k t .zero ∧ leaf.range = .singleton w 0 := by
  induction h with
  | @int _ _ w hx =>
    obtain ⟨rfl, hr⟩ := Leaf.eq_of_ok_mem_ofInt hx
    exact ⟨w, .zero rfl, hr⟩
  | element _ ih =>
    obtain ⟨w, hw, hr⟩ := ih
    exact ⟨w, .zeroElement hw, hr⟩
  | @field _ _ _ n _ hs _ ih =>
    obtain ⟨w, hw, hr⟩ := ih
    exact ⟨w, .zeroField (n := n) rfl hs hw, hr⟩
  | body hfields _ hs _ ih =>
    obtain ⟨w, hw, hr⟩ := ih
    exact ⟨w, .zeroField hfields hs hw, hr⟩
  | again _ _ hx => cases hx

/-- An integer in the zero of a type is met on the walk along it, or the walk is cut off before. -/
theorem LiesIn.exists_meetsZero (h : p.LiesIn (some l) w v k t c) (hc : c = .zero)
    (unseen : List String) :
    ∃ x, p.MeetsZero x unseen k t ∧ ∀ leaf, x = .ok leaf → leaf = ⟨l, .singleton w v⟩ := by
  induction h generalizing unseen with
  | int | field | element => cases hc
  | zero hv =>
    obtain ⟨x, hx, hleaf⟩ := Leaf.isMet_ofInt l w v
    subst hv
    exact ⟨x, .int hx, hleaf⟩
  | zeroElement _ ih =>
    obtain ⟨x, hx, hleaf⟩ := ih rfl unseen
    exact ⟨x, .element hx, hleaf⟩
  | @zeroField k t s fields n hfields hs _ ih =>
    cases t with
    | literal fs =>
      cases hfields
      obtain ⟨x, hx, hleaf⟩ := ih rfl unseen
      exact ⟨x, .field hs hx, hleaf⟩
    | named name =>
      by_cases hunseen : name ∈ unseen
      · obtain ⟨x, hx, hleaf⟩ := ih rfl (unseen.erase name)
        exact ⟨x, .body hfields hunseen hs hx, hleaf⟩
      · refine ⟨.error .endless, .again hfields hunseen rfl, ?_⟩
        rintro leaf ⟨⟩
    | int | ptr | void | array => cases hfields

/-- A zero that lies in a type is met by the walk, or the walk does not end. -/
theorem LiesIn.isMet_zeroLeaves (h : p.LiesIn (some l) w v k t .zero) (unseen : List String) :
    Leaf.IsMet (p.zeroLeaves unseen k t) l w v := by
  obtain ⟨x, hx, hleaf⟩ := h.exists_meetsZero rfl unseen
  exact ⟨x, mem_zeroLeaves_iff.2 hx, hleaf⟩

/-! ## The walk along a constant -/

theorem liesIn_of_mem_constantLeaves {k : Option Location} {t : Ty} {c : Constant}
    (h : .ok leaf ∈ p.constantLeaves k t c) :
    ∃ w v, p.LiesIn (some leaf.location) w v k t c ∧ leaf.range = .singleton w v := by
  match c with
  | .int v =>
    cases t with
    | int w =>
      obtain ⟨rfl, hr⟩ := Leaf.eq_of_ok_mem_ofWritten h
      exact ⟨w, v, .int, hr⟩
    | ptr | void | array | named | literal => exact absurd h List.not_mem_nil
  | .symbol name => exact absurd h List.not_mem_nil
  | .zero =>
    rw [constantLeaves] at h
    obtain ⟨w, hw, hr⟩ := (mem_zeroLeaves_iff.1 h).liesIn
    exact ⟨w, 0, hw, hr⟩
  | .struct elements =>
    rw [constantLeaves] at h
    cases hfields : p.fields? t with
    | none =>
      rw [hfields] at h
      exact absurd h List.not_mem_nil
    | some fields =>
      rw [hfields] at h
      obtain ⟨n, s, d, hn, hd⟩ := mem_fieldLeaves_iff.1 h
      obtain ⟨hs, hc⟩ := List.getElem?_zip_eq_some.1 hn
      have hmem := List.mem_of_getElem? hc
      obtain ⟨w, v, hw, hr⟩ := liesIn_of_mem_constantLeaves hd
      rw [Nat.zero_add] at hw
      exact ⟨w, v, .field hfields hs hc hw, hr⟩
  | .array elements =>
    cases t with
    | array count element =>
      rw [constantLeaves] at h
      obtain ⟨d, hd, hmem⟩ := mem_elementLeaves_iff.1 h
      obtain ⟨w, v, hw, hr⟩ := liesIn_of_mem_constantLeaves hmem
      exact ⟨w, v, .element hd hw, hr⟩
    | int | ptr | void | named | literal => exact absurd h List.not_mem_nil
termination_by c

/-- What lies in a constant is met by the walk along it. -/
theorem LiesIn.isMet_constantLeaves (h : p.LiesIn (some l) w v k t c) :
    Leaf.IsMet (p.constantLeaves k t c) l w v := by
  induction h with
  | int => exact Leaf.isMet_ofWritten l w v
  | zero hv =>
    rw [constantLeaves]
    exact (LiesIn.zero hv).isMet_zeroLeaves _
  | zeroField hfields hs h _ =>
    rw [constantLeaves]
    exact (LiesIn.zeroField hfields hs h).isMet_zeroLeaves _
  | zeroElement h _ =>
    rw [constantLeaves]
    exact (LiesIn.zeroElement h).isMet_zeroLeaves _
  | @field k t s fields elements d n hfields hs hd _ ih =>
    rw [constantLeaves, hfields]
    refine ih.mono fun x hx ↦ mem_fieldLeaves_iff.2 ⟨n, s, d, ?_, by rwa [Nat.zero_add]⟩
    exact List.getElem?_zip_eq_some.2 ⟨hs, hd⟩
  | element hd _ ih =>
    rw [constantLeaves]
    exact ih.mono fun x hx ↦ mem_elementLeaves_iff.2 ⟨_, hd, hx⟩

/-- A leaf is an integer that memory starts with. -/
theorem startsWith_of_mem_leaves (h : .ok leaf ∈ p.leaves) :
    ∃ w v, p.StartsWith (some leaf.location) w v ∧ leaf.range = .singleton w v := by
  obtain ⟨g, hg, hdot, c, hc, hleaf⟩ := Sweep.mem_leaves_iff.1 h
  obtain ⟨w, v, hlies, hr⟩ := liesIn_of_mem_constantLeaves hleaf
  exact ⟨w, v, ⟨g, hg, hdot, c, hc, hlies⟩, hr⟩

/-- What a place starts with is met among the leaves of the program. -/
theorem StartsWith.isMet_leaves (h : p.StartsWith (some l) w v) : Leaf.IsMet p.leaves l w v := by
  obtain ⟨g, hg, hdot, c, hc, hlies⟩ := h
  exact hlies.isMet_constantLeaves.mono fun x hx ↦ Sweep.mem_leaves_iff.2 ⟨g, hg, hdot, c, hc, hx⟩

/-! ## Walks that come to an end -/

/-- A walk along a zero that is cut off has gone in a circle. -/
theorem MeetsZero.exists_cycle (h : p.MeetsZero (.error .endless) unseen k t)
    (he : p.Entered unseen t) : ∃ name, Relation.TransGen p.Part (.named name) (.named name) := by
  induction h with
  | int hx => exact absurd hx Leaf.endless_notMem_ofInt
  | element _ ih => exact ih (he.part .element)
  | field hs _ ih => exact ih (he.part (.field (List.mem_of_getElem? hs)))
  | body hfields _ hs _ ih => exact ih (he.body hfields (List.mem_of_getElem? hs))
  | @again _ _ name _ hfields hseen => exact ⟨name, he name (by simp [hfields]) hseen⟩

/-- In a program without types that contain themselves, parts of parts of a type come to an end. -/
theorem IsFinite.acc (h : p.IsFinite) (t : Ty) : Acc p.Part t := by
  have hall : .error .endless ∉ p.zeroLeaves (p.structs.map StructDecl.name) none t := by
    intro hend
    obtain ⟨name, hname⟩ := (mem_zeroLeaves_iff.1 hend).exists_cycle (entered_all t)
    exact h name hname
  exact acc_of_zeroLeaves hall

end Program

/-! ## Seeding -/

namespace RangeTable

variable {ι : Type} [DecidableEq ι] {t u : RangeTable ι} {ids : ι → Prop} {b : Bool} {id : ι}
variable {r : Range} {x : Nat}

/-- An integer is in the range that is stored for an id, at the width of this range. -/
def Has (t : RangeTable ι) (id : ι) (v : Int) : Prop :=
  ∃ r, t.get? id = some r ∧ r.width.wrap v ∈ r

theorem Has.union {v : Int} (h : t.Has id v) (id' : ι) (r : Range) :
    (t.union id' r).1.Has id v := by
  obtain ⟨old, hold, hv⟩ := h
  unfold Has
  rw [get?_union]
  split
  · rename_i hid
    rw [← hid.1]
    have hwithin := isWithin_joined (r := r) hold
    exact ⟨_, rfl, hwithin.1 ▸ hwithin.2 _ hv⟩
  · exact ⟨old, hold, hv⟩

/-- After the union the id has the words of the range. -/
theorem has_union (t : RangeTable ι) (id : ι) (hx : x ∈ r) : (t.union id r).1.Has id x := by
  unfold Has
  rw [get?_union, if_pos ⟨rfl, Range.not_isEmpty_of_mem hx⟩]
  exact ⟨_, rfl, wrap_mem_joined hx⟩

theorem Grows.has (h : t.Grows ids b u) {v : Int} (hv : t.Has id v) : u.Has id v := by
  induction h with
  | refl => exact hv
  | offer r _ _ ih => exact ih.union _ r

end RangeTable

namespace Sweep

variable {e : Env} {s t : State} {ks : List (Except Fault Leaf)} {a : Unit}

/-- Leaves are put into the table at their ids, and nothing else is; none is a fault. -/
theorem seedLeaves_eq_ok {ids : String → Prop} (hids : ∀ leaf, .ok leaf ∈ ks → ids leaf.location.id)
    (hrun : (ks.forM seedLeaf).run s = .ok a t) :
    (∃ b, s.table.Grows ids b t.table) ∧
    ∀ k ∈ ks, ∃ leaf, k = .ok leaf ∧ ∀ x ∈ leaf.range, t.table.Has leaf.location.id x := by
  induction ks generalizing s with
  | nil =>
    obtain ⟨-, rfl⟩ := run_pure_eq_ok.1 hrun
    exact ⟨⟨_, .refl _⟩, fun k hk ↦ absurd hk List.not_mem_nil⟩
  | cons k ks ih =>
    obtain ⟨_, u, hfirst, hrest⟩ := run_bind_eq_ok.1 hrun
    obtain ⟨leaf, rfl, hu⟩ := run_seedLeaf_eq_ok hfirst
    obtain ⟨⟨b, hgrows⟩, hall⟩ := ih (fun leaf h ↦ hids leaf (List.mem_cons_of_mem _ h)) hrest
    rw [hu] at hgrows
    refine ⟨⟨_, .trans (.offer leaf.range (.refl _) (hids leaf List.mem_cons_self)) hgrows⟩, ?_⟩
    refine List.forall_mem_cons.2 ⟨⟨leaf, rfl, fun x hx ↦ ?_⟩, hall⟩
    exact hgrows.has (RangeTable.has_union _ _ hx)

/-- Leaves of short integers can be put into a table of short ranges, if warnings do not end the
run. -/
theorem exists_seedLeaves (hks : ∀ k ∈ ks, ∃ leaf, k = .ok leaf ∧ leaf.range.width.isShort = true)
    (hmode : s.log.mode ≠ .strict)
    (htable : ∀ id r, s.table.get? id = some r → r.width.isShort = true) :
    ∃ t, (ks.forM seedLeaf).run s = .ok () t := by
  induction ks generalizing s with
  | nil => exact ⟨s, rfl⟩
  | cons k ks ih =>
    obtain ⟨⟨leaf, rfl, hshort⟩, hrest⟩ := List.forall_mem_cons.1 hks
    obtain ⟨log, hlog⟩ :
        ∃ log, s.table.logUpdate s.log leaf.location.id leaf.range none = .ok log :=
      exists_logUpdate hmode htable hshort (by rintro o ⟨⟩)
    have hmode : log.mode ≠ .strict := RangeTable.mode_logUpdate hlog ▸ hmode
    let u : State :=
      { s with table := (s.table.union leaf.location.id leaf.range).1, log := log }
    have hfirst : (seedLeaf (.ok leaf)).run s = .ok () u :=
      run_bind_eq_ok.2 ⟨leaf, s, run_ofExcept_eq_ok.2 ⟨rfl, rfl⟩,
        run_bind_eq_ok.2 ⟨_, _, run_offer_eq_ok.2 ⟨log, hlog, rfl, rfl⟩, rfl⟩⟩
    obtain ⟨t, ht⟩ := ih (s := u) hrest hmode (isShort_union htable hshort)
    exact ⟨t, run_bind_eq_ok.2 ⟨_, _, hfirst, ht⟩⟩

/-- **Seeding** an empty table: if it returns, every integer that memory starts with is in the range
of its id, and every id is that of such an integer.  It returns if no struct type is within itself,
the integers of global variables are short, and warnings do not end the run. -/
theorem seed_covers (hempty : s.table.ids = []) :
    (∀ t, (seed e).run s = .ok () t →
      (∀ l w v, e.program.StartsWith (some l) w v → t.table.Has l.id (w.wrap v)) ∧
      ∀ id ∈ t.table.ids, ∃ l w v, e.program.StartsWith (some l) w v ∧ id = l.id) ∧
    (e.program.IsFinite →
      (∀ g ∈ e.program.globals, ∀ w, Relation.ReflTransGen e.program.Part (.int w) g.ty →
        w.isShort = true) →
      s.log.mode ≠ .strict → ∃ t, (seed e).run s = .ok () t) := by
  rw [seed_eq]
  constructor
  · intro t hrun
    let ids (id : String) : Prop := ∃ l w v, e.program.StartsWith (some l) w v ∧ id = l.id
    have hids (leaf : Leaf) (hleaf : .ok leaf ∈ e.program.leaves) : ids leaf.location.id := by
      obtain ⟨w, v, hstart, -⟩ := Program.startsWith_of_mem_leaves hleaf
      exact ⟨leaf.location, w, v, hstart, rfl⟩
    obtain ⟨⟨b, hgrows⟩, hall⟩ := seedLeaves_eq_ok hids hrun
    constructor
    · intro l w v hstart
      obtain ⟨k, hk, heq⟩ := hstart.isMet_leaves
      obtain ⟨leaf, rfl, hhas⟩ := hall k hk
      obtain rfl := heq leaf rfl
      exact hhas _ (Range.mem_singleton.2 rfl)
    · intro id hid
      rcases hgrows.mem_ids hid with hid | hid
      · rw [hempty] at hid
        exact absurd hid List.not_mem_nil
      · exact hid
  · intro hfinite hshort hmode
    refine exists_seedLeaves (fun k hk ↦ ?_) hmode fun id r hr ↦ ?_
    · obtain ⟨g, hg, -, c, -, hx⟩ := mem_leaves_iff.1 hk
      obtain ⟨w, hw, l, v, hint⟩ :=
        Program.exists_int_of_mem_constantLeaves (fun u _ ↦ hfinite.acc u) hx
      have hw := hshort g hg w hw
      obtain ⟨leaf, rfl, rfl⟩ := hint.elim (exists_leaf_of_ofInt hw) (exists_leaf_of_ofWritten hw)
      exact ⟨leaf, rfl, hw⟩
    · have hid := RangeTable.mem_ids_iff.2 ⟨r, hr⟩
      rw [hempty] at hid
      exact absurd hid List.not_mem_nil

/-! ## Records of one type -/

open Width (byte word)

/-- Two records of one type, one of them the zero of an array, and a compiler's own constant. -/
def recordProgram : Program where
  structs := [⟨"s", some [.int byte, .array 2 (.int word)]⟩]
  globals := [⟨"g", .named "s", some (.struct [.int 300, .array [.int 1, .int (-1)]])⟩,
    ⟨"h", .array 2 (.named "s"), some .zero⟩, ⟨".k", .int byte, some (.int 7)⟩]
  functions := []

def recordEnv : Env := .ofProgram recordProgram ⟨3, none, [], by decide⟩

/-- No record contains itself here. -/
theorem isFinite_recordProgram : recordProgram.IsFinite := by
  intro name
  refine Program.not_transGen_of_acc ⟨_, fun t ht ↦ ?_⟩
  cases ht with
  | body hfields ht =>
    obtain ⟨d, hd, hfields⟩ := Option.bind_eq_some_iff.1 hfields
    obtain rfl := List.mem_singleton.1 (List.mem_of_find?_eq_some hd)
    cases hfields
    have hint (w : Width) : Acc recordProgram.Part (.int w) := ⟨_, fun _ h ↦ nomatch h⟩
    simp only [List.mem_cons, List.not_mem_nil, or_false] at ht
    rcases ht with rfl | rfl
    · exact hint byte
    · refine ⟨_, fun s hs ↦ ?_⟩
      cases hs
      exact hint word

/-- What the fields of the records start with is in their ranges, reduced to the width of the field.
-/
theorem seed_covers_records :
    ∃ t, (seed recordEnv).run (.start recordEnv.settings .always) = .ok () t ∧
      recordProgram.StartsWith (some (.field "s" 0)) byte 300 ∧ t.table.Has "s.0" 44 ∧
      recordProgram.StartsWith (some (.field "s" 1)) word (-1) ∧ t.table.Has "s.1" 65535 ∧
      ∀ id ∈ t.table.ids, ∃ l w v, recordProgram.StartsWith (some l) w v ∧ id = l.id := by
  have hempty : (State.start recordEnv.settings .always).table.ids = [] := rfl
  obtain ⟨hcovers, hreturns⟩ := seed_covers (e := recordEnv) hempty
  have hisShort : recordProgram.isShort = true := by decide +kernel
  have hshort : ∀ g ∈ recordProgram.globals, ∀ w,
      Relation.ReflTransGen recordProgram.Part (.int w) g.ty → w.isShort = true := by
    intro g hg w hw
    exact Program.isShort_of_reflTransGen hisShort hg hw
  have hmode : (State.start recordEnv.settings .always).log.mode ≠ .strict := by decide
  obtain ⟨t, ht⟩ := hreturns isFinite_recordProgram hshort hmode
  obtain ⟨hall, hids⟩ := hcovers t ht
  have hname : "g".startsWith "." = false := by simp
  have hfirst : recordProgram.StartsWith (some (.field "s" 0)) byte 300 :=
    ⟨_, List.mem_cons_self, hname, _, rfl, .field (n := 0) rfl rfl rfl .int⟩
  have hsecond : recordProgram.StartsWith (some (.field "s" 1)) word (-1) :=
    ⟨_, List.mem_cons_self, hname, _, rfl,
      .field (n := 1) rfl rfl rfl (.element (c := .int (-1)) (by decide) .int)⟩
  exact ⟨t, ht, hfirst, hall _ _ _ hfirst, hsecond, hall _ _ _ hsecond, hids⟩

end Sweep

end RangeFlow
