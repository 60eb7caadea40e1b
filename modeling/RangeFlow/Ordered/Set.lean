import Std.Data.HashSet

/-! # Sets that remember the order of insertion -/

namespace RangeFlow

/-- A finite set listed in the order in which its elements were first added. -/
structure OrderedSet (α : Type) where
  toList : List α
  nodup : toList.Nodup
deriving DecidableEq, Repr

namespace OrderedSet

variable {α : Type} [DecidableEq α]

def empty : OrderedSet α := ⟨[], List.nodup_nil⟩

instance : EmptyCollection (OrderedSet α) := ⟨empty⟩

instance : Inhabited (OrderedSet α) := ⟨empty⟩

instance : Membership α (OrderedSet α) := ⟨fun s x => x ∈ s.toList⟩

instance (x : α) (s : OrderedSet α) : Decidable (x ∈ s) :=
  inferInstanceAs (Decidable (x ∈ s.toList))

/-- Adds an element at the end; one that is present keeps its place. -/
def insert (s : OrderedSet α) (x : α) : OrderedSet α :=
  if h : x ∈ s.toList then s
  else ⟨s.toList ++ [x], by
    rw [List.nodup_append]
    exact ⟨s.nodup, by simp, by
      intro a ha b hb e
      simp only [List.mem_singleton] at hb
      exact h (hb ▸ e ▸ ha)⟩⟩

def insertAll (s : OrderedSet α) (xs : List α) : OrderedSet α := xs.foldl insert s

def ofList (xs : List α) : OrderedSet α := empty.insertAll xs

def erase (s : OrderedSet α) (x : α) : OrderedSet α :=
  ⟨s.toList.erase x, s.nodup.erase x⟩

/-- The element added first. -/
def first? (s : OrderedSet α) : Option α := s.toList.head?

/-- The element added last, and the set without it. -/
def pop? (s : OrderedSet α) : Option (α × OrderedSet α) :=
  s.toList.getLast?.map fun x => (x, s.erase x)

def size (s : OrderedSet α) : Nat := s.toList.length

def filter (p : α → Bool) (s : OrderedSet α) : OrderedSet α :=
  ⟨s.toList.filter p, s.nodup.filter p⟩

/-- The elements that are in every one of the other sets. -/
def inter (s : OrderedSet α) (others : List (OrderedSet α)) : OrderedSet α :=
  s.filter fun x => others.all fun t => decide (x ∈ t)

/-- The elements that are in another set too, which is indexed first. -/
def meet [Hashable α] (s t : OrderedSet α) : OrderedSet α :=
  let index := Std.HashSet.ofList t.toList
  s.filter index.contains

/-- Equality of the members, whatever their order. -/
def sameMembers (s t : OrderedSet α) : Bool :=
  s.size == t.size && s.toList.all fun x => decide (x ∈ t)

def text (item : α → String) (s : OrderedSet α) : String :=
  "\x7b" ++ ", ".intercalate (s.toList.map item) ++ "\x7d"

omit [DecidableEq α] in
theorem mem_toList {x : α} {s : OrderedSet α} : x ∈ s.toList ↔ x ∈ s := Iff.rfl

omit [DecidableEq α] in
@[simp] theorem notMem_empty (x : α) : x ∉ (∅ : OrderedSet α) := List.not_mem_nil

@[simp] theorem mem_insert {x y : α} {s : OrderedSet α} : x ∈ s.insert y ↔ x ∈ s ∨ x = y := by
  simp only [← mem_toList, insert]
  split
  · rename_i h
    constructor
    · exact .inl
    · rintro (hx | rfl)
      · exact hx
      · exact h
  · simp

/-- An insertion of elements adds these and no others. -/
theorem mem_insertAll {s : OrderedSet α} {xs : List α} {x : α} :
    x ∈ s.insertAll xs ↔ x ∈ s ∨ x ∈ xs := by
  induction xs generalizing s with
  | nil => simp [insertAll]
  | cons y xs ih =>
    rw [insertAll, List.foldl_cons, ← insertAll, ih]
    simp [or_assoc]

theorem mem_ofList {xs : List α} {x : α} : x ∈ ofList xs ↔ x ∈ xs := by
  rw [ofList, mem_insertAll]
  exact or_iff_right (notMem_empty x)

theorem mem_erase {s : OrderedSet α} {x y : α} : x ∈ s.erase y ↔ x ≠ y ∧ x ∈ s :=
  s.nodup.mem_erase_iff

theorem size_erase_lt {s : OrderedSet α} {x : α} (h : x ∈ s) : (s.erase x).size < s.size := by
  unfold size erase
  rw [List.length_erase_of_mem h]
  exact Nat.sub_one_lt_of_lt (List.length_pos_of_mem h)

/-- What is popped is a member, and it alone is taken away. -/
theorem pop?_eq_some {s rest : OrderedSet α} {x : α} (h : s.pop? = some (x, rest)) :
    x ∈ s ∧ rest = s.erase x := by
  obtain ⟨y, hy, heq⟩ := Option.map_eq_some_iff.1 h
  cases heq
  exact ⟨List.mem_of_getLast? hy, rfl⟩

/-- Only from the empty set nothing can be popped. -/
theorem pop?_eq_none {s : OrderedSet α} : s.pop? = none ↔ s = ∅ := by
  rw [pop?, Option.map_eq_none_iff, List.getLast?_eq_none_iff]
  constructor
  · intro h
    cases s
    cases h
    rfl
  · rintro rfl
    rfl

/-- An index changes nothing. -/
theorem meet_eq_inter [Hashable α] (s t : OrderedSet α) : s.meet t = s.inter [t] := by
  have h : (Std.HashSet.ofList t.toList).contains = fun x => [t].all fun u => decide (x ∈ u) := by
    funext x
    simp [Std.HashSet.contains_ofList, ← mem_toList]
  exact congrArg (fun p => s.filter p) h

theorem mem_meet [Hashable α] {s t : OrderedSet α} {x : α} : x ∈ s.meet t ↔ x ∈ s ∧ x ∈ t := by
  rw [meet_eq_inter]
  simp [inter, filter, ← mem_toList]

omit [DecidableEq α] in
/-- A set that lacks a member of another one, and has no members but the other's, is smaller. -/
theorem size_lt_of_notMem {s t : OrderedSet α} (hsub : ∀ x ∈ t, x ∈ s) {x : α} (hx : x ∈ s)
    (hxt : x ∉ t) : t.size < s.size := by
  have hnodup : (x :: t.toList).Nodup := List.nodup_cons.2 ⟨hxt, t.nodup⟩
  refine hnodup.length_le_of_subset fun y hy => ?_
  rcases List.mem_cons.1 hy with rfl | hy
  · exact hx
  · exact hsub y hy

/-- The test of sizes and of one inclusion decides equality of the members. -/
theorem sameMembers_iff {s t : OrderedSet α} :
    s.sameMembers t = true ↔ ∀ x, x ∈ s ↔ x ∈ t := by
  have hall : s.sameMembers t = true ↔ s.size = t.size ∧ ∀ x ∈ s, x ∈ t := by
    simp [sameMembers, ← mem_toList]
  rw [hall]
  constructor
  · rintro ⟨hsize, hsub⟩ x
    refine ⟨hsub x, fun hx => Decidable.by_contra fun hxs => ?_⟩
    exact absurd (size_lt_of_notMem hsub hx hxs) (Nat.not_lt.2 (Nat.le_of_eq hsize.symm))
  · intro h
    refine ⟨Nat.le_antisymm ?_ ?_, fun x => (h x).1⟩
    · exact s.nodup.length_le_of_subset fun x => (h x).1
    · exact t.nodup.length_le_of_subset fun x => (h x).2

/-- A set that has lost members is smaller. -/
theorem size_lt_of_not_sameMembers {s t : OrderedSet α} (hsub : ∀ x ∈ t, x ∈ s)
    (h : ¬s.sameMembers t = true) : t.size < s.size := by
  have hlost : ∃ x ∈ s, x ∉ t := by
    refine Decidable.by_contra fun hnone => h (sameMembers_iff.2 fun x => ⟨fun hx => ?_, hsub x⟩)
    exact Decidable.by_contra fun hxt => hnone ⟨x, hx, hxt⟩
  obtain ⟨x, hx, hxt⟩ := hlost
  exact size_lt_of_notMem hsub hx hxt

end OrderedSet

end RangeFlow
