/-! # Maps that remember the order of insertion

The view of a map is `get?` together with `keys`: an insertion changes the value of one key, and
leaves the order of the keys that were present. -/

namespace RangeFlow

/-- A finite map listed in the order in which its keys were first added. -/
structure OrderedMap (κ α : Type) where
  entries : List (κ × α)
  nodup : (entries.map Prod.fst).Nodup
deriving DecidableEq, Repr

namespace OrderedMap

variable {κ α : Type} [DecidableEq κ]

def empty : OrderedMap κ α := ⟨[], List.nodup_nil⟩

instance : EmptyCollection (OrderedMap κ α) := ⟨empty⟩

instance : Inhabited (OrderedMap κ α) := ⟨empty⟩

def keys (m : OrderedMap κ α) : List κ := m.entries.map Prod.fst

def get? (m : OrderedMap κ α) (k : κ) : Option α :=
  (m.entries.find? fun e => decide (e.1 = k)).map Prod.snd

def contains (m : OrderedMap κ α) (k : κ) : Bool := decide (k ∈ m.keys)

def size (m : OrderedMap κ α) : Nat := m.entries.length

/-- The entries with the value of one key replaced. -/
def replaceIn (k : κ) (a : α) (es : List (κ × α)) : List (κ × α) :=
  es.map fun e => if e.1 = k then (k, a) else e

theorem keys_replaceIn (k : κ) (a : α) (es : List (κ × α)) :
    (replaceIn k a es).map Prod.fst = es.map Prod.fst := by
  induction es with
  | nil => rfl
  | cons e es ih =>
    simp only [replaceIn, List.map_cons] at ih ⊢
    rw [ih]
    by_cases h : e.1 = k <;> simp [h]

/-- Sets the value of a key: in its place if the key is present, else at the end. -/
def insert (m : OrderedMap κ α) (k : κ) (a : α) : OrderedMap κ α :=
  if h : k ∈ m.keys then ⟨replaceIn k a m.entries, by rw [keys_replaceIn]; exact m.nodup⟩
  else ⟨m.entries ++ [(k, a)], by
    rw [List.map_append, List.nodup_append]
    refine ⟨m.nodup, by simp, ?_⟩
    intro x hx y hy e
    simp only [List.map_cons, List.map_nil, List.mem_singleton] at hy
    exact h (hy ▸ e ▸ hx)⟩

def insertAll (m : OrderedMap κ α) (es : List (κ × α)) : OrderedMap κ α :=
  es.foldl (fun m e => m.insert e.1 e.2) m

def ofList (es : List (κ × α)) : OrderedMap κ α := empty.insertAll es

def filter (p : κ × α → Bool) (m : OrderedMap κ α) : OrderedMap κ α :=
  ⟨m.entries.filter p, m.nodup.sublist (List.filter_sublist.map Prod.fst)⟩

def modify (m : OrderedMap κ α) (k : κ) (f : α → α) : OrderedMap κ α :=
  match m.get? k with
  | some a => m.insert k (f a)
  | none => m

@[simp] theorem get?_empty (k : κ) : (∅ : OrderedMap κ α).get? k = none := rfl

omit [DecidableEq κ] in
@[simp] theorem keys_empty : (∅ : OrderedMap κ α).keys = [] := rfl

theorem get?_isSome_iff {m : OrderedMap κ α} {k : κ} : (m.get? k).isSome ↔ k ∈ m.keys := by
  unfold get? keys
  rw [Option.isSome_map, List.find?_isSome]
  simp

theorem get?_eq_none_iff {m : OrderedMap κ α} {k : κ} : m.get? k = none ↔ k ∉ m.keys := by
  rw [← get?_isSome_iff]
  cases m.get? k <;> simp

/-- A key that is present keeps its place; a new one goes to the end. -/
theorem keys_insert (m : OrderedMap κ α) (k : κ) (a : α) :
    (m.insert k a).keys = if k ∈ m.keys then m.keys else m.keys ++ [k] := by
  unfold insert
  split
  · exact keys_replaceIn k a m.entries
  · exact List.map_append

/-- A key that is present is found with its new value. -/
theorem find?_replaceIn_self {k : κ} {es : List (κ × α)} (a : α) (h : k ∈ es.map Prod.fst) :
    (replaceIn k a es).find? (fun e => decide (e.1 = k)) = some (k, a) := by
  induction es with
  | nil => simp at h
  | cons e es ih =>
    by_cases he : e.1 = k
    · simp [replaceIn, he]
    · have h' : k ∈ es.map Prod.fst := by
        simp only [List.map_cons, List.mem_cons] at h
        exact h.resolve_left fun c => he c.symm
      simpa [replaceIn, he] using ih h'

theorem find?_replaceIn_of_ne {k j : κ} (es : List (κ × α)) (a : α) (h : j ≠ k) :
    (replaceIn k a es).find? (fun e => decide (e.1 = j)) =
      es.find? fun e => decide (e.1 = j) := by
  induction es with
  | nil => rfl
  | cons e es ih =>
    simp only [replaceIn, List.map_cons] at ih ⊢
    by_cases he : e.1 = k
    · have hk : k ≠ j := fun c => h c.symm
      simp [he, hk, ih]
    · simp [he, List.find?_cons, ih]

@[simp] theorem get?_insert_self (m : OrderedMap κ α) (k : κ) (a : α) :
    (m.insert k a).get? k = some a := by
  unfold insert get?
  split
  · rename_i h
    simp [find?_replaceIn_self a h]
  · rename_i h
    have hnone : m.entries.find? (fun e => decide (e.1 = k)) = none := by
      simpa [get?] using get?_eq_none_iff.2 h
    simp [List.find?_append, hnone]

theorem get?_insert_of_ne (m : OrderedMap κ α) {k j : κ} (a : α) (h : j ≠ k) :
    (m.insert k a).get? j = m.get? j := by
  unfold insert get?
  split
  · rw [find?_replaceIn_of_ne m.entries a h]
  · have hk : k ≠ j := fun c => h c.symm
    simp [List.find?_append, hk]

theorem get?_insert (m : OrderedMap κ α) (k j : κ) (a : α) :
    (m.insert k a).get? j = if j = k then some a else m.get? j := by
  split
  · rename_i h
    rw [h, get?_insert_self]
  · rename_i h
    exact get?_insert_of_ne m a h

theorem mem_keys_insert {m : OrderedMap κ α} {k j : κ} {a : α} :
    j ∈ (m.insert k a).keys ↔ j ∈ m.keys ∨ j = k := by
  rw [keys_insert]
  split
  · rename_i h
    constructor
    · exact .inl
    · rintro (h' | rfl)
      · exact h'
      · exact h
  · simp

@[simp] theorem insertAll_nil (m : OrderedMap κ α) : m.insertAll [] = m := rfl

@[simp] theorem insertAll_cons (m : OrderedMap κ α) (e : κ × α) (es : List (κ × α)) :
    m.insertAll (e :: es) = (m.insert e.1 e.2).insertAll es := rfl

/-- The keys after an insertion of entries are the old ones and those of the entries. -/
theorem mem_keys_insertAll {m : OrderedMap κ α} {es : List (κ × α)} {k : κ} :
    k ∈ (m.insertAll es).keys ↔ k ∈ m.keys ∨ k ∈ es.map Prod.fst := by
  induction es generalizing m with
  | nil => simp
  | cons e es ih => simp [ih, mem_keys_insert, or_assoc]

/-- A value found after an insertion of entries was there before or is one of theirs. -/
theorem get?_insertAll_cases {m : OrderedMap κ α} {es : List (κ × α)} {k : κ} {a : α}
    (h : (m.insertAll es).get? k = some a) : m.get? k = some a ∨ (k, a) ∈ es := by
  induction es generalizing m with
  | nil => exact .inl h
  | cons e es ih =>
    rw [insertAll_cons] at h
    rcases ih h with h | h
    · rw [get?_insert] at h
      split at h
      · rename_i hk
        cases h
        exact .inr (by simp [hk])
      · exact .inl h
    · exact .inr (List.mem_cons_of_mem e h)

end OrderedMap

end RangeFlow
