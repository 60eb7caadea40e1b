import Mathlib.Data.List.DropRight
import RangeFlow.Proofs.Range.Resize
import RangeFlow.Proofs.Table.Growth

/-!
# What every history of a table keeps

A history is any sequence of calls from an empty table, some of which may raise.  One call only lets
the ranges of the ids it names grow (`TableCall.Keeps`); from this it follows what a table holds
after a whole history (`RangeTable.Records`).
-/

namespace RangeFlow

namespace Range

variable {a b c : Range}

/-- Every member of `a` is one of `b`, at the same width. -/
def IsWithin (a b : Range) : Prop := a.width = b.width ∧ ∀ x ∈ a, x ∈ b

theorem IsWithin.refl (a : Range) : a.IsWithin a := ⟨rfl, fun _ h ↦ h⟩

/-- A range around another one is larger unless it is the same. -/
theorem IsWithin.exists_notMem (h : a.IsWithin b) (hne : a ≠ b) : ∃ x ∈ b, x ∉ a := by
  by_contra hall
  refine hne (eq_of_mem_iff h.1 fun x ↦ ⟨h.2 x, fun hx ↦ ?_⟩)
  by_contra hxa
  exact hall ⟨x, hx, hxa⟩

theorem IsWithin.isEmpty_eq_false (h : a.IsWithin b) (ha : a.isEmpty = false) :
    b.isEmpty = false :=
  not_isEmpty_of_mem (h.2 a.lower (lower_mem ha))

/-- Every range lies within the full one of its width. -/
theorem isWithin_full (a : Range) : a.IsWithin (full a.width) :=
  ⟨rfl, fun _ hx ↦ mem_full.2 (lt_card_of_mem hx)⟩

end Range

/-! ## Calls -/

/-- A call to a table.  With a union goes what has been logged before it, and where it comes
from. -/
inductive TableCall (ι : Type)
  | union (id : ι) (range : Range) (log : Log) (origin : Option Origin)
  | setFull (id : ι)
  | widen (ids : List ι)
  | clearChanges

/-- How a call ends: a union tells whether the range grew. -/
inductive Reply
  | grew (grew : Bool)
  | done
  | raised
deriving DecidableEq

namespace TableCall

variable {ι : Type}

def ids : TableCall ι → List ι
  | .union id _ _ _ | .setFull id => [id]
  | .widen ids => ids
  | .clearChanges => []

variable [DecidableEq ι] [Labelled ι]

/-- How a call ends, and the table after it. -/
def run (t : RangeTable ι) : TableCall ι → Reply × RangeTable ι
  | .union id r log origin =>
    match t.offer log id r origin with
    | .ok (grew, u, _) => (.grew grew, u)
    | .error _ => (.raised, t)
  | .setFull id =>
    match t.setFull? id with
    | some u => (.done, u)
    | none => (.raised, t)
  | .widen ids => (.done, t.widen ids)
  | .clearChanges => (.done, t.clearChanges)

/-- What one call does to a table: ranges grow at their width, and only those of the ids that it
names; a union tells whether the range grew, and adds what it is given; a call that raises changes
nothing. -/
structure Keeps (c : TableCall ι) (t : RangeTable ι) (reply : Reply) (u : RangeTable ι) : Prop where
  grows : ∀ id old, t.get? id = some old → ∃ new, u.get? id = some new ∧ old.IsWithin new
  order : t.ids <+: u.ids
  named : ∀ id ∉ c.ids, u.get? id = t.get? id
  answers : ∀ id r log origin grew, c = .union id r log origin → reply = .grew grew →
    (grew = true ↔ (t.get? id = none ∧ r.isEmpty = false) ∨
      ∃ old new, t.get? id = some old ∧ u.get? id = some new ∧ old.IsWithin new ∧
        ∃ x ∈ new, x ∉ old) ∧
    (r.isEmpty = false → ∃ s, u.get? id = some s ∧ ∀ x ∈ r, s.width.wrap x ∈ s)
  raised : reply = .raised → u.ranges = t.ranges ∧ u.changes = t.changes

end TableCall

/-! ## One union -/

namespace RangeTable

variable {ι : Type} [DecidableEq ι] {t u : RangeTable ι} {id id' : ι} {r old : Range} {x : Nat}

theorem joined_eq_of_none (h : t.get? id = none) : t.joined id r = r := by
  rw [joined, h]
  rfl

/-- A joined range contains the one that was stored. -/
theorem isWithin_joined (h : t.get? id = some old) : old.IsWithin (t.joined id r) := by
  have hw : old.width = (old.conform r).width := (Range.width_conform old r).symm
  rw [joined, h]
  exact ⟨(Range.width_union hw).symm, fun x hx ↦ Range.mem_union hw (.inl hx)⟩

/-- What is joined to a range is found there at its width. -/
theorem wrap_mem_joined (hx : x ∈ r) : (t.joined id r).width.wrap x ∈ t.joined id r := by
  cases h : t.get? id with
  | none =>
    rw [joined_eq_of_none h, r.width.wrap_natCast_of_lt (Range.lt_card_of_mem hx)]
    exact hx
  | some old =>
    rw [← (isWithin_joined h).1, joined, h]
    exact Range.mem_union (Range.width_conform old r).symm (.inr (Range.wrap_mem_conform hx))

/-- A union stores the joined range of its id, unless it is given nothing. -/
theorem get?_union (t : RangeTable ι) (id id' : ι) (r : Range) :
    (t.union id r).1.get? id' =
      if id' = id ∧ r.isEmpty = false then some (t.joined id r) else t.get? id' := by
  rcases t.union_cases id r with ⟨hu, he | hj⟩ | ⟨hu, hr, -⟩
  · rw [hu, if_neg fun h ↦ by rw [he] at h; cases h.2]
  · rw [hu]
    split
    · rename_i h
      rw [h.1, hj]
    · rfl
  · rw [hu]
    simp only [get?, OrderedMap.get?_insert, hr, and_true]

/-- A union tells that the range grew if it is given something and stores another range. -/
theorem union_grew_iff : (t.union id r).2 = true ↔
    r.isEmpty = false ∧ t.get? id ≠ some (t.joined id r) := by
  rcases t.union_cases id r with ⟨hu, h⟩ | ⟨hu, h⟩
  · rw [hu]
    refine iff_of_false Bool.false_ne_true fun hc ↦ ?_
    rcases h with he | hj
    · rw [he] at hc
      cases hc.1
    · exact hc.2 hj
  · rw [hu]
    exact iff_of_true rfl h

/-- A union tells of growth when the id is new or its range gets another member. -/
theorem union_grew_iff_exists : (t.union id r).2 = true ↔
    (t.get? id = none ∧ r.isEmpty = false) ∨
      ∃ old new, t.get? id = some old ∧ (t.union id r).1.get? id = some new ∧ old.IsWithin new ∧
        ∃ x ∈ new, x ∉ old := by
  rw [union_grew_iff]
  constructor
  · rintro ⟨hr, hne⟩
    cases h : t.get? id with
    | none => exact .inl ⟨rfl, hr⟩
    | some old =>
      have hwithin := isWithin_joined (r := r) h
      have hnew : old ≠ t.joined id r := fun heq ↦ hne (by rw [h, ← heq])
      refine .inr ⟨old, t.joined id r, rfl, ?_, hwithin, hwithin.exists_notMem hnew⟩
      rw [get?_union, if_pos ⟨rfl, hr⟩]
  · rintro (⟨hnone, hr⟩ | ⟨old, new, hold, hnew, -, x, hx, hxold⟩)
    · refine ⟨hr, fun h ↦ ?_⟩
      rw [hnone] at h
      cases h
    · rw [get?_union] at hnew
      split at hnew
      · rename_i hr
        refine ⟨hr.2, fun h ↦ hxold ?_⟩
        rw [h] at hold
        cases hold
        cases hnew
        exact hx
      · rw [hold] at hnew
        cases hnew
        exact absurd hx hxold

/-- A union that tells of growth adds its id to the changes. -/
theorem changes_union (t : RangeTable ι) (id : ι) (r : Range) :
    (t.union id r).1.changes = if (t.union id r).2 then t.changes.insert id else t.changes := by
  rcases t.union_cases id r with ⟨hu, -⟩ | ⟨hu, -⟩ <;> rw [hu] <;> rfl

/-- A union keeps the order of the ids, and adds at most one at the end. -/
theorem ids_union (t : RangeTable ι) (id : ι) (r : Range) : t.ids <+: (t.union id r).1.ids := by
  rcases t.union_cases id r with ⟨hu, -⟩ | ⟨hu, -⟩
  · rw [hu]
  · rw [hu, ids, ids, OrderedMap.keys_insert]
    split
    · exact List.prefix_refl _
    · exact List.prefix_append _ _

variable [Labelled ι]

/-- An offer that is logged without a failure does what a union does. -/
theorem union_of_offer {log log' : Log} {origin : Option Origin} {grew : Bool}
    (h : t.offer log id r origin = .ok (grew, u, log')) : t.union id r = (u, grew) := by
  unfold offer at h
  cases hlog : t.logUpdate log id r origin with
  | error e =>
    rw [hlog] at h
    cases h
  | ok log'' =>
    rw [hlog] at h
    cases h
    rfl

end RangeTable

/-! ## One call -/

namespace TableCall

variable {ι : Type} [DecidableEq ι]

/-- A call that leaves the table alone keeps it, unless it tells of growth. -/
theorem keeps_refl (c : TableCall ι) (t : RangeTable ι) {reply : Reply}
    (hreply : ∀ grew, reply ≠ .grew grew) : c.Keeps t reply t where
  grows _ old h := ⟨old, h, .refl old⟩
  order := List.prefix_refl _
  named _ _ := rfl
  answers _ _ _ _ grew _ h := absurd h (hreply grew)
  raised _ := ⟨rfl, rfl⟩

/-- Ranges that become every word of their width. -/
theorem keeps_widen {c : TableCall ι} {t u : RangeTable ι} (hids : u.ids = t.ids)
    (hget : ∀ id, u.get? id =
      if id ∈ c.ids then (t.get? id).map fun r ↦ .full r.width else t.get? id) :
    c.Keeps t .done u where
  grows id old h := by
    rw [hget]
    split
    · exact ⟨.full old.width, by rw [h]; rfl, Range.isWithin_full old⟩
    · exact ⟨old, h, .refl old⟩
  order := by rw [hids]
  named id hid := by rw [hget, if_neg hid]
  answers _ _ _ _ _ _ h := nomatch h
  raised h := nomatch h

variable [Labelled ι] {t u : RangeTable ι} {id : ι} {r : Range} {log log' : Log}
  {origin : Option Origin} {grew : Bool}

theorem run_union_of_ok (h : t.offer log id r origin = .ok (grew, u, log')) :
    (TableCall.union id r log origin).run t = (.grew grew, u) := by
  rw [run, h]

theorem run_union_of_error {e : Fault} (h : t.offer log id r origin = .error e) :
    (TableCall.union id r log origin).run t = (.raised, t) := by
  rw [run, h]

/-- A union keeps the table: one range grows at its width. -/
theorem keeps_union (h : t.offer log id r origin = .ok (grew, u, log')) :
    (TableCall.union id r log origin).Keeps t (.grew grew) u := by
  have hu := RangeTable.union_of_offer h
  obtain rfl : (t.union id r).1 = u := by rw [hu]
  obtain rfl : (t.union id r).2 = grew := by rw [hu]
  refine ⟨fun id' old hold ↦ ?_, t.ids_union id r, fun id' hid ↦ ?_, ?_, ?_⟩
  · rw [RangeTable.get?_union]
    split
    · rename_i hid
      obtain ⟨rfl, -⟩ := hid
      exact ⟨_, rfl, RangeTable.isWithin_joined hold⟩
    · exact ⟨old, hold, .refl old⟩
  · rw [RangeTable.get?_union, if_neg fun h ↦ hid (List.mem_singleton.2 h.1)]
  · rintro _ _ _ _ grew ⟨⟩ ⟨⟩
    refine ⟨RangeTable.union_grew_iff_exists, fun hr ↦ ⟨t.joined id r, ?_, fun x hx ↦ ?_⟩⟩
    · rw [RangeTable.get?_union, if_pos ⟨rfl, hr⟩]
    · exact RangeTable.wrap_mem_joined hx
  · rintro ⟨⟩

/-- Every call keeps what is in the table. -/
theorem keeps_run (c : TableCall ι) (t : RangeTable ι) : c.Keeps t (c.run t).1 (c.run t).2 := by
  cases c with
  | union id r log origin =>
    cases h : t.offer log id r origin with
    | error e =>
      rw [run_union_of_error h]
      exact keeps_refl _ t fun _ h ↦ nomatch h
    | ok result =>
      rw [run_union_of_ok h]
      exact keeps_union h
  | setFull id =>
    cases h : t.setFull? id with
    | none =>
      rw [run, h]
      exact keeps_refl _ t fun _ h ↦ nomatch h
    | some u =>
      rw [run, h]
      obtain rfl : (t.setFull? id).getD t = u := by rw [h, Option.getD_some]
      refine keeps_widen (t.ids_getD_setFull? id) fun id' ↦ ?_
      rw [RangeTable.get?_getD_setFull?]
      simp only [ids, List.mem_singleton]
      split
      · rename_i hid
        rw [hid]
      · rfl
  | widen ids => exact keeps_widen (t.ids_widen ids) (t.get?_widen ids)
  | clearChanges => exact keeps_widen rfl fun _ ↦ (if_neg List.not_mem_nil).symm

end TableCall

/-! ## Histories -/

/-- A call and how it ended. -/
abbrev TableEvent (ι : Type) := TableCall ι × Reply

namespace TableEvent

variable {ι : Type}

def isClear : TableEvent ι → Bool
  | (.clearChanges, _) => true
  | _ => false

/-- The range that an id is given, if it is not empty and the call does not raise. -/
def given? [DecidableEq ι] (id : ι) : TableEvent ι → Option Range
  | (.union id' r _ _, .grew _) => if id = id' ∧ r.isEmpty = false then some r else none
  | _ => none

/-- The id that a union tells to have grown. -/
def grown? : TableEvent ι → Option ι
  | (.union id _ _ _, .grew true) => some id
  | _ => none

/-- The ids that unions told to have grown since the changes were cleared. -/
def grownIds (events : List (TableEvent ι)) : List ι :=
  (events.rtakeWhile fun e ↦ !e.isClear).filterMap grown?

/-- An event adds the id that it tells to have grown. -/
theorem grownIds_append {e : TableEvent ι} (he : e.isClear = false) (events : List (TableEvent ι)) :
    grownIds (events ++ [e]) = grownIds events ++ e.grown?.toList := by
  rw [grownIds, List.rtakeWhile_concat, if_pos (by rw [he]; rfl), List.filterMap_append, grownIds]
  cases h : e.grown? <;> simp [h]

/-- When the changes are cleared, no id has grown since. -/
theorem grownIds_append_clear {e : TableEvent ι} (he : e.isClear = true)
    (events : List (TableEvent ι)) : grownIds (events ++ [e]) = [] := by
  rw [grownIds, List.rtakeWhile_concat, if_neg (by rw [he]; exact Bool.false_ne_true),
    List.filterMap_nil]

end TableEvent

namespace RangeTable

variable {ι : Type} [DecidableEq ι]

/-- What a table holds after some events: ranges with members, each at the width of the first one
that its id was given, and the ids that grew since the changes were cleared, in the order in which
they first did. -/
structure Records (t : RangeTable ι) (events : List (TableEvent ι)) : Prop where
  nonempty : ∀ id r, t.get? id = some r → r.isEmpty = false
  width : ∀ id, (t.get? id).map Range.width =
    (events.filterMap (TableEvent.given? id)).head?.map Range.width
  changes : t.changes.toList = (TableEvent.grownIds events).eraseDups

theorem toList_insert (s : OrderedSet ι) (x : ι) :
    (s.insert x).toList = if x ∈ s.toList then s.toList else s.toList ++ [x] := by
  unfold OrderedSet.insert
  split <;> rfl

variable [Labelled ι] {t : RangeTable ι} {events : List (TableEvent ι)}

/-- An id that is not in the table is there after a call that gives it a range. -/
theorem get?_run_of_none (c : TableCall ι) {id : ι} (h : t.get? id = none) :
    (c.run t).2.get? id = TableEvent.given? id (c, (c.run t).1) := by
  cases c with
  | union id' r log origin =>
    cases hoffer : t.offer log id' r origin with
    | error e =>
      rw [TableCall.run_union_of_error hoffer]
      exact h
    | ok result =>
      obtain ⟨grew, u, log'⟩ := result
      have hu := union_of_offer hoffer
      rw [TableCall.run_union_of_ok hoffer]
      obtain rfl : (t.union id' r).1 = u := by rw [hu]
      rw [get?_union, h, TableEvent.given?]
      split
      · rename_i hid
        rw [joined_eq_of_none (hid.1 ▸ h)]
      · rfl
  | setFull id' =>
    have hids := (TableCall.keeps_run (.setFull id') t).named id
    cases hfull : t.setFull? id' with
    | none =>
      rw [TableCall.run, hfull]
      exact h
    | some u =>
      rw [TableCall.run, hfull] at hids ⊢
      refine (hids fun hid ↦ ?_).trans h
      rw [setFull?, ← List.mem_singleton.1 hid, h] at hfull
      cases hfull
  | widen ids =>
    show (t.widen ids).get? id = none
    rw [get?_widen, h]
    split <;> rfl
  | clearChanges => exact h

/-- Only a union that lets a range grow and a call that clears the changes have an effect on
them. -/
theorem Records.changes_run (h : t.Records events) (c : TableCall ι) :
    (c.run t).2.changes.toList =
      (TableEvent.grownIds (events ++ [(c, (c.run t).1)])).eraseDups := by
  have hsame {e : TableEvent ι} (he : e.isClear = false) (hgrown : e.grown? = none) :
      t.changes.toList = (TableEvent.grownIds (events ++ [e])).eraseDups := by
    rw [TableEvent.grownIds_append he, hgrown, Option.toList_none, List.append_nil, h.changes]
  cases c with
  | union id r log origin =>
    cases hoffer : t.offer log id r origin with
    | error e =>
      rw [TableCall.run_union_of_error hoffer]
      exact hsame rfl rfl
    | ok result =>
      obtain ⟨grew, u, log'⟩ := result
      have hchanges := t.changes_union id r
      rw [union_of_offer hoffer] at hchanges
      rw [TableCall.run_union_of_ok hoffer]
      cases grew with
      | false => exact (congrArg OrderedSet.toList hchanges).trans (hsame rfl rfl)
      | true =>
        refine (congrArg OrderedSet.toList hchanges).trans ?_
        rw [if_pos rfl, toList_insert, h.changes, TableEvent.grownIds_append rfl]
        exact (eraseDups_append_singleton _ id).symm
  | setFull id =>
    cases hfull : t.setFull? id with
    | none =>
      rw [TableCall.run, hfull]
      exact hsame rfl rfl
    | some u =>
      rw [TableCall.run, hfull]
      obtain ⟨r, -, rfl⟩ := Option.map_eq_some_iff.1 hfull
      exact hsame rfl rfl
  | widen ids =>
    refine (congrArg OrderedSet.toList (t.changes_widen ids)).trans ?_
    exact hsame rfl rfl
  | clearChanges =>
    rw [TableEvent.grownIds_append_clear rfl]
    rfl

/-- What a table holds after one more call. -/
theorem Records.run (h : t.Records events) (c : TableCall ι) :
    (c.run t).2.Records (events ++ [(c, (c.run t).1)]) := by
  have hkeeps := TableCall.keeps_run c t
  refine ⟨fun id r hr ↦ ?_, fun id ↦ ?_, h.changes_run c⟩
  · cases hold : t.get? id with
    | none =>
      rw [get?_run_of_none c hold] at hr
      unfold TableEvent.given? at hr
      split at hr
      · split at hr
        · rename_i hid
          cases hr
          exact hid.2
        · cases hr
      · cases hr
    | some old =>
      obtain ⟨new, hnew, hwithin⟩ := hkeeps.grows id old hold
      rw [hr] at hnew
      cases hnew
      exact hwithin.isEmpty_eq_false (h.nonempty id old hold)
  · have hwidth := h.width id
    rw [List.filterMap_append, List.head?_append]
    cases hold : t.get? id with
    | none =>
      rw [hold, Option.map_none, eq_comm, Option.map_eq_none_iff] at hwidth
      rw [hwidth, Option.none_or, get?_run_of_none c hold]
      cases hgiven : TableEvent.given? id (c, (c.run t).1) with
      | none => simp [hgiven]
      | some r => simp [hgiven]
    | some old =>
      obtain ⟨new, hnew, hwithin⟩ := hkeeps.grows id old hold
      rw [hold] at hwidth
      obtain ⟨first, hfirst, hfw⟩ := Option.map_eq_some_iff.1 hwidth.symm
      rw [hnew, hfirst, Option.some_or, Option.map_some, Option.map_some, hfw, hwithin.1]

/-- The events of some calls from an empty table, and the table after them. -/
def history (watch : Option ι) (calls : List (TableCall ι)) : List (TableEvent ι) × RangeTable ι :=
  calls.foldl (fun s c ↦ (s.1 ++ [(c, (c.run s.2).1)], (c.run s.2).2)) ([], .empty watch)

/-- A last call is carried out on the table after those before it. -/
theorem history_append (watch : Option ι) (calls : List (TableCall ι)) (c : TableCall ι) :
    history watch (calls ++ [c]) =
      ((history watch calls).1 ++ [(c, (c.run (history watch calls).2).1)],
        (c.run (history watch calls).2).2) := by
  rw [history, List.foldl_append]
  rfl

/-- A table records what was done to it. -/
theorem Records.of_history (watch : Option ι) (calls : List (TableCall ι)) :
    (history watch calls).2.Records (history watch calls).1 := by
  induction calls using List.reverseRecOn with
  | nil => exact ⟨fun _ _ h ↦ (nomatch h), fun _ ↦ rfl, rfl⟩
  | append_singleton calls c ih =>
    rw [history_append]
    exact ih.run c

/-- After any calls a table records what they did, and whatever is called next keeps what is in
it. -/
theorem records_history (watch : Option ι) (calls : List (TableCall ι)) :
    (history watch calls).2.Records (history watch calls).1 ∧
      ∀ c : TableCall ι, c.Keeps (history watch calls).2 (c.run (history watch calls).2).1
        (c.run (history watch calls).2).2 :=
  ⟨.of_history watch calls, fun c ↦ c.keeps_run _⟩

/-- A range of another width and an id that is not in the table, where warnings end the run. -/
example : (history none [
    .union "g" (.singleton .byte 1) (.empty .strict) none,
    .union "g" (.singleton .word 300) (.empty .strict) none,
    .setFull "h"]).1.map Prod.snd = [.grew true, .raised, .raised] := by
  decide +kernel

end RangeTable

end RangeFlow
