import RangeFlow.Proofs.Cbor.RoundTrip
import RangeFlow.Proofs.Table.History
import RangeFlow.Table.Binary

/-!
# Tables are read back from their bytes

A table is written as a plain item, which is read back whatever follows it.  Its ids become texts,
their rows pass every check on numbers that need not be integers, and ids that differ stay in their
order.
-/

namespace RangeFlow

namespace Cbor.Quantity

@[simp] theorem le_ofInt (v w : Int) : (ofInt v).le (ofInt w) = decide (v ≤ w) := by
  simp [ofInt, le]

@[simp] theorem lt_ofInt (v w : Int) : (ofInt v).lt (ofInt w) = decide (v < w) := by
  rw [lt, le_ofInt, le_ofInt, ← decide_not, ← Bool.decide_and]
  exact decide_eq_decide.2 (by omega)

@[simp] theorem int?_ofInt (v : Int) : (ofInt v).int? = some v := by
  simp [ofInt, int?]

end Cbor.Quantity

namespace Range

/-- The range passes the check of its own numbers. -/
def CanBeMade (r : Range) : Prop := make r.width.bits r.lower r.upper = .ok r

/-- A width is read back from its bits. -/
theorem ofInt?_bits (w : Width) : Width.ofInt? w.bits = some w := dif_pos w.bits_pos

/-- Of a range that there is, only the width can be refused. -/
theorem canBeMade_iff {r : Range} : r.CanBeMade ↔ countable r.width.bits = .ok () := by
  have hmade : (0 ≤ (r.lower : Int) ∧ (r.lower : Int).toNat < r.width.card) ∧
      (0 ≤ (r.upper : Int) ∧ (r.upper : Int).toNat < r.width.card) ∧
      ((r.lower : Int).toNat = (r.upper : Int).toNat →
        (r.lower : Int).toNat = 0 ∨ (r.lower : Int).toNat = r.width.mask) :=
    ⟨⟨Int.natCast_nonneg _, r.lower_lt⟩, ⟨Int.natCast_nonneg _, r.upper_lt⟩, r.special⟩
  rw [CanBeMade, make, ofInt?_bits, Option.map_some, Width.counted]
  cases h : countable r.width.bits with
  | error e =>
    simp only [Except.map]
    constructor
    · intro hmade
      cases hmade
    · intro hcount
      cases hcount
  | ok =>
    simp only [Except.map]
    rw [dif_pos hmade]
    exact iff_of_true rfl trivial

end Range

namespace Row

variable {r : Range}

theorem width_ofRange (h : countable r.width.bits = .ok ()) : (ofRange r).width = .ok r.width := by
  have hcounted : r.width.counted = .ok r.width := by
    rw [Width.counted, h]
    rfl
  have hpos : (Cbor.Quantity.ofInt 0).lt (.ofInt r.width.bits) = true := by
    rw [Cbor.Quantity.lt_ofInt, decide_eq_true_eq]
    exact Int.natCast_pos.2 r.width.bits_pos
  have hint : (Cbor.Item.int r.width.bits).int?.bind Width.ofInt? = some r.width :=
    Range.ofInt?_bits _
  unfold width ofRange
  rw [hint]
  show (if !(Cbor.Quantity.ofInt 0).lt (.ofInt r.width.bits) then _ else _) = _
  rw [hpos]
  show r.width.counted.mapError _ = _
  rw [hcounted]
  rfl

theorem bound_of_lt_card {w : Width} {v : Nat} (h : v < w.card) :
    bound w (.int v) = .ok (.ofInt v) := by
  have hmask : (v : Int) ≤ w.mask := by
    unfold Width.mask
    omega
  have hfits : ((Cbor.Quantity.ofInt 0).le (.ofInt v) && (Cbor.Quantity.ofInt v).le (.ofInt w.mask))
      = true := by
    simp [hmask]
  show (if (Cbor.Quantity.ofInt 0).le (.ofInt v) && (Cbor.Quantity.ofInt v).le (.ofInt w.mask) then
    .ok (.ofInt v) else throw (.badRange .invalid) : Except TableError Cbor.Quantity) = _
  rw [if_pos hfits]

/-- The row of a range gives it back. -/
theorem range_ofRange (h : r.CanBeMade) : (ofRange r).range = .ok r := by
  have hlower : bound r.width (ofRange r).lower = .ok (.ofInt r.lower) :=
    bound_of_lt_card r.lower_lt
  have hupper : bound r.width (ofRange r).upper = .ok (.ofInt r.upper) :=
    bound_of_lt_card r.upper_lt
  rw [range, width_ofRange (Range.canBeMade_iff.1 h)]
  simp only [bind, Except.bind, hlower, hupper, Cbor.Quantity.int?_ofInt]
  rw [h]
  rfl

end Row

namespace RangeTable

variable {t : RangeTable String}

/-- The entries of a table as they are written. -/
theorem item_eq_map (t : RangeTable String) :
    t.item = .map (Cbor.keyed (t.ranges.entries.map fun e ↦ (e.1, (Row.ofRange e.2).item))) := by
  rw [item, Cbor.keyed, List.map_map]
  rfl

theorem plain_item (t : RangeTable String) : t.item.Plain := by
  rw [item_eq_map]
  refine .map ?_ fun e he ↦ ?_
  · rw [List.map_map]
    exact t.ranges.nodup
  · obtain ⟨⟨id, r⟩, -, rfl⟩ := List.mem_map.1 he
    refine .array fun i hi ↦ ?_
    simp only [Row.ofRange, List.mem_cons, List.not_mem_nil, or_false] at hi
    rcases hi with rfl | rfl | rfl <;> exact .int _

/-- The entries are read back from the bytes, whatever follows these. -/
theorem readEntries_encode_append (hmade : ∀ e ∈ t.ranges.entries, e.2.CanBeMade)
    (hsize : t.encode.length < 2 ^ 63) (tail : List UInt8) :
    readEntries (t.encode ++ tail) =
      .ok (t.ranges.entries.map fun e ↦ ⟨.text e.1, .ofRange e.2, e.2⟩) := by
  rw [readEntries, encode, Cbor.decode_encode_append t.plain_item hsize tail]
  show (t.ranges.entries.map _).mapM _ = _
  generalize t.ranges.entries = es at hmade ⊢
  induction es with
  | nil => rfl
  | cons e es ih =>
    have hrow := Row.range_ofRange (hmade e List.mem_cons_self)
    have hrest := ih fun e' he' ↦ hmade e' (List.mem_cons_of_mem e he')
    rw [List.map_cons, List.mapM_cons, hrest]
    show (do
      let r ← (Row.ofRange e.2).range
      return ⟨.text e.1, .ofRange e.2, r⟩ : Except TableError TableEntry) >>= _ = _
    rw [hrow]
    rfl

/-- The events of a history are its calls, in order. -/
theorem map_fst_history (watch : Option String) (calls : List (TableCall String)) :
    (history watch calls).1.map Prod.fst = calls := by
  induction calls using List.reverseRecOn with
  | nil => rfl
  | append_singleton calls c ih =>
    rw [history_append, List.map_append, ih]
    rfl

/-- A stored range has the width of one that a call was given. -/
theorem canBeMade_of_history {watch : Option String} {calls : List (TableCall String)}
    (hcalls : ∀ id r log origin, .union id r log origin ∈ calls → r.CanBeMade) {id : String}
    {r : Range} (hr : (history watch calls).2.get? id = some r) : r.CanBeMade := by
  have hwidth := (Records.of_history watch calls).width id
  rw [hr, Option.map_some] at hwidth
  obtain ⟨first, hfirst, hbits⟩ := Option.map_eq_some_iff.1 hwidth.symm
  obtain ⟨⟨c, reply⟩, he, hgiven⟩ := List.mem_filterMap.1 (List.mem_of_head? hfirst)
  have hc : c ∈ calls := by
    rw [← map_fst_history watch calls]
    exact List.mem_map_of_mem he
  have hmade : first.CanBeMade := by
    unfold TableEvent.given? at hgiven
    split at hgiven
    · rename_i heq
      cases heq
      split at hgiven
      · cases hgiven
        exact hcalls _ _ _ _ hc
      · cases hgiven
    · cases hgiven
  rw [Range.canBeMade_iff] at hmade ⊢
  rwa [← hbits]

/-- The table of entries with different ids has them in their order. -/
theorem entries_ofEntries {es : List TableEntry} (h : (es.map TableEntry.id).Nodup) :
    (ofEntries es).ranges.entries = es.map fun e ↦ (e.id, e.range) := by
  refine OrderedMap.entries_insertAll ?_
  rw [List.map_map]
  exact h

/-- A table that calls have led to is read back from its bytes, whatever follows them: the same ids
as texts, in the same order and with the same ranges, and neither changes nor a watched id.  Its
ranges can be made, as any range is that a call is given, and no sequence of bytes has 2^63 of
them. -/
theorem exists_decode_encode {watch : Option String} {calls : List (TableCall String)}
    (hcalls : ∀ id r log origin, .union id r log origin ∈ calls → r.CanBeMade)
    (ht : t = (history watch calls).2) (hsize : t.encode.length < 2 ^ 63) (tail : List UInt8) :
    ∃ u, decode (t.encode ++ tail) = .ok u ∧
      u.ranges.entries = (t.ranges.entries.map fun e ↦ (.text e.1, e.2)) ∧ u.changes = ∅ ∧
      u.watch = none := by
  subst ht
  have hmade : ∀ e ∈ (history watch calls).2.ranges.entries, e.2.CanBeMade := fun e he ↦
    canBeMade_of_history hcalls (OrderedMap.get?_of_mem he)
  have hread := readEntries_encode_append hmade hsize tail
  refine ⟨_, by rw [decode, hread]; rfl, ?_, rfl, rfl⟩
  have hinj : Function.Injective Cbor.Item.text := fun _ _ h ↦ Cbor.Item.text.inj h
  have hnodup : ((history watch calls).2.ranges.entries.map (Cbor.Item.text ∘ Prod.fst)).Nodup := by
    rw [← List.map_map]
    exact (history watch calls).2.ranges.nodup.map hinj
  rw [entries_ofEntries, List.map_map]
  · rfl
  · rw [List.map_map]
    exact hnodup

/-- Calls with a bound above 2^64, an id beyond ASCII and a range that is widened. -/
def wideCalls : List (TableCall String) := [
  .union "é" (.ofBounds ⟨80, by decide⟩ 300 (2 ^ 70)) (.empty .always) none,
  .union "g" (.singleton .byte 1) (.empty .always) none,
  .widen ["g", "h"]]

/-- They are read back although an end mark follows. -/
theorem exists_decode_encode_wide :
    (history none wideCalls).2.encode.length < 2 ^ 63 ∧
    ∃ u, decode ((history none wideCalls).2.encode ++ [0xff]) = .ok u ∧
      u.ranges.entries =
        ((history none wideCalls).2.ranges.entries.map fun e ↦ (.text e.1, e.2)) ∧
      u.changes = ∅ ∧ u.watch = none := by
  have hcalls : ∀ id r log origin, .union id r log origin ∈ wideCalls → r.CanBeMade := by
    intro id r log origin h
    simp only [wideCalls, List.mem_cons, TableCall.union.injEq, List.not_mem_nil, or_false] at h
    rcases h with ⟨-, rfl, -⟩ | ⟨-, rfl, -⟩ | h
    · exact Range.canBeMade_iff.2 rfl
    · exact Range.canBeMade_iff.2 rfl
    · cases h
  have hsize : (history none wideCalls).2.encode.length < 2 ^ 63 := by decide +kernel
  exact ⟨hsize, exists_decode_encode hcalls rfl hsize [0xff]⟩

end RangeTable

end RangeFlow
