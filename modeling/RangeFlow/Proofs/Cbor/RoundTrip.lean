import Mathlib.Data.Nat.Log
import Mathlib.Tactic.Ring
import RangeFlow.Cbor.Reader

/-!
# Reading what was written

An item that is made of integers, texts, arrays and maps with texts as keys is read back from its
bytes, whatever follows them.  `Reads p bs a` says that a reader takes exactly the bytes `bs` and
gives `a`; the writer's choice of a form for a number is looked at only in `head_eq` and
`encodeInt_cases`, and everything else is put together by `Reads.bind`.
-/

namespace RangeFlow.Cbor

/-! ## Numbers and texts as bytes -/

@[simp] theorem length_bigEndian (n v : Nat) : (bigEndian n v).length = n := by
  induction n generalizing v with
  | zero => rfl
  | succ n ih => rw [bigEndian, List.length_append, ih, List.length_singleton]

/-- A last byte adds its value to the number before it, moved by one byte. -/
theorem ofBigEndian_append (bs : List UInt8) (b : UInt8) :
    ofBigEndian (bs ++ [b]) = ofBigEndian bs * 256 + b.toNat := by
  simp [ofBigEndian]

/-- A number is read back from as many bytes as hold it. -/
theorem ofBigEndian_bigEndian {n v : Nat} (h : v < 256 ^ n) :
    ofBigEndian (bigEndian n v) = v := by
  induction n generalizing v with
  | zero =>
    rw [Nat.pow_zero, Nat.lt_one_iff] at h
    exact h.symm
  | succ n ih =>
    have hdiv : v / 256 < 256 ^ n := Nat.div_lt_of_lt_mul (by rw [← Nat.pow_succ']; exact h)
    have hbyte : (UInt8.ofNat (v % 256)).toNat = v % 256 := by simp
    rw [bigEndian, ofBigEndian_append, ih hdiv, hbyte]
    omega

theorem lt_pow_byteLength (v : Nat) : v < 256 ^ byteLength v := by
  by_cases hv : v = 0
  · subst hv
    decide
  · have hlog : v < 2 ^ (v.log2 + 1) := Nat.lt_log2_self
    have hle : v.log2 + 1 ≤ 8 * (v.log2 / 8 + 1) := by omega
    rw [byteLength, if_neg hv, show 256 = 2 ^ 8 from rfl, ← Nat.pow_mul]
    exact hlog.trans_le (Nat.pow_le_pow_right (by decide) hle)

theorem toList_loop (bs : ByteArray) (i : Nat) (acc : List UInt8) :
    ByteArray.toList.loop bs i acc = acc.reverse ++ bs.data.toList.drop i := by
  induction i, acc using @ByteArray.toList.loop.induct bs with
  | case1 i acc hi ih =>
    have hi' : i < bs.data.toList.length := hi
    have hget : bs.get! i = bs.data.toList[i] := getElem!_pos bs.data i hi
    rw [ByteArray.toList.loop, if_pos hi, ih, hget, List.reverse_cons, List.append_assoc,
      List.singleton_append, List.getElem_cons_drop]
  | case2 i acc hi =>
    have hi' : bs.data.toList.length ≤ i := Nat.le_of_not_lt hi
    rw [ByteArray.toList.loop, if_neg hi, List.drop_eq_nil_of_le hi', List.append_nil]

theorem toList_eq (bs : ByteArray) : bs.toList = bs.data.toList := by
  rw [ByteArray.toList, toList_loop]
  rfl

/-- A text is read back from its bytes. -/
theorem fromUTF8?_toUTF8 (s : String) : String.fromUTF8? ⟨s.toUTF8.toList.toArray⟩ = some s := by
  rw [toList_eq]
  exact dif_pos s.isValidUTF8

/-! ## Readers -/

/-- A reader takes these bytes and gives this value, whatever follows, and keeps what references can
name.  Nothing is numbered. -/
def Reads {α : Type} (p : Reader α) (bs : List UInt8) (a : α) : Prop :=
  ∀ rest shared, p.run ⟨bs ++ rest, shared, none⟩ = .ok (a, ⟨rest, shared, none⟩)

namespace Reads

variable {α β : Type}

theorem pure (a : α) : Reads (Pure.pure a) [] a := fun _ _ ↦ rfl

/-- Readers one after the other read the bytes one after the other. -/
theorem bind {p : Reader α} {f : α → Reader β} {bs cs : List UInt8} {a : α} {b : β}
    (hp : Reads p bs a) (hf : Reads (f a) cs b) : Reads (p >>= f) (bs ++ cs) b := by
  intro rest shared
  rw [StateT.run_bind, List.append_assoc, hp]
  exact hf rest shared

/-- A last step that takes nothing. -/
theorem bind_pure {p : Reader α} {f : α → Reader β} {bs : List UInt8} {a : α} {b : β}
    (hp : Reads p bs a) (hf : Reads (f a) [] b) : Reads (p >>= f) bs b := by
  have h := hp.bind hf
  rwa [List.append_nil] at h

end Reads

theorem reads_byte (b : UInt8) : Reads byte [b] b := fun _ _ ↦ rfl

theorem reads_take (bs : List UInt8) : Reads (take bs.length) bs bs := by
  intro rest shared
  have htake : (bs ++ rest).take bs.length = bs := List.take_left
  have hdrop : (bs ++ rest).drop bs.length = rest := List.drop_left
  simp only [take, StateT.run_bind, StateT.run_get, pure_bind, htake, hdrop, lt_irrefl, if_false]
  rfl

theorem reads_number (i : Item) (length : Nat) : Reads (number i length) [] () := fun _ _ ↦ rfl

/-- The first byte is read as the type and the information that it was made of. -/
theorem reads_first {major info : Nat} (hm : major < 8) (hi : info < 32) :
    Reads first [UInt8.ofNat (major * 32 + info)] (major, info) := by
  have hbyte : (UInt8.ofNat (major * 32 + info)).toNat = major * 32 + info := by
    simp
    omega
  have hfirst := (reads_byte (UInt8.ofNat (major * 32 + info))).bind_pure
    (f := fun b ↦ Pure.pure (b.toNat / 32, b.toNat % 32)) (.pure _)
  have hdiv : (major * 32 + info) / 32 = major := by omega
  have hmod : (major * 32 + info) % 32 = info := by omega
  rwa [hbyte, hdiv, hmod] at hfirst

theorem reads_argument_small {v : Nat} (h : v < 24) : Reads (argument v) [] v := by
  unfold argument
  rw [if_pos h]
  exact .pure v

/-- A head has the number in the low bits of its first byte, or in the bytes after it. -/
theorem head_eq (major : Nat) {v : Nat} (hv : v < 2 ^ 64) :
    ∃ info bs, head major v = UInt8.ofNat (major * 32 + info) :: bs ∧ info < 28 ∧
      Reads (argument info) bs v := by
  have hlong {n info : Nat} (hn : v < 256 ^ n) (hinfo : argument info = do
      let bs ← take n
      return ofBigEndian bs) : Reads (argument info) (bigEndian n v) v := by
    have htake := reads_take (bigEndian n v)
    rw [length_bigEndian] at htake
    rw [hinfo]
    refine htake.bind_pure ?_
    rw [ofBigEndian_bigEndian hn]
    exact .pure v
  unfold head
  dsimp only
  split
  · rename_i h
    exact ⟨v, [], rfl, by omega, reads_argument_small h⟩
  split
  · exact ⟨24, _, rfl, by decide, hlong (by omega) rfl⟩
  split
  · exact ⟨25, _, rfl, by decide, hlong (by omega) rfl⟩
  split
  · exact ⟨26, _, rfl, by decide, hlong (by omega) rfl⟩
  · exact ⟨27, _, rfl, by decide, hlong (by omega) rfl⟩

/-- A reader that goes on after a head. -/
theorem Reads.head_bind {α : Type} {f : Nat × Nat → Reader α} {major v : Nat} {cs : List UInt8}
    {a : α} (hm : major < 8) (hv : v < 2 ^ 64)
    (hf : ∀ info bs, info < 28 → Reads (argument info) bs v →
      Reads (f (major, info)) (bs ++ cs) a) :
    Reads (first >>= f) (head major v ++ cs) a := by
  obtain ⟨info, bs, heq, hinfo, harg⟩ := head_eq major hv
  rw [heq, List.cons_append, ← List.singleton_append]
  exact (reads_first hm (by omega)).bind (hf info bs hinfo harg)

theorem reads_length {info v : Nat} {bs : List UInt8} (h : Reads (argument info) bs v)
    (hv : v < 2 ^ 63) : Reads (length info) bs v := by
  refine h.bind_pure ?_
  rw [if_neg (by omega)]
  exact .pure v

theorem reads_byteString {info : Nat} {bs cs : List UInt8}
    (h : Reads (argument info) bs cs.length) (hlen : cs.length < 2 ^ 63) :
    Reads (byteString info) (bs ++ cs) cs :=
  (reads_length h hlen).bind
    ((reads_take cs).bind_pure ((reads_number (.bytes cs) cs.length).bind_pure (.pure cs)))

theorem reads_textString {info : Nat} {bs : List UInt8} {s : String}
    (h : Reads (argument info) bs s.toUTF8.toList.length)
    (hlen : s.toUTF8.toList.length < 2 ^ 63) :
    Reads (textString info) (bs ++ s.toUTF8.toList) s := by
  have hdecode : Reads (decodeText s.toUTF8.toList) [] s := by
    rw [decodeText, fromUTF8?_toUTF8]
    exact .pure s
  exact (reads_length h hlen).bind ((reads_take s.toUTF8.toList).bind_pure
    (hdecode.bind_pure ((reads_number (.text s) _).bind_pure (.pure s))))

/-! ## Items -/

/-- Where an item is expected, an item without an end mark. -/
theorem reads_item {n : Nat} {bs : List UInt8} {i : Item} (h : Reads (item? n) bs (some i)) :
    Reads (item (n + 1)) bs i :=
  h.bind_pure (.pure i)

theorem reads_bytes (n : Nat) {bs : List UInt8} (hlen : bs.length < 2 ^ 63) :
    Reads (item? (n + 1)) (head 2 bs.length ++ bs) (some (.bytes bs)) := by
  refine Reads.head_bind (by decide) (by omega) fun info cs hinfo harg ↦ ?_
  show Reads (if info = openInfo then _ else _) _ _
  rw [if_neg (by unfold openInfo; omega)]
  exact (reads_byteString harg hlen).bind_pure (.pure _)

theorem reads_text (n : Nat) {s : String} (hlen : (encodeText s).length < 2 ^ 63) :
    Reads (item? (n + 1)) (encodeText s) (some (.text s)) := by
  rw [encodeText, List.length_append] at hlen
  refine Reads.head_bind (by decide) (by omega) fun info cs hinfo harg ↦ ?_
  show Reads (if info = openInfo then _ else _) _ _
  rw [if_neg (by unfold openInfo; omega)]
  exact (reads_textString harg (by omega)).bind_pure (.pure _)

theorem reads_tagged {n tag : Nat} {bs : List UInt8} {i j : Item} (htag : tag = 2 ∨ tag = 3)
    (hi : Reads (item n) bs i) (hj : tagged tag i = .ok j) :
    Reads (item? (n + 2)) (head 6 tag ++ bs) (some j) := by
  refine Reads.head_bind (by decide) (by omega) fun info cs hinfo harg ↦ ?_
  refine harg.bind ?_
  have hlift : Reads (liftM (tagged tag i) : Reader Item) [] j := by
    rw [hj]
    exact fun _ _ ↦ rfl
  have h : Reads (taggedItem (n + 1) tag) bs j := by
    rcases htag with rfl | rfl
    · exact hi.bind_pure hlift
    · exact hi.bind_pure hlift
  exact h.bind_pure (.pure _)

@[simp] theorem head_ne_nil (major v : Nat) : head major v ≠ [] := by
  unfold head
  dsimp only
  split_ifs <;> simp

@[simp] theorem encodeNat_ne_nil (major tag v : Nat) : encodeNat major tag v ≠ [] := by
  unfold encodeNat
  split <;> simp

@[simp] theorem encode_ne_nil (i : Item) : i.encode ≠ [] := by
  cases i with
  | int v =>
    rw [Item.encode, encodeInt]
    split <;> simp
  | _ => simp [Item.encode, encodeText]

/-- A number is read from its head, or from 2^64 on through its tag. -/
theorem reads_encodeNat {n major tag v : Nat} {i : Item} (htag : tag = 2 ∨ tag = 3)
    (hsmall : ∀ m, v < 2 ^ 64 → Reads (item? (m + 1)) (head major v) (some i))
    (hbig : tagged tag (.bytes (bigEndian (byteLength v) v)) = .ok i)
    (hlen : (encodeNat major tag v).length < 2 ^ 63)
    (hn : 4 * (encodeNat major tag v).length ≤ n) : Reads (item n) (encodeNat major tag v) i := by
  unfold encodeNat at *
  split at hn
  · rename_i hv
    have hpos := List.length_pos_iff.2 (head_ne_nil major v)
    obtain ⟨m, rfl⟩ : ∃ m, n = m + 2 := ⟨n - 2, by omega⟩
    rw [if_pos hv]
    exact reads_item (hsmall m hv)
  · rename_i hv
    have hpos := List.length_pos_iff.2 (head_ne_nil 6 tag)
    have hpos' := List.length_pos_iff.2 (head_ne_nil 2 (byteLength v))
    rw [if_neg hv, List.length_append, List.length_append, length_bigEndian] at hlen
    rw [List.length_append, List.length_append] at hn
    obtain ⟨m, rfl⟩ : ∃ m, n = m + 5 := ⟨n - 5, by omega⟩
    have hbytes : Reads (item? (m + 1)) _ (some (.bytes (bigEndian (byteLength v) v))) :=
      reads_bytes m (by rw [length_bigEndian]; omega)
    rw [length_bigEndian] at hbytes
    rw [if_neg hv, List.append_assoc]
    exact reads_item (reads_tagged htag (reads_item hbytes) hbig)

/-- An integer is read back as it was written, whatever its size. -/
theorem reads_int {n : Nat} {v : Int} (hlen : (encodeInt v).length < 2 ^ 63)
    (hn : 4 * (encodeInt v).length ≤ n) : Reads (item n) (encodeInt v) (.int v) := by
  unfold encodeInt at *
  split at hn
  · rename_i hv
    rw [if_pos hv] at hlen ⊢
    have hcast : ((v.toNat : Nat) : Int) = v := Int.toNat_of_nonneg hv
    refine reads_encodeNat (.inl rfl) (fun m hsmall ↦ ?_) ?_ hlen hn
    · rw [← List.append_nil (head 0 v.toNat)]
      refine Reads.head_bind (by decide) hsmall fun info bs _ harg ↦ ?_
      rw [List.append_nil, ← hcast]
      exact harg.bind_pure (.pure _)
    · rw [tagged, ofBigEndian_bigEndian (lt_pow_byteLength _), hcast]
  · rename_i hv
    rw [if_neg hv] at hlen ⊢
    have hcast : -1 - (((-1 - v).toNat : Nat) : Int) = v := by omega
    refine reads_encodeNat (.inr rfl) (fun m hsmall ↦ ?_) ?_ hlen hn
    · rw [← List.append_nil (head 1 _)]
      refine Reads.head_bind (by decide) hsmall fun info bs _ harg ↦ ?_
      rw [List.append_nil, ← hcast]
      exact harg.bind_pure (.pure _)
    · rw [tagged, ofBigEndian_bigEndian (lt_pow_byteLength _), hcast]

/-- Items are read back in order, if each is read back alone. -/
theorem reads_items {n : Nat} {is : List Item}
    (hn : 4 * (Item.encodeList is).length + 1 ≤ n)
    (h : ∀ i ∈ is, ∀ m, 4 * i.encode.length ≤ m → Reads (item m) i.encode i) :
    Reads (items n is.length) (Item.encodeList is) is := by
  obtain ⟨n, rfl⟩ : ∃ m, n = m + 1 := ⟨n - 1, by omega⟩
  induction is generalizing n with
  | nil => exact .pure []
  | cons i is ih =>
    have hpos := List.length_pos_iff.2 (encode_ne_nil i)
    rw [Item.encodeList, List.length_append] at hn
    obtain ⟨n, rfl⟩ : ∃ m, n = m + 1 := ⟨n - 1, by omega⟩
    refine (h i List.mem_cons_self (n + 1) (by omega)).bind ?_
    have hrest := ih (fun j hj ↦ h j (List.mem_cons_of_mem i hj)) n (by omega)
    exact hrest.bind_pure (.pure _)

/-- Nothing depends on whether a reference follows. -/
theorem Reads.atReference_bind {α : Type} {f : Bool → Reader α} {bs : List UInt8} {a : α}
    (h : ∀ b, Reads (f b) bs a) : Reads (atReference >>= f) bs a :=
  fun rest shared ↦ h _ rest shared

theorem reads_checkKey_text (b : Bool) (s : String) : Reads (checkKey b (.text s)) [] () := by
  cases b <;> exact .pure ()

theorem sameKey_text (i : Item) (s : String) : i.sameKey (.text s) = decide (i = .text s) := by
  unfold Item.sameKey
  cases i.quantity? <;> rfl

/-- An entry with a new text as its key goes to the end. -/
theorem addEntry_text {found : List (Item × Item)} {s : String} {i : Item}
    (h : ∀ e ∈ found, e.1 ≠ .text s) :
    Item.addEntry found (.text s) i = found ++ [(.text s, i)] := by
  rw [Item.addEntry, if_neg]
  simp only [sameKey_text, List.any_eq_true, decide_eq_true_eq, not_exists, not_and]
  exact h

def keyed (es : List (String × Item)) : List (Item × Item) := es.map fun e ↦ (.text e.1, e.2)

@[simp] theorem keyed_cons (s : String) (i : Item) (es : List (String × Item)) :
    keyed ((s, i) :: es) = (.text s, i) :: keyed es := rfl

@[simp] theorem length_keyed (es : List (String × Item)) : (keyed es).length = es.length :=
  List.length_map _

/-- Entries are read back in order, if each value is read back alone and no key occurs twice. -/
theorem reads_entries {n : Nat} {es : List (String × Item)} {found : List (Item × Item)}
    (hn : 4 * (Item.encodeEntries (keyed es)).length + 1 ≤ n)
    (hlen : (Item.encodeEntries (keyed es)).length < 2 ^ 63)
    (hkeys : (es.map Prod.fst).Nodup) (hfound : ∀ e ∈ found, ∀ e' ∈ es, e.1 ≠ .text e'.1)
    (h : ∀ e ∈ es, ∀ m, 4 * e.2.encode.length ≤ m → Reads (item m) e.2.encode e.2) :
    Reads (entries n es.length found) (Item.encodeEntries (keyed es)) (found ++ keyed es) := by
  obtain ⟨n, rfl⟩ : ∃ m, n = m + 1 := ⟨n - 1, by omega⟩
  induction es generalizing n found with
  | nil =>
    rw [keyed, List.map_nil, List.append_nil]
    exact .pure found
  | cons e es ih =>
    obtain ⟨s, i⟩ := e
    have hpos := List.length_pos_iff.2 (encode_ne_nil (.text s))
    rw [List.map_cons, List.nodup_cons] at hkeys
    rw [keyed_cons, Item.encodeEntries] at hn hlen ⊢
    simp only [List.length_append] at hn hlen
    obtain ⟨n, rfl⟩ : ∃ m, n = m + 2 := ⟨n - 2, by omega⟩
    have hkey : Reads (item (n + 2)) (Item.text s).encode (.text s) :=
      reads_item (reads_text n (by rw [Item.encode] at hlen; omega))
    have hvalue := h (s, i) List.mem_cons_self (n + 2) (by dsimp only; omega)
    have hnew : ∀ e ∈ found ++ [(.text s, i)], ∀ e' ∈ es, e.1 ≠ .text e'.1 := by
      intro e he e' he'
      rw [List.mem_append, List.mem_singleton] at he
      rcases he with he | rfl
      · exact hfound e he e' (List.mem_cons_of_mem _ he')
      · intro heq
        cases heq
        exact hkeys.1 (List.mem_map.2 ⟨e', he', rfl⟩)
    have hrest := ih (by omega) hkeys.2 hnew (fun e he ↦ h e (List.mem_cons_of_mem _ he)) (n + 1)
      (by omega)
    rw [List.append_assoc, List.singleton_append] at hrest
    refine Reads.atReference_bind fun b ↦ ?_
    rw [List.append_assoc]
    refine hkey.bind (hvalue.bind ((reads_checkKey_text b s).bind ?_))
    rw [addEntry_text fun e he ↦ hfound e he (s, i) List.mem_cons_self]
    exact hrest

/-- Items that are read as they are written. -/
inductive Item.Plain : Item → Prop
  | int (v : Int) : Plain (.int v)
  | text (s : String) : Plain (.text s)
  | array {items : List Item} (hitems : ∀ i ∈ items, Plain i) : Plain (.array items)
  | map {entries : List (String × Item)} (hkeys : (entries.map Prod.fst).Nodup)
    (hvalues : ∀ e ∈ entries, Plain e.2) : Plain (.map (keyed entries))

/-- An item is no longer than the list that it is written in. -/
theorem length_le_encodeList {i : Item} {is : List Item} (h : i ∈ is) :
    i.encode.length ≤ (Item.encodeList is).length := by
  induction is with
  | nil => cases h
  | cons j is ih =>
    rw [Item.encodeList, List.length_append]
    rcases List.mem_cons.1 h with rfl | h
    · exact Nat.le_add_right _ _
    · exact (ih h).trans (Nat.le_add_left _ _)

/-- A value is no longer than the entries that it is written in. -/
theorem length_le_encodeEntries {e : Item × Item} {es : List (Item × Item)} (h : e ∈ es) :
    e.2.encode.length ≤ (Item.encodeEntries es).length := by
  induction es with
  | nil => cases h
  | cons f es ih =>
    rw [Item.encodeEntries, List.length_append, List.length_append]
    rcases List.mem_cons.1 h with rfl | h
    · omega
    · have := ih h
      omega

/-- The number of items, which stands in a head, is no larger than that of their bytes. -/
theorem length_le_length_encodeList (is : List Item) :
    is.length ≤ (Item.encodeList is).length := by
  induction is with
  | nil => exact Nat.zero_le _
  | cons i is ih =>
    have hpos := List.length_pos_iff.2 (encode_ne_nil i)
    rw [Item.encodeList, List.length_append, List.length_cons]
    omega

theorem length_le_length_encodeEntries (es : List (Item × Item)) :
    es.length ≤ (Item.encodeEntries es).length := by
  induction es with
  | nil => exact Nat.zero_le _
  | cons e es ih =>
    have hpos := List.length_pos_iff.2 (encode_ne_nil e.1)
    rw [Item.encodeEntries, List.length_append, List.length_append, List.length_cons]
    omega

/-- A plain item is read from its bytes.  Lengths from 2^63 on are refused. -/
theorem Item.Plain.reads_encode {i : Item} (h : i.Plain) (hlen : i.encode.length < 2 ^ 63) {n : Nat}
    (hn : 4 * i.encode.length ≤ n) : Reads (item n) i.encode i := by
  induction h generalizing n with
  | int v => exact reads_int hlen hn
  | text s =>
    have hpos := List.length_pos_iff.2 (encode_ne_nil (.text s))
    obtain ⟨m, rfl⟩ : ∃ m, n = m + 2 := ⟨n - 2, by omega⟩
    exact reads_item (reads_text m hlen)
  | @array is _ ih =>
    have hcount := length_le_length_encodeList is
    have hpos := List.length_pos_iff.2 (head_ne_nil 4 is.length)
    rw [Item.encode, List.length_append] at hlen hn
    obtain ⟨m, rfl⟩ : ∃ m, n = m + 2 := ⟨n - 2, by omega⟩
    have hitems : Reads (items m is.length) (Item.encodeList is) is :=
      reads_items (by omega) fun i hi k hk ↦ ih i hi (by have := length_le_encodeList hi; omega) hk
    refine reads_item (Reads.head_bind (by decide) (by omega) fun info bs hinfo harg ↦ ?_)
    show Reads (if info = openInfo then _ else _) _ _
    rw [if_neg (by unfold openInfo; omega)]
    exact (reads_length harg (by omega)).bind (hitems.bind_pure (.pure _))
  | @map es hkeys _ ih =>
    have hcount := length_le_length_encodeEntries (keyed es)
    have hpos := List.length_pos_iff.2 (head_ne_nil 5 (keyed es).length)
    rw [Item.encode, List.length_append] at hlen hn
    obtain ⟨m, rfl⟩ : ∃ m, n = m + 2 := ⟨n - 2, by omega⟩
    have hentries : Reads (entries m es.length []) (Item.encodeEntries (keyed es)) (keyed es) := by
      refine reads_entries (by omega) (by omega) hkeys (fun _ h ↦ (nomatch h)) fun e he k hk ↦ ?_
      have hmem : (.text e.1, e.2) ∈ keyed es := List.mem_map_of_mem he
      have hle := length_le_encodeEntries hmem
      dsimp only at hle
      exact ih e he (by omega) hk
    refine reads_item (Reads.head_bind (by decide) (by omega) fun info bs hinfo harg ↦ ?_)
    show Reads (if info = openInfo then _ else _) _ _
    rw [if_neg (by unfold openInfo; omega)]
    rw [length_keyed] at harg
    exact harg.bind (hentries.bind_pure (.pure _))

/-- Bytes that begin with a plain item give it, whatever follows. -/
theorem decode_encode_append {i : Item} (h : i.Plain) (hlen : i.encode.length < 2 ^ 63)
    (tail : List UInt8) : decode (i.encode ++ tail) = .ok i := by
  have hread := h.reads_encode hlen (n := 4 * (i.encode ++ tail).length + 4)
    (by rw [List.length_append]; omega) tail []
  rw [decode, hread]
  rfl

end RangeFlow.Cbor
