import RangeFlow.Proofs.Sweep.Edges

/-!
# What instructions give is found

A visit of an instruction joins the range of its result to the facts of the block.  If the state
before the visit has the words of the operands, then the visit comes to an end if all operands can
be read, and the facts after it have the word that the instruction gives.  There is one lemma for
each kind of value; operands are read one after the other, and each is seen as in the state before
the visit.  Nothing that was known is lost.

`Value.Gives` does not follow a run: it also has the words of bitcasts, which runs do not compute,
and takes a phi to come from any block.  What runs compute is given (`Value.gives_of_eval?`).
-/

namespace RangeFlow

/-- A word that an integer instruction of a block gives.  `held k o v` says that `o` can hold the
word `v` in the block `k`.  A sign extension does not narrow, a select can take either value, and a
phi that of any entry unless the edge closes a loop. -/
inductive Value.Gives (held : String → Operand → Word → Prop) (loops : OrderedSet Edge)
    (l : String) : Value → Word → Prop
  | binary {op : BinaryOp} {ty : Ty} {a b : Operand} {x y : Word} {n : Nat} :
    held l a x → held l b y → x.width = y.width → op.eval? x.width x.val y.val = some n →
      Gives held loops l (.binary op ty a b) (.ofInt x.width n)
  | compare {c : Comparison} {ty : Ty} {a b : Operand} {x y : Word} :
    held l a x → held l b y → x.width = y.width →
      Gives held loops l (.compare c ty a b)
        (.ofInt .one (if c.holds x.width.bits x.val y.val then 1 else 0))
  | cast {op : CastOp} {ty : Ty} {o : Operand} {w : Width} {x z : Word} :
    held l o x → (op = .sext → x.width.bits ≤ w.bits) → op.eval? x w = some z →
      Gives held loops l (.cast op ty o (.int w)) z
  | bitcast {o : Operand} {w : Width} {x : Word} :
    held l o x → x.width = w → Gives held loops l (.cast .bitcast (.int w) o (.int w)) x
  | select {ty : Ty} {cond a b : Operand} {c z : Word} :
    held l (if c.val ≠ 0 then a else b) z → Gives held loops l (.select ty cond a b) z
  | phi {ty : Ty} {entries : List PhiEntry} {entry : PhiEntry} {z : Word} :
    entry ∈ entries → (⟨entry.label, l⟩ : Edge) ∉ loops → held entry.label entry.value z →
      Gives held loops l (.phi ty entries) z

/-- What a run computes is given, if the words that its operands hold can be held, where they are
read. -/
theorem Value.gives_of_eval? {held : String → Operand → Word → Prop} {loops : OrderedSet Edge}
    {l : String} {a : Arrival} {ρ : Values} {v : Value} {z : Word}
    (hheld : ∀ o x, o.read? ρ = some x → held l o x)
    (harrival : ∀ k, a.source = some k →
      (⟨k, l⟩ : Edge) ∉ loops ∧ ∀ o x, o.read? a.values = some x → held k o x)
    (hwiden : ∀ ty o w x, v = .cast .sext ty o (.int w) → o.read? ρ = some x →
      x.width.bits ≤ w.bits) (h : v.eval? a ρ = some z) : v.Gives held loops l z := by
  cases v with
  | binary op ty o p =>
    simp only [eval?, Option.bind_eq_bind, Option.bind_eq_some_iff] at h
    obtain ⟨x, hx, y, hy, h⟩ := h
    split at h
    · rename_i hw
      obtain ⟨n, hn, hz⟩ := Option.bind_eq_some_iff.1 h
      cases hz
      exact .binary (hheld o x hx) (hheld p y hy) hw hn
    · cases h
  | compare c ty o p =>
    simp only [eval?, Option.bind_eq_bind, Option.bind_eq_some_iff] at h
    obtain ⟨x, hx, y, hy, h⟩ := h
    split at h
    · rename_i hw
      cases h
      exact .compare (hheld o x hx) (hheld p y hy) hw
    · cases h
  | cast op ty o target =>
    cases target with
    | int w =>
      obtain ⟨x, hx, h⟩ := Option.bind_eq_some_iff.1 h
      exact .cast (hheld o x hx) (fun hop ↦ hwiden ty o w x (by rw [hop]) hx) h
    | ptr | void | array | named | literal => cases h
  | select ty cond o p =>
    obtain ⟨c, -, h⟩ := Option.bind_eq_some_iff.1 h
    refine .select (c := c) (hheld _ z ?_)
    split at h <;> simp_all
  | phi ty entries =>
    simp only [eval?, Option.bind_eq_bind, Option.bind_eq_some_iff] at h
    obtain ⟨k, hk, entry, hentry, h⟩ := h
    obtain rfl : entry.label = k := by simpa using List.find?_some hentry
    obtain ⟨hloop, hread⟩ := harrival _ hk
    exact .phi (List.mem_of_find?_eq_some hentry) hloop (hread _ z h)
  | load | alloca | field | elem | call => cases h

/-- The operands whose ranges are found for a value, each with the block in which it is read. -/
def Value.lookups (loops : OrderedSet Edge) (l : String) : Value → List (String × Operand)
  | .binary _ _ a b | .select _ _ a b => [(l, a), (l, b)]
  | .cast _ _ o _ => [(l, o)]
  | .phi _ entries =>
    (entries.filter fun entry ↦ decide ((⟨entry.label, l⟩ : Edge) ∉ loops)).map
      fun entry ↦ (entry.label, entry.value)
  | .compare .. | .load .. | .alloca .. | .field .. | .elem .. | .call .. => []

namespace Sweep

variable {α : Type} {e : Env} {f : Function} {loops : OrderedSet Edge} {l x : String} {s t : State}
variable {r q : Range} {r? : Option Range} {z : Word} {i : Instr} {v : Value} {ty target : Ty}
variable {a b cond o : Operand}

/-! ## Ranges of values -/

/-- The range that is read for an operand has the type of the operand. -/
theorem Checked.ty_eq_of_reads (c : Checked e f) (hs : e.Fits s) (ho : f.ReadsAtType o)
    (h : e.Reads f s l o r) : o.ty = .int r.width := by
  obtain ⟨t, hr⟩ := h
  exact (c.rangeOf_maintains ho).gives hs hr

/-- An operand that can hold a word has the integer type of its width. -/
theorem Checked.ty_eq_of_sees (c : Checked e f) (hs : e.Fits s) (ho : f.ReadsAtType o)
    (h : e.Sees f s l o z) : o.ty = .int z.width := by
  obtain ⟨r, hr, hz⟩ := h
  rw [c.ty_eq_of_reads hs ho hr, hz.1]

/-- The range that is read for an operand has the width at which the operand is used. -/
theorem Checked.width_of_reads (c : Checked e f) (hs : e.Fits s) (ho : f.ReadsAtType o) {w : Width}
    (hsuits : o.Suits (.int w)) (h : e.Reads f s l o r) : w = r.width := by
  have hty := c.ty_eq_of_reads hs ho h
  rw [hsuits.ty_eq (by rw [hty]; rfl)] at hty
  exact Ty.int.inj hty

/-- The range of an operation holds its result on any two words that the operands can hold. -/
theorem holds_of_binary {op : BinaryOp} (ha : f.ReadsAtType a) (hb : f.ReadsAtType b)
    (hab : ReadAlike e f s a b)
    (hrun : (valueRange e f loops l x (.binary op ty a b)).run s = .ok r? t)
    (h : (Value.binary op ty a b).Gives (e.Sees f s) loops l z) : ∃ r, r? = some r ∧ r.Holds z := by
  cases h with
  | binary hx hy hxy hn =>
    simp only [valueRange, run_bind_eq_ok, run_pure_eq_ok] at hrun
    obtain ⟨r, u, hr, q', u', hq', q, _, hq, rfl, -⟩ := hrun
    obtain ⟨rfl, hw, hreadR, hreadQ⟩ := hab.reads_pair ha hb hr hq' hq
    obtain ⟨hxw, hxr⟩ := hx.holds hreadR
    rw [hxw] at hn ⊢
    have hmem := BinaryOp.eval?_mem hw hxr (hy.holds hreadQ).2 hn
    have hwidth := BinaryOp.width_range op hw
    refine ⟨_, rfl, hwidth.symm, ?_⟩
    have hlt := Range.lt_card_of_mem hmem
    rw [hwidth] at hlt
    rw [Word.val_ofInt, Width.wrap_natCast_of_lt _ hlt]
    exact hmem

/-- The range of a comparison holds both its results. -/
theorem holds_of_compare {op : Comparison}
    (hrun : (valueRange e f loops l x (.compare op ty a b)).run s = .ok r? t)
    (h : (Value.compare op ty a b).Gives (e.Sees f s) loops l z) :
    ∃ r, r? = some r ∧ r.Holds z := by
  obtain ⟨rfl, -⟩ := run_pure_eq_ok.1 hrun
  cases h with
  | compare => exact ⟨_, rfl, rfl, Range.mem_full.2 (Width.wrap_lt_card _ _)⟩

/-- The range of a cast holds the cast of any word that its operand can hold. -/
theorem holds_of_cast {op : CastOp}
    (hrun : (castRange e f l op ty o target).run s = .ok r? t)
    (h : (Value.cast op ty o target).Gives (e.Sees f s) loops l z) :
    ∃ r, r? = some r ∧ r.Holds z := by
  cases h with
  | cast hx _ hz =>
    cases op with
    | trunc | zext =>
      simp only [castRange, resultWidth, Ty.width?, counted, run_bind_eq_ok, run_ofExcept_eq_ok,
        run_pure_eq_ok, counted_eq_ok] at hrun
      obtain ⟨r, u, hr, _, _, ⟨⟨-, rfl⟩, -⟩, rfl, -⟩ := hrun
      cases hz
      exact ⟨_, rfl, (Range.width_resize _ _).symm,
        Range.wrap_mem_resize (hx.holds ⟨u, hr⟩).2⟩
    | sext =>
      simp only [castRange, resultWidth, Ty.width?, counted, run_bind_eq_ok, run_ofExcept_eq_ok,
        run_pure_eq_ok, counted_eq_ok] at hrun
      obtain ⟨r, u, hr, _, _, ⟨⟨-, rfl⟩, -⟩, q, _, ⟨hq, -⟩, rfl, -⟩ := hrun
      obtain ⟨-, -, rfl⟩ := Range.signExtendAt_eq_ok.1 hq
      cases hz
      obtain ⟨hxw, hxr⟩ := hx.holds ⟨u, hr⟩
      refine ⟨_, rfl, (Range.width_signExtend _ _).symm, ?_⟩
      rw [Word.val_ofInt, hxw]
      exact Range.wrap_signed_mem_signExtend hxr
    | bitcast | ptrtoint | inttoptr => cases hz
  | bitcast hx hw =>
    simp only [castRange, Ty.width?, counted, run_bind_eq_ok, run_ofExcept_eq_ok, run_pure_eq_ok,
      counted_eq_ok] at hrun
    obtain ⟨r, u, hr, _, _, ⟨⟨-, rfl⟩, -⟩, rfl, -⟩ := hrun
    have hxr := hx.holds ⟨u, hr⟩
    rw [← hw, hxr.1, Range.resize_width]
    exact ⟨r, rfl, hxr⟩

/-- The range of a select holds the words of both of its operands. -/
theorem holds_of_select (ha : f.ReadsAtType a) (hb : f.ReadsAtType b)
    (hab : ReadAlike e f s a b) (hint : ty.isInt = true)
    (hrun : (valueRange e f loops l x (.select ty cond a b)).run s = .ok r? t)
    (h : (Value.select ty cond a b).Gives (e.Sees f s) loops l z) :
    ∃ r, r? = some r ∧ r.Holds z := by
  cases h with
  | select hz =>
    simp only [valueRange, hint, if_true, run_bind_eq_ok, run_pure_eq_ok] at hrun
    obtain ⟨r, u, hr, q', u', hq', q, _, hq, rfl, -⟩ := hrun
    obtain ⟨rfl, hw, hreadR, hreadQ⟩ := hab.reads_pair ha hb hr hq' hq
    refine ⟨_, rfl, ?_⟩
    split at hz
    · obtain ⟨hzw, hzr⟩ := hz.holds hreadR
      exact ⟨hzw.trans (Range.width_union hw).symm, Range.mem_union hw (.inl hzr)⟩
    · obtain ⟨hzw, hzq⟩ := hz.holds hreadQ
      exact ⟨hzw.trans (hw.symm.trans (Range.width_union hw).symm), Range.mem_union hw (.inr hzq)⟩

/-- A phi joins the ranges of its entries, apart from those for edges that close a loop. -/
theorem Checked.mem_of_phiRange (c : Checked e f) (hs : e.Fits s) {entries : List PhiEntry}
    {first r : Range} (hreads : ∀ entry ∈ entries, f.ReadsAtType entry.value)
    (hsuits : ∀ entry ∈ entries, entry.value.Suits (.int first.width))
    (hrun : (phiRange e f loops l first entries).run s = .ok r t) :
    r.width = first.width ∧ (∀ n ∈ first, n ∈ r) ∧
      ∀ entry ∈ entries, (⟨entry.label, l⟩ : Edge) ∉ loops →
        ∀ z, e.Sees f s entry.label entry.value z → z.val ∈ r := by
  induction entries generalizing s first with
  | nil =>
    obtain ⟨rfl, -⟩ := run_pure_eq_ok.1 hrun
    exact ⟨rfl, fun _ ↦ id, fun _ h ↦ absurd h List.not_mem_nil⟩
  | cons entry entries ih =>
    obtain ⟨hread, hreads⟩ := List.forall_mem_cons.1 hreads
    obtain ⟨hsuit, hsuits⟩ := List.forall_mem_cons.1 hsuits
    obtain ⟨source, _, hsource, hrun⟩ := run_bind_eq_ok.1 hrun
    obtain ⟨htarget, rfl⟩ := run_ofExcept_eq_ok.1 hsource
    obtain rfl := target_eq_ok htarget
    split at hrun
    · rename_i hloop
      obtain ⟨hw, hfirst, hmem⟩ := ih hs hreads hsuits hrun
      exact ⟨hw, hfirst, List.forall_mem_cons.2 ⟨fun hnot ↦ absurd hloop hnot, hmem⟩⟩
    · simp only [run_bind_eq_ok] at hrun
      obtain ⟨q, u, hq, p, u', hp, hrun⟩ := hrun
      have hqw := c.width_of_reads hs hread hsuit ⟨u, hq⟩
      have hu := (c.rangeOf_maintains hread).keeps_of_ok hs hq
      have hu' := (conformed_maintains first q).keeps_of_ok hu hp
      have hsame := (Env.SeesAlike.rangeOf hread hq).trans (.conformed hp)
      obtain rfl : p = q := by
        obtain ⟨log, -, rfl, -⟩ := run_conformed_eq_ok.1 hp
        exact if_pos hqw
      have hwidth := Range.width_union hqw
      obtain ⟨hw, hfirst, hmem⟩ := ih hu' hreads (by rw [hwidth]; exact hsuits) hrun
      refine ⟨hw.trans hwidth, fun n hn ↦ hfirst n (Range.mem_union hqw (.inl hn)), ?_⟩
      refine List.forall_mem_cons.2 ⟨fun _ z hz ↦ ?_, fun entry' hentry' hnot z hz ↦ ?_⟩
      · exact hfirst _ (Range.mem_union hqw (.inr (hz.holds ⟨u, hq⟩).2))
      · exact hmem entry' hentry' hnot z (hsame.sees (hreads entry' hentry') hz)

/-- The range of a phi holds the words that come from the blocks before it, but for those that come
along a back edge. -/
theorem Checked.holds_of_phi (c : Checked e f) (hs : e.Fits s) {entries : List PhiEntry}
    (hreads : ∀ entry ∈ entries, f.ReadsAtType entry.value)
    (hsuits : ∀ entry ∈ entries, entry.value.Suits ty)
    (hrun : (valueRange e f loops l x (.phi ty entries)).run s = .ok r? t)
    (h : (Value.phi ty entries).Gives (e.Sees f s) loops l z) :
    ∃ r, r? = some r ∧ r.Holds z := by
  cases h with
  | phi hentry hloop hz =>
    have hty := c.ty_eq_of_sees hs (hreads _ hentry) hz
    rw [(hsuits _ hentry).ty_eq (by rw [hty]; rfl)] at hty
    subst hty
    simp only [valueRange, Ty.width?, counted, run_bind_eq_ok, run_ofExcept_eq_ok, run_pure_eq_ok,
      counted_eq_ok] at hrun
    obtain ⟨_, _, ⟨⟨-, rfl⟩, rfl⟩, r, _, hphi, rfl, -⟩ := hrun
    obtain ⟨hw, -, hmem⟩ := c.mem_of_phiRange hs hreads hsuits hphi
    exact ⟨r, rfl, hw.symm, hmem _ hentry hloop z hz⟩

/-- The range of a value has the words that the value gives. -/
theorem Checked.holds_of_valueRange (c : Checked e f) (hs : e.Fits s) (hi : i ∈ f.instrs)
    (hact : i.action = .assign x v) (hrun : (valueRange e f loops l x v).run s = .ok r? t)
    (h : v.Gives (e.Sees f s) loops l z) : ∃ r, r? = some r ∧ r.Holds z := by
  have htyped := c.typed i hi
  have hop := c.operand i hi
  rw [hact] at htyped
  simp only [Instr.operands, hact] at hop
  have hmeet := c.meetAtOneWidth hs
  cases v with
  | binary op ty a b =>
    exact holds_of_binary (hop a (by simp [Action.operands])) (hop b (by simp [Action.operands]))
      (hmeet.binary i hi x op ty a b hact) hrun h
  | compare => exact holds_of_compare hrun h
  | cast => exact holds_of_cast hrun h
  | select ty cond a b =>
    have ha := hop a (by simp [Action.operands])
    have hb := hop b (by simp [Action.operands])
    refine holds_of_select ha hb (hmeet.select i hi x ty cond a b hact) ?_ hrun h
    cases h with
    | select hz =>
      split at hz
      · have hty := c.ty_eq_of_sees hs ha hz
        rw [← htyped.2.1.ty_eq (by rw [hty]; rfl), hty]
        rfl
      · have hty := c.ty_eq_of_sees hs hb hz
        rw [← htyped.2.2.ty_eq (by rw [hty]; rfl), hty]
        rfl
  | phi ty entries =>
    refine c.holds_of_phi hs (fun entry hentry ↦ hop _ ?_) htyped hrun h
    simpa [Action.operands] using ⟨entry, hentry, rfl⟩
  | load | alloca | field | elem | call => cases h

/-! ## Values that are found -/

/-- Where both operands of an operation have ranges, the operation has one. -/
theorem exists_run_of_binary {op : BinaryOp} (ha : f.ReadsAtType a) (hb : f.ReadsAtType b)
    (hab : ReadAlike e f s a b) (hr : e.Reads f s l a r) (hq : e.Reads f s l b q) :
    ∃ r? t, (valueRange e f loops l x (.binary op ty a b)).run s = .ok r? t := by
  obtain ⟨t, u, hr, hq, hconf⟩ := hab.exists_reads_pair ha hb hr hq
  exact ⟨_, u, run_bind_eq_ok.2 ⟨r, t, hr, run_bind_eq_ok.2 ⟨q, u, hq,
    run_bind_eq_ok.2 ⟨q, u, hconf, run_pure_eq_ok.2 ⟨rfl, rfl⟩⟩⟩⟩⟩

/-- Where both operands of a select have ranges, the select has one. -/
theorem exists_run_of_select (ha : f.ReadsAtType a) (hb : f.ReadsAtType b)
    (hab : ReadAlike e f s a b) (hr : e.Reads f s l a r) (hq : e.Reads f s l b q) :
    ∃ r? t, (valueRange e f loops l x (.select ty cond a b)).run s = .ok r? t := by
  simp only [valueRange]
  split
  · obtain ⟨t, u, hr, hq, hconf⟩ := hab.exists_reads_pair ha hb hr hq
    exact ⟨_, u, run_bind_eq_ok.2 ⟨r, t, hr, run_bind_eq_ok.2 ⟨q, u, hq,
      run_bind_eq_ok.2 ⟨q, u, hconf, run_pure_eq_ok.2 ⟨rfl, rfl⟩⟩⟩⟩⟩
  · exact ⟨none, s, rfl⟩

/-- A cast in its proper direction has a range, if the width of the target can be counted. -/
theorem exists_run_of_cast {op : CastOp}
    (hcount : ∀ w, target = .int w → countable w.bits = .ok ())
    (h : (Value.cast op ty o target).Gives (e.Sees f s) loops l z) :
    ∃ r? t, (castRange e f l op ty o target).run s = .ok r? t := by
  cases h with
  | cast hx hdirection hz =>
    obtain ⟨r, ⟨t, hr⟩, hxr⟩ := hx
    have hw := run_counted (s := t) (hcount _ rfl)
    cases op with
    | trunc | zext =>
      exact ⟨_, t, run_bind_eq_ok.2 ⟨r, t, hr, run_bind_eq_ok.2 ⟨_, t, hw,
        run_pure_eq_ok.2 ⟨rfl, rfl⟩⟩⟩⟩
    | sext =>
      have hle := hdirection rfl
      rw [hxr.1] at hle
      have hextend := Range.signExtendAt_eq_ok.2 ⟨hle, hcount _ rfl, rfl⟩
      exact ⟨_, t, run_bind_eq_ok.2 ⟨r, t, hr, run_bind_eq_ok.2 ⟨_, t, hw,
        run_bind_eq_ok.2 ⟨_, t, run_ofExcept_eq_ok.2 ⟨hextend, rfl⟩,
          run_pure_eq_ok.2 ⟨rfl, rfl⟩⟩⟩⟩⟩
    | bitcast | ptrtoint | inttoptr => cases hz
  | bitcast hx hw =>
    obtain ⟨r, ⟨t, hr⟩, -⟩ := hx
    exact ⟨_, t, run_bind_eq_ok.2 ⟨r, t, hr, run_bind_eq_ok.2 ⟨_, t,
      run_counted (hcount _ rfl), run_pure_eq_ok.2 ⟨rfl, rfl⟩⟩⟩⟩

/-- The ranges of a phi are joined without a failure if those of its values are found at one width.
-/
theorem Checked.exists_run_phiRange (c : Checked e f) (hs : e.Fits s) {entries : List PhiEntry}
    {first : Range} (hlabels : ∀ entry ∈ entries, f.hasBlock entry.label = true)
    (hreads : ∀ entry ∈ entries, f.ReadsAtType entry.value)
    (hsuits : ∀ entry ∈ entries, entry.value.Suits (.int first.width))
    (hlookup : ∀ entry ∈ entries, (⟨entry.label, l⟩ : Edge) ∉ loops →
      ∃ r, e.Reads f s entry.label entry.value r) :
    ∃ r t, (phiRange e f loops l first entries).run s = .ok r t := by
  induction entries generalizing s first with
  | nil => exact ⟨first, s, rfl⟩
  | cons entry entries ih =>
    obtain ⟨hlabel, hlabels⟩ := List.forall_mem_cons.1 hlabels
    obtain ⟨hread, hreads⟩ := List.forall_mem_cons.1 hreads
    obtain ⟨hsuit, hsuits⟩ := List.forall_mem_cons.1 hsuits
    obtain ⟨hreadable, hlookup⟩ := List.forall_mem_cons.1 hlookup
    have htarget : (ofExcept (f.target entry.label)).run s = .ok entry.label s :=
      run_ofExcept_eq_ok.2 ⟨if_pos hlabel, rfl⟩
    by_cases hloop : (⟨entry.label, l⟩ : Edge) ∈ loops
    · obtain ⟨r, t, hrun⟩ := ih hs hlabels hreads hsuits hlookup
      exact ⟨r, t, run_bind_eq_ok.2 ⟨_, s, htarget, by rwa [if_pos hloop]⟩⟩
    · obtain ⟨q, u, hq⟩ := hreadable hloop
      have hqw := c.width_of_reads hs hread hsuit ⟨u, hq⟩
      have hsame := Env.SeesAlike.rangeOf hread hq
      have hunion : ∀ entry ∈ entries, entry.value.Suits (.int (first.union q).width) := by
        rw [Range.width_union hqw]
        exact hsuits
      obtain ⟨r, t, hrun⟩ := ih ((c.rangeOf_maintains hread).keeps_of_ok hs hq) hlabels hreads
        hunion fun entry' hentry' hnot ↦
          (hlookup entry' hentry' hnot).imp fun _ ↦ (hsame _ _ _ (hreads entry' hentry')).1
      refine ⟨r, t, run_bind_eq_ok.2 ⟨_, s, htarget, ?_⟩⟩
      rw [if_neg hloop]
      exact run_bind_eq_ok.2 ⟨q, u, hq, run_bind_eq_ok.2
        ⟨q, u, run_conformed_of_width_eq hqw, hrun⟩⟩

/-- The range of a value that gives a word is found, if all that is looked up for it can be read and
its width can be counted. -/
theorem Checked.exists_run_valueRange (c : Checked e f) (hs : e.Fits s) (hi : i ∈ f.instrs)
    (hlabels : ∀ k ∈ i.labels, f.hasBlock k = true) (hact : i.action = .assign x v)
    (hcount : ∀ w, v.ty = .int w → countable w.bits = .ok ())
    (hlookup : ∀ p ∈ v.lookups loops l, ∃ r, e.Reads f s p.1 p.2 r)
    (h : v.Gives (e.Sees f s) loops l z) :
    ∃ r? t, (valueRange e f loops l x v).run s = .ok r? t := by
  have htyped := c.typed i hi
  have hop := c.operand i hi
  rw [hact] at htyped
  simp only [Instr.operands, hact] at hop
  have hmeet := c.meetAtOneWidth hs
  cases v with
  | binary op ty a b =>
    obtain ⟨r, hr⟩ := hlookup (l, a) (by simp [Value.lookups])
    obtain ⟨q, hq⟩ := hlookup (l, b) (by simp [Value.lookups])
    exact exists_run_of_binary (hop a (by simp [Action.operands]))
      (hop b (by simp [Action.operands])) (hmeet.binary i hi x op ty a b hact) hr hq
  | compare => exact ⟨_, s, rfl⟩
  | cast => exact exists_run_of_cast hcount h
  | select ty cond a b =>
    obtain ⟨r, hr⟩ := hlookup (l, a) (by simp [Value.lookups])
    obtain ⟨q, hq⟩ := hlookup (l, b) (by simp [Value.lookups])
    exact exists_run_of_select (hop a (by simp [Action.operands]))
      (hop b (by simp [Action.operands])) (hmeet.select i hi x ty cond a b hact) hr hq
  | phi ty entries =>
    have hreads (entry : PhiEntry) (hentry : entry ∈ entries) : f.ReadsAtType entry.value :=
      hop _ (by simpa [Action.operands] using ⟨entry, hentry, rfl⟩)
    cases h with
    | phi hentry hloop hz =>
      have hty := c.ty_eq_of_sees hs (hreads _ hentry) hz
      rw [(htyped _ hentry).ty_eq (by rw [hty]; rfl)] at hty
      subst hty
      have hblocks (entry : PhiEntry) (hentry : entry ∈ entries) : f.hasBlock entry.label = true :=
        hlabels _ (by simpa [Instr.labels, Action.labels, hact] using ⟨entry, hentry, rfl⟩)
      have hentries (entry : PhiEntry) (hentry : entry ∈ entries)
          (hnot : (⟨entry.label, l⟩ : Edge) ∉ loops) :
          ∃ r, e.Reads f s entry.label entry.value r :=
        hlookup (entry.label, entry.value)
          (by simpa [Value.lookups] using ⟨entry, ⟨hentry, hnot⟩, rfl, rfl⟩)
      obtain ⟨r, t, hr⟩ : ∃ r t, (phiRange e f loops l (.empty z.width) entries).run s = .ok r t :=
        c.exists_run_phiRange hs hblocks hreads htyped hentries
      exact ⟨some r, t, run_bind_eq_ok.2 ⟨_, s, run_counted (hcount _ rfl),
        run_bind_eq_ok.2 ⟨r, t, hr, run_pure_eq_ok.2 ⟨rfl, rfl⟩⟩⟩⟩
  | load | alloca | field | elem | call => cases h

/-! ## Visits -/

/-- A range is joined to a fact of its width without a warning. -/
theorem exists_run_joinFact {k : Subject}
    (hw : ∀ old, (s.blockFacts f.name l).get? k = some old → old.width = r.width) :
    ∃ b t, (joinFact f l k r).run s = .ok b t := by
  refine ⟨_, _, run_joinFact_eq_ok.2 ⟨s.log, ?_, rfl, rfl⟩⟩
  unfold Log.noteJoin
  split
  · rename_i old hold
    split
    · rfl
    · exact compare_of_width_eq s.log (hw old hold)
  · rfl

/-- After a range is joined to a fact of its width, the fact has its members. -/
theorem holds_of_joinFact {k : Subject} {changed : Bool} (hkey : f.name ∈ s.facts.keys)
    (hw : ∀ old, (s.blockFacts f.name l).get? k = some old → old.width = r.width) (hz : r.Holds z)
    (hrun : (joinFact f l k r).run s = .ok changed t) :
    ∃ q, (t.blockFacts f.name l).get? k = some q ∧ q.Holds z := by
  obtain ⟨q, hq, hqw, hqz⟩ := Facts.exists_joined_of_new _ hz.2 hw
  refine ⟨q, ?_, hz.1.trans hqw.symm, hqz⟩
  rw [blockFacts_of_joinFact hkey hrun, Facts.get?_join, if_pos rfl, hq]

section Visit

variable (c : Checked e f) (hs : e.Fits s) (hi : i ∈ f.instrs) (hact : i.action = .assign x v)
include c hs hi hact

/-- The range of a value has the width of the facts about its variable. -/
theorem Checked.width_of_valueRange (hrun : (valueRange e f loops l x v).run s = .ok (some r) t) :
    ∀ old, (t.blockFacts f.name l).get? (.var x) = some old → old.width = r.width := by
  intro old hold
  have hvalue : Maintains e.Fits (valueRange e f loops l x v) _ := c.valueRange_maintains hi hact
  have hty := c.readsAtType_of_assign hi hact x v.ty rfl
  rw [hvalue.gives hs hrun r rfl] at hty
  exact hvalue.keeps_of_ok hs hrun f c.mem l _ old hold x r.width rfl hty

/-- A visit to an instruction with a value ends well if the operands of the value have ranges. -/
theorem Checked.exists_run_perform (hlabels : ∀ k ∈ i.labels, f.hasBlock k = true)
    (hcount : ∀ w, v.ty = .int w → countable w.bits = .ok ())
    (hlookup : ∀ p ∈ v.lookups loops l, ∃ r, e.Reads f s p.1 p.2 r) (site : Site)
    (h : v.Gives (e.Sees f s) loops l z) :
    ∃ t, (perform e f loops l site i).run s = .ok false t := by
  obtain ⟨r?, u, hrun⟩ := c.exists_run_valueRange hs hi hlabels hact hcount hlookup h
  obtain ⟨r, rfl, -⟩ := c.holds_of_valueRange hs hi hact hrun h
  obtain ⟨b, t, hjoin⟩ := exists_run_joinFact (c.width_of_valueRange hs hi hact hrun)
  refine ⟨t, ?_⟩
  unfold perform
  rw [hact]
  cases v with
  | call => cases h
  | binary | compare | cast | select | phi | load | alloca | field | elem =>
    exact run_bind_eq_ok.2 ⟨some r, u, hrun, run_bind_eq_ok.2 ⟨b, t, hjoin,
      run_pure_eq_ok.2 ⟨rfl, rfl⟩⟩⟩

/-- After the visit, the fact about the result holds each word that the instruction gives. -/
theorem Checked.holds_of_perform (hkey : f.name ∈ s.facts.keys) {site : Site} {changed : Bool}
    (hrun : (perform e f loops l site i).run s = .ok changed t)
    (h : v.Gives (e.Sees f s) loops l z) :
    ∃ q, (t.blockFacts f.name l).get? (.var x) = some q ∧ q.Holds z := by
  have hcall (call : Call) : v ≠ .call call := by
    rintro rfl
    cases h
  obtain ⟨r?, u, hvalue, -, -, hjoin⟩ := exists_valueRange_of_perform hact hcall hrun
  obtain ⟨r, rfl, hr⟩ := c.holds_of_valueRange hs hi hact hvalue h
  obtain ⟨b, hjoin⟩ := hjoin r rfl
  have hcomposed : Composed e f l (fun _ ↦ False) (fun _ ↦ True) (valueRange e f loops l x v) :=
    .valueRange (Composed.valueReads_of_mem (.trivial f) hi hact)
  exact holds_of_joinFact ((hcomposed.frame hvalue).mem_keys hkey)
    (c.width_of_valueRange hs hi hact hvalue) hr hjoin

end Visit

/-! ## Moments of visits -/

/-- What comes before the moment at which an element has its turn leaves the rest as it is. -/
theorem Comes.frame {act : α → SweepM Bool} {xs : List α} {a : α} {names ids : String → Prop}
    (hact : ∀ a ∈ xs, ∀ s t b, (act a).run s = .ok b t → Frame names ids s t)
    (h : Comes act xs s a t) : Frame names ids s t := by
  obtain ⟨before, after, b, rfl, hrun⟩ := h
  exact anyOf_frame (fun a ha ↦ hact a (List.mem_append_left _ ha)) hrun

/-- Only instructions of functions of the program are visited. -/
theorem Visits.mem {bl : Block} {p : Site × Instr} (h : Visits e s f bl p t) :
    f ∈ e.program.functions ∧ p.2 ∈ f.instrs := by
  obtain ⟨loops, g, s₁, s₂, s₃, hfunction, -, -, hblock, -, hvisit⟩ := h
  exact ⟨mem_functions_of_mem_defined hfunction.mem, mem_instrs_of_mem_sites hblock.mem hvisit.mem⟩

/-- Where a round comes to an instruction, there are facts of its function. -/
theorem Visits.mem_keys {bl : Block} {p : Site × Instr} (h : Visits e s f bl p t) :
    f.name ∈ t.facts.keys := by
  obtain ⟨loops, g, s₁, s₂, s₃, hfunction, -, -, hblock, hmerge, hvisit⟩ := h
  have hf := mem_functions_of_mem_defined hfunction.mem
  have hblocks : Frame (· = f.name) (· ∈ e.updatedIds) (beginFunction f s₁) s₂ :=
    hblock.frame fun b hb _ _ _ hrun ↦
      (Composed.sweepBlock (.trivial f) hf (fun _ ↦ id) g loops hb).frame hrun
  have hpredecessors : Frame (· = f.name) (· ∈ e.updatedIds) s₂ s₃ :=
    (Composed.mergePredecessors (.trivial f) g loops).frame hmerge
  have hvisits : Frame (· = f.name) (· ∈ e.updatedIds) s₃ t :=
    hvisit.frame fun p hp _ _ _ hrun ↦ (Composed.visit (.trivial f) hf (fun _ ↦ id) loops
      (mem_instrs_of_mem_sites hblock.mem hp) p.1).frame hrun
  exact ((hblocks.trans hpredecessors).trans hvisits).mem_keys
    (OrderedMap.mem_keys_insert.2 (.inr rfl))

/-- A sweep passes through the states in which it comes to an instruction. -/
theorem Visits.sweeping {s₁ s₂ : State} {bl : Block} {p : Site × Instr}
    (h : Visits e s₂ f bl p t) (hseed : (seed e).run s = .ok () s₁) (hreaches : Reaches e s₁ s₂) :
    Sweeping e s t := by
  obtain ⟨loops, g, s₃, s₄, s₅, hfunction, hloops, hg, hblock, hmerge, before, after, changed,
    hsites, hbefore⟩ := h
  have hmoment := isMoment_take (mem_functions_of_mem_defined hfunction.mem) hblock.mem g loops s₄
    before.length
  rw [hsites, List.take_left, endState_of_ok (run_bind_eq_ok.2 ⟨(), s₅, hmerge, hbefore⟩)]
    at hmoment
  exact ⟨s₁, s₂, s₃, s₄, f, bl, loops, g, hseed, hreaches, hfunction, hloops, hg, hblock, hmoment⟩

/-- In every sweep over an accepted program, whatever edges close its loops, a visit of an integer
instruction whose operands have some words comes to an end if all that it looks up can be read.
After it the facts of the block have the word that the instruction gives, and no fact has lost a
member. -/
theorem visit_sound {text : String} {mode : WarningMode} {s₁ s₂ : State} {bl : Block} {site : Site}
    (hparse : Program.parse text = .ok e.program) (hsound : e.program.isSound = true)
    (hseed : (seed e).run (.start e.settings mode) = .ok () s₁) (hreaches : Reaches e s₁ s₂)
    (hvisits : Visits e s₂ f bl (site, i) s) (hact : i.action = .assign x v)
    (loops : OrderedSet Edge) :
    (i.opcode ∉ e.unmodeled → (∀ p ∈ v.lookups loops bl.label, ∃ r, e.Reads f s p.1 p.2 r) →
      (∀ w, v.ty = .int w → countable w.bits = .ok ()) →
      (∃ z, v.Gives (e.Sees f s) loops bl.label z) →
      ∃ t, (visit e f loops bl.label (site, i)).run s = .ok false t) ∧
    ∀ changed t, (visit e f loops bl.label (site, i)).run s = .ok changed t →
      (∀ z, v.Gives (e.Sees f s) loops bl.label z →
        ∃ r, (t.blockFacts f.name bl.label).get? (.var x) = some r ∧ r.Holds z) ∧
      ∀ g l k r, (s.blockFacts g l).get? k = some r →
        ∃ q, (t.blockFacts g l).get? k = some q ∧ q.width = r.width ∧ ∀ n ∈ r, n ∈ q := by
  have hchecked (g : Function) (hg : g ∈ e.program.functions) : Checked e g :=
    .checked_of_parse hparse hsound hg
  have hfits := (steady_of_sweeping hchecked (.start e.settings mode)
    (hvisits.sweeping hseed hreaches)).fits
  obtain ⟨hf, hi⟩ := hvisits.mem
  have c := hchecked f hf
  refine ⟨fun hmodeled hlookup hcount ⟨z, hz⟩ ↦ ?_, fun changed t hrun ↦ ⟨fun z hz ↦ ?_, ?_⟩⟩
  · obtain ⟨t, hrun⟩ := c.exists_run_perform hfits hi hact
      (fun k hk ↦ hasBlock_of_isSound hsound hf hi hk) hcount hlookup site hz
    refine ⟨t, ?_⟩
    unfold visit
    dsimp only
    rw [if_neg (by simpa using hmodeled)]
    exact hrun
  · exact c.holds_of_perform hfits hi hact hvisits.mem_keys (visit_eq_ok hrun) hz
  · have hcomposed : Composed e f bl.label (fun _ ↦ True) (fun _ ↦ True)
        (visit e f loops bl.label (site, i)) := .visit (.trivial f) hf (fun _ _ ↦ ⟨⟩) loops hi site
    have hextends := hcomposed.extends_endState s
    rw [endState_of_ok hrun] at hextends
    exact hextends.kept

open Width (byte)

/-- The first visit of a sweep over `bounding`: the low bits of 23 are those of 7. -/
theorem visit_sound_bounding :
    Program.parse boundingText = .ok boundingEnv.program ∧
    boundingEnv.program.isSound = true ∧
    ∃ p s, Visits boundingEnv (.start boundingEnv.settings .always) bounding boundingEntry p s ∧
      ∃ t, (visit boundingEnv bounding ∅ boundingEntry.label p).run s = .ok false t ∧
        ∃ r, (t.blockFacts bounding.name boundingEntry.label).get? (.var "y") = some r ∧
          r.Holds (.ofInt byte 7) := by
  have hparse : Program.parse boundingText = .ok boundingEnv.program := by decide +kernel
  let start := State.start boundingEnv.settings .always
  let s := beginFunction bounding (beginRound boundingEnv start)
  have hseed : (seed boundingEnv).run start = .ok () start := rfl
  have hloops : bounding.backEdges = .ok ∅ := by cbv
  have hvisits : Visits boundingEnv start bounding boundingEntry
      (⟨bounding.name, boundingEntry.label, 0⟩, boundingEntry.instrs[0]) s :=
    ⟨∅, boundingFlow, _, _, s, ⟨[], [], false, rfl, rfl⟩, hloops, rfl, ⟨[], _, false, rfl, rfl⟩,
      rfl, ⟨[], _, false, rfl, rfl⟩⟩
  obtain ⟨hreturns, hsound⟩ := visit_sound hparse isSound_bounding hseed .refl hvisits rfl ∅
  have hread := run_of_result? (m := rangeOf boundingEnv bounding "entry" (.var "x" (.int byte)))
    (s := s) (a := .full byte) (by decide +kernel)
  have hx : boundingEnv.Sees bounding s "entry" (.var "x" (.int byte)) (.ofInt byte 23) :=
    ⟨_, ⟨_, hread⟩, rfl, Range.mem_full.2 (by decide)⟩
  have hgives : Value.Gives (boundingEnv.Sees bounding s) ∅ "entry"
      (.binary .and (.int byte) (.var "x" (.int byte)) (.literal 15 byte)) (.ofInt byte 7) :=
    .binary (y := .ofInt byte 15) hx (.literal rfl) rfl rfl
  have hlookup : ∀ p ∈ [("entry", Operand.var "x" (.int byte)), ("entry", .literal 15 byte)],
      ∃ r, boundingEnv.Reads bounding s p.1 p.2 r := by
    obtain ⟨_, hliteral, -⟩ := Env.Sees.literal (e := boundingEnv) (f := bounding) (s := s)
      (l := "entry") (n := 15) (w := byte) rfl
    exact List.forall_mem_cons.2 ⟨⟨_, _, hread⟩, List.forall_mem_singleton.2 ⟨_, hliteral⟩⟩
  have hcount (w : Width) (hw : Ty.int byte = .int w) : countable w.bits = .ok () := by
    cases hw
    rfl
  obtain ⟨t, hrun⟩ := hreturns (by decide) hlookup hcount ⟨_, hgives⟩
  exact ⟨hparse, isSound_bounding, _, s, hvisits, t, hrun, (hsound false t hrun).1 _ hgives⟩

end Sweep

end RangeFlow
