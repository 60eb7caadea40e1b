import RangeFlow.Diagnose
import RangeFlow.Proofs.Comparison.Region
import RangeFlow.Proofs.Range.Arith
import RangeFlow.Proofs.Range.Resize
import RangeFlow.Proofs.Stateful
import RangeFlow.Proofs.Symbolic.Value

/-!
# Comparisons are decided rightly

The range of an expression holds the value of the operand that it describes, for every solution of
the equations of a function.  A comparison that is reported is decided by the two ranges, or by the
fact that both operands have one expression, and comes out as reported.
-/

namespace RangeFlow

namespace Range

variable {w : Width}

/-- The words of a width can be counted if two to its power can be stored. -/
theorem counted_of_lt (h : w.bits < 4294967296) : w.counted = .ok w := by
  unfold Width.counted countable
  rw [if_neg (by omega), if_neg (by omega)]
  rfl

/-- What is asked of the width of a range that has been computed. -/
theorem counted_of_le {u : Width} (hu : u.bits ≤ w.bits) (hw : w.counted = .ok w) :
    u.counted = .ok u := by
  unfold Width.counted countable at hw ⊢
  split at hw
  · cases hw
  · split at hw
    · cases hw
    · rw [if_neg (by omega), if_neg (by omega)]
      rfl

theorem fullAt_bits (h : w.counted = .ok w) : fullAt w.bits = .ok (full w) := by
  rw [fullAt, cardWidth_bits, h]
  rfl

theorem singletonAt_bits (h : w.counted = .ok w) (v : Int) :
    singletonAt v w.bits = .ok (singleton w v) := by
  rw [singletonAt, cardWidth_bits, h]
  rfl

theorem coverAt_bits (h : w.counted = .ok w) {lo hi : Int} (hle : lo ≤ hi) :
    coverAt lo hi w.bits = .ok (cover w lo hi) := by
  rw [coverAt, if_neg (by omega), cardWidth_bits, h]
  rfl

theorem zeroExtendAt_bits (h : w.counted = .ok w) {r : Range} (hle : r.width.bits ≤ w.bits) :
    r.zeroExtendAt w.bits = .ok (r.zeroExtend w) := by
  rw [zeroExtendAt, if_neg (by omega), cardWidth_bits, h]
  rfl

/-- A remainder is less than the divisor, and no more than the greatest dividend. -/
theorem mod_mem_cover {r : Range} {x c : Nat} (hx : x ∈ r) (hc : c ≠ 0) :
    x % c ∈ cover r.width 0 (min ((c : Int) - 1) r.unsignedMax) := by
  have hmod : x % c < c := Nat.mod_lt x (Nat.pos_of_ne_zero hc)
  have hle : x % c ≤ x := Nat.mod_le x c
  have hmax := le_unsignedMax_of_mem hx
  have hlt := lt_card_of_mem hx
  rw [← r.width.wrap_natCast_of_lt (hle.trans_lt hlt)]
  exact wrap_mem_cover (by omega) (by omega)

end Range

namespace Symbolic

open Range

variable {f : Function} {types : OrderedMap String Ty} {edges : OrderedSet Edge}
variable {byZero : BinaryOp → Width → Nat → Nat} {ρ : String → Nat}
variable {w : Width} {o : Operand} {n : Nat} {e : Expr}

/-! ## Ranges of expressions -/

/-- The range of a described operation holds its result. -/
theorem binaryRange_sound {op : BinaryOp} {r : Range} {x c v : Nat} (hw : w.counted = .ok w)
    (hr : r.width = w) (hx : x ∈ r) (hc : c < w.card) (hv : v < w.card)
    (h : op.result? byZero w x c = some v) :
    ∃ q, Expr.binaryRange op.name r (singleton w c) c w.bits = .ok q ∧ q.width = w ∧ v ∈ q := by
  subst hr
  have hcm : c ∈ singleton r.width (c : Int) :=
    mem_singleton.2 (r.width.wrap_natCast_of_lt hc).symm
  have hsame : r.width = (singleton r.width (c : Int)).width := (width_singleton _ _).symm
  cases op with
  | add =>
    cases h
    exact ⟨_, congrArg Fault.ofRange (paired_of_width_eq _ hsame), width_add _ _,
      wrap_add_mem hsame hx hcm⟩
  | and =>
    cases h
    exact ⟨_, congrArg Fault.ofRange (paired_of_width_eq _ hsame), width_binaryAnd _ _,
      and_mem hx hcm⟩
  | urem =>
    by_cases hzero : c = 0
    · subst hzero
      exact ⟨_, congrArg Fault.ofRange (fullAt_bits hw), rfl, mem_full.2 hv⟩
    · have hne : ¬(c : Int) = 0 := by omega
      have hext : extreme unsignedMax r = .ok r.unsignedMax := by
        rw [extreme, not_isEmpty_of_mem hx]
        rfl
      refine ⟨cover r.width 0 (min ((c : Int) - 1) r.unsignedMax), ?_, width_cover _ _ _, ?_⟩
      · show (if (c : Int) = 0 then _ else _) = _
        rw [if_neg hne, hext]
        exact congrArg Fault.ofRange (coverAt_bits hw (by omega))
      · have hval : v = x % c := by simpa [BinaryOp.result?, hzero] using h.symm
        rw [hval]
        exact mod_mem_cover hx hzero
  | udiv =>
    by_cases hzero : c = 0
    · subst hzero
      exact ⟨_, congrArg Fault.ofRange (fullAt_bits hw), rfl, mem_full.2 hv⟩
    · have hne : ¬(c : Int) = 0 := by omega
      refine ⟨r.udiv (singleton r.width c), ?_, width_udiv _ _, ?_⟩
      · show (if (c : Int) = 0 then _ else _) = _
        rw [if_neg hne, paired_of_width_eq _ hsame]
        rfl
      · have hval : v = x / c := by simpa [BinaryOp.result?, hzero] using h.symm
        rw [hval]
        exact div_mem hx hcm hzero
  | lshr =>
    cases h
    by_cases hbits : r.width.bits ≤ c
    · have hle : (r.width.bits : Int) ≤ c := by omega
      refine ⟨full r.width, ?_, rfl, mem_full.2 hv⟩
      show (if (r.width.bits : Int) ≤ c then _ else _) = _
      rw [if_pos hle, fullAt_bits hw]
      rfl
    · have hle : ¬(r.width.bits : Int) ≤ c := by omega
      refine ⟨_, ?_, width_lshr _ _, shiftRight_mem hx hcm⟩
      show (if (r.width.bits : Int) ≤ c then _ else _) = _
      rw [if_neg hle, paired_of_width_eq _ hsame]
      rfl
  | sub | mul | sdiv | srem | shl | ashr | or | xor => cases h

theorem exists_range_constant (hw : w.counted = .ok w) {v : Nat} (hv : v < w.card) :
    ∃ r, (Expr.constant v w.bits).range = .ok r ∧ r.width = w ∧ v ∈ r := by
  refine ⟨singleton w v, congrArg Fault.ofRange (singletonAt_bits hw v), width_singleton w v, ?_⟩
  exact mem_singleton.2 (w.wrap_natCast_of_lt hv).symm

/-- Where nothing is known, the full range has every word. -/
theorem exists_range_full (hw : w.counted = .ok w) {v : Nat} (hv : v < w.card) :
    ∃ r, Fault.ofRange (fullAt w.bits) = .ok r ∧ r.width = w ∧ v ∈ r :=
  ⟨full w, congrArg Fault.ofRange (fullAt_bits hw), rfl, mem_full.2 hv⟩

/-- The range after a step holds the result, if the one before it holds the operand. -/
theorem exists_range_form {u : Width} {step : Step} {r : Range} {x v : Nat}
    (hw : w.counted = .ok w) (hle : u.bits ≤ w.bits) (hsame : step ≠ .extend → u = w)
    (he : e.range = .ok r) (hr : r.width = u) (hx : x ∈ r) (hv : v < w.card)
    (hstep : step.Holds byZero w x v) :
    ∃ q, (step.form w e).range = .ok q ∧ q.width = w ∧ v ∈ q := by
  cases step with
  | extend =>
    obtain rfl : v = x := hstep
    refine ⟨r.zeroExtend w, ?_, width_zeroExtend r w, mem_zeroExtend (hr ▸ hle) hx⟩
    simp only [Step.form, Expr.range, he]
    exact congrArg Fault.ofRange (zeroExtendAt_bits hw (hr ▸ hle))
  | operate op c =>
    obtain rfl := hsame (by simp)
    obtain ⟨hc, hres⟩ := hstep
    obtain ⟨q, hq, hqw, hvq⟩ := binaryRange_sound hw hr hx hc hv hres
    refine ⟨q, ?_, hqw, hvq⟩
    simp only [Step.form, Expr.range, he, singletonAt_bits hw]
    exact hq
  | recur amount header => exact exists_range_full hw hv

/-- The value of an operand lies in the range of its expression, if the words of its width can be
counted. -/
theorem Solution.exists_range (hρ : Solution f byZero ρ) (hc : Context f types edges)
    (hw : w.counted = .ok w) (ho : f.Uses o) (hty : o.ty = .int w)
    (h : describe f edges n o = some e) :
    ∃ r, e.range = .ok r ∧ r.width = w ∧ o.valueIn ρ ∈ r := by
  have hlt := hρ.valueIn_lt_card ho hty
  induction n using Nat.strongRecOn generalizing o w e with
  | ind n ih =>
    cases origin_of_describe hty h with
    | literal n v u =>
      cases hty
      exact exists_range_constant hw hlt
    | hidden n x u =>
      cases hty
      exact exists_range_full hw hlt
    | @folded k x u o' step e' v hstep he' hv =>
      cases hty
      obtain rfl := hρ.valueIn_of_constant hc ho rfl h
      exact exists_range_constant hw hlt
    | @formed k x u o' step e' hstep he' hv =>
      cases hty
      obtain ⟨ho', u', hu', hle, hsame⟩ := hc.exists_of_stepOf? ho hstep
      obtain ⟨r, hr, hrw, hmem⟩ := ih k (Nat.lt_succ_self k) (counted_of_le hle hw) ho' hu' he'
        (hρ.valueIn_lt_card ho' hu')
      exact exists_range_form hw hle hsame hr hrw hmem hlt (hρ.holds_of_stepOf? hc ho hstep)

/-- A range was made at a width whose words can be counted. -/
theorem counted_of_map {α : Type} {g : Width → α} {a : α}
    (h : Fault.ofRange ((cardWidth w.bits).map g) = .ok a) : w.counted = .ok w := by
  rw [cardWidth_bits] at h
  unfold Width.counted at h ⊢
  cases hcount : countable w.bits with
  | ok u => rfl
  | error x =>
    rw [hcount] at h
    cases h

/-- A range that was computed belongs to a width whose words can be counted. -/
theorem counted_of_range {r : Range} (hbits : e.bits = w.bits) (h : e.range = .ok r) :
    w.counted = .ok w := by
  cases e with
  | constant v b =>
    obtain rfl : b = w.bits := hbits
    exact counted_of_map h
  | unknown x b =>
    obtain rfl : b = w.bits := hbits
    exact counted_of_map h
  | recurrence start step header b =>
    obtain rfl : b = w.bits := hbits
    exact counted_of_map h
  | zeroExtend e b =>
    obtain rfl : b = w.bits := hbits
    rw [Expr.range] at h
    cases hr : e.range with
    | error x =>
      rw [hr] at h
      cases h
    | ok q =>
      rw [hr] at h
      replace h : Fault.ofRange (q.zeroExtendAt w.bits) = .ok r := h
      unfold zeroExtendAt at h
      split at h
      · cases h
      · exact counted_of_map h
  | binary op e c b =>
    obtain rfl : b = w.bits := hbits
    rw [Expr.range] at h
    cases hr : e.range with
    | error x =>
      rw [hr] at h
      cases h
    | ok q =>
      cases hs : Fault.ofRange (singletonAt c w.bits) with
      | error x =>
        rw [hr, hs] at h
        cases h
      | ok q' => exact counted_of_map hs

/-! ## Verdicts -/

/-- A reflexive comparison holds of a word and itself. -/
theorem holds_of_isReflexive {c : Comparison} (h : c.isReflexive = true) (bits : Nat)
    (v : Int) : c.holds bits v v = true := by
  cases c with
  | eq | ule | uge | sle | sge => simp [Comparison.holds]
  | ne | ult | ugt | slt | sgt => cases h

section Known

variable {a b : Operand} {l r : Expr} {c : Comparison}

/-- What is known of two expressions holds of the operands that they describe. -/
theorem Solution.holds_of_isKnown (hρ : Solution f byZero ρ) (hc : Context f types edges)
    (ha : f.Uses a) (hb : f.Uses b) (hta : a.ty = .int w) (htb : b.ty = .int w) (hn : n ≤ maxDepth)
    (hl : describe f edges n a = some l) (hr : describe f edges n b = some r)
    (h : isKnown c.name l r = .ok true) : c.holds w.bits (a.valueIn ρ) (b.valueIn ρ) = true := by
  have hlb := bits_of_describe hta hl
  have hrb := bits_of_describe htb hr
  unfold isKnown at h
  rw [if_neg (not_not.2 (hlb.trans hrb.symm)), Comparison.ofName?_name] at h
  split at h
  · rename_i heq
    subst heq
    rw [hρ.valueIn_eq hc ha hb hta htb hn hl hr]
    have hrefl : c.isReflexive = true := by simpa using h
    exact holds_of_isReflexive hrefl _ _
  · rename_i hne
    split at h
    · rename_i va ba vb bb
      have hva := hρ.valueIn_of_constant hc ha hta hl
      have hvb := hρ.valueIn_of_constant hc hb htb hr
      subst hva hvb
      obtain rfl : ba = w.bits := hlb
      unfold Comparison.holdsNamed at h
      rw [Comparison.ofName?_name] at h
      split at h
      · cases h
      · rename_i hname
        cases hname
        simpa using h
      · rename_i hname
        cases hname
    · cases hlr : l.range with
      | error x =>
        rw [hlr] at h
        cases h
      | ok p =>
        cases hrr : r.range with
        | error x =>
          rw [hlr, hrr] at h
          cases h
        | ok q =>
          have hw := counted_of_range hlb hlr
          obtain ⟨p', hp', hpw, hap⟩ := hρ.exists_range hc hw ha hta hl
          obtain ⟨q', hq', hqw, hbq⟩ := hρ.exists_range hc hw hb htb hr
          obtain rfl : p' = p := Except.ok.inj (hp'.symm.trans hlr)
          obtain rfl : q' = q := Except.ok.inj (hq'.symm.trans hrr)
          have hwidth : (c.satisfying q').width = p'.width := by
            rw [Comparison.width_satisfying, hqw, hpw]
          rw [hlr, hrr] at h
          simp only [bind, Except.bind, not_isEmpty_of_mem hap, not_isEmpty_of_mem hbq,
            Bool.or_self, Bool.false_eq_true, if_false, Comparison.satisfyingNamed,
            Comparison.ofName?_name, paired_of_width_eq _ hwidth] at h
          have hsub : (c.satisfying q').containsRange p' = true := by simpa [Fault.ofRange] using h
          have hmem := mem_of_containsRange hwidth hsub hap
          rw [← hqw]
          exact Comparison.holds_of_mem_satisfying hmem hbq

/-- A comparison comes out as its verdict says. -/
theorem Solution.holds_of_verdict? (hρ : Solution f byZero ρ) (hc : Context f types edges)
    (ha : f.Uses a) (hb : f.Uses b) (hta : a.ty = .int w) (htb : b.ty = .int w)
    (hl : describe f edges maxDepth a = some l) (hr : describe f edges maxDepth b = some r)
    {v : Verdict} (h : verdict? c l r = .ok (some v)) :
    c.holds w.bits (a.valueIn ρ) (b.valueIn ρ) = decide (v = .alwaysTrue) := by
  unfold verdict? at h
  split at h
  · cases h
  · cases hknown : isKnown c.name l r with
    | error x =>
      rw [hknown] at h
      cases h
    | ok known =>
      rw [hknown] at h
      cases known with
      | true =>
        cases h
        exact hρ.holds_of_isKnown hc ha hb hta htb (Nat.le_refl _) hl hr hknown
      | false =>
        cases hinv : isKnown c.invert.name l r with
        | error x =>
          simp only [bind, Except.bind, hinv] at h
          cases h
        | ok inverted =>
          simp only [bind, Except.bind, hinv] at h
          cases inverted with
          | true =>
            cases h
            have hholds := hρ.holds_of_isKnown hc ha hb hta htb (Nat.le_refl _) hl hr hinv
            rw [Comparison.holds_invert] at hholds
            simpa using hholds
          | false => cases h

/-- Expressions that can be compared at all are of operands of one width. -/
theorem width_eq_of_verdict? {u : Width} (hta : a.ty = .int w) (htb : b.ty = .int u)
    (hl : describe f edges n a = some l) (hr : describe f edges n b = some r) {v : Verdict}
    (h : verdict? c l r = .ok (some v)) : w = u := by
  have hlb := bits_of_describe hta hl
  have hrb := bits_of_describe htb hr
  by_contra hne
  have hbits : l.bits ≠ r.bits := by
    rw [hlb, hrb]
    exact fun heq ↦ hne (eq_of_bits_eq heq)
  have hfalse (c' : String) : isKnown c' l r = .ok false := by
    unfold isKnown
    rw [if_pos hbits]
  unfold verdict? at h
  rw [hfalse, hfalse] at h
  split at h <;> cases h

end Known

/-- The expressions of two operands are found if both can be described. -/
theorem answers_exprPair (hc : Context f types edges) {a b : Operand} (ha : f.Uses a)
    (hb : f.Uses b) :
    Answers edges (exprPair f a b)
      ((describe f edges maxDepth a).bind fun l ↦
        (describe f edges maxDepth b).map fun r ↦ (l, r)) := by
  refine (hc.answers_exprWithin ha).bind ((hc.answers_exprWithin hb).bind ?_)
  cases describe f edges maxDepth a <;> cases describe f edges maxDepth b <;> exact .pure _

theorem exists_width_of_describe (h : describe f edges n o = some e) : ∃ w, o.ty = .int w := by
  cases o with
  | literal v w => exact ⟨w, rfl⟩
  | symbol name => cases n <;> cases h
  | var x t =>
    cases t with
    | int w => exact ⟨w, rfl⟩
    | ptr | void | array | named | literal => cases n <;> cases h

structure Reports (f : Function) (edges : OrderedSet Edge) (i : Instr) (v : Verdict) : Prop where
  exists_compare : ∃ x c t a b l r, i.action = .assign x (.compare c t a b) ∧
    describe f edges maxDepth a = some l ∧ describe f edges maxDepth b = some r ∧
    verdict? c l r = .ok (some v)

variable {p : Program} {g : CallGraph} {label : String} {i : Instr} {s t : Loops}

/-- A report on an instruction is a verdict on its comparison, and leaves the oracle ready. -/
theorem diagnoseInstr_eq_ok (hc : Context f types edges) (hi : i ∈ f.instrs) (hs : Ready edges s)
    {d : Option Diagnostic} (h : (p.diagnoseInstr g f label i).run s = .ok d t) :
    Ready edges t ∧ ∀ d' ∈ d, d'.instr = i ∧ Reports f edges i d'.verdict := by
  unfold Program.diagnoseInstr at h
  split at h
  · rename_i x c ty a b ha
    have hops : a ∈ i.operands ∧ b ∈ i.operands := by simp [Instr.operands, Action.operands, ha]
    obtain ⟨u, hu, hrun⟩ := answers_exprPair hc ⟨i, hi, hops.1⟩ ⟨i, hi, hops.2⟩ s hs
    rw [run_bind_of_eq_ok hrun] at h
    cases hl : describe f edges maxDepth a with
    | none =>
      rw [hl] at h
      cases h
      exact ⟨hu, fun _ hd ↦ by cases hd⟩
    | some l =>
      cases hr : describe f edges maxDepth b with
      | none =>
        rw [hl, hr] at h
        cases h
        exact ⟨hu, fun _ hd ↦ by cases hd⟩
      | some r =>
        rw [hl, hr] at h
        simp only [Option.bind_some, Option.map_some] at h
        split at h
        · cases h
        · cases h
          exact ⟨hu, fun _ hd ↦ by cases hd⟩
        · rename_i v hv
          cases h
          refine ⟨hu, fun d' hd ↦ ?_⟩
          cases hd
          exact ⟨rfl, ⟨x, c, ty, a, b, l, r, ha, hl, hr, hv⟩⟩
  · cases h
    exact ⟨hs, fun _ hd ↦ by cases hd⟩

/-- Every report on a list of instructions is one on an instruction of the list. -/
theorem reports_of_mapM (hc : Context f types edges) {is : List (String × Instr)}
    (his : ∀ li ∈ is, li.2 ∈ f.instrs) (hs : Ready edges s) {ds : List (Option Diagnostic)}
    (h : (is.mapM fun (label, i) ↦ p.diagnoseInstr g f label i).run s = .ok ds t) :
    ∀ d, some d ∈ ds → d.instr ∈ f.instrs ∧ Reports f edges d.instr d.verdict := by
  induction is generalizing s ds with
  | nil =>
    cases h
    exact fun _ hd ↦ (List.not_mem_nil hd).elim
  | cons li is ih =>
    rw [List.mapM_cons] at h
    obtain ⟨d₀, u, hfirst, h⟩ := run_bind_eq_ok.1 h
    obtain ⟨ds', u', hrest, h⟩ := run_bind_eq_ok.1 h
    cases h
    have hli := his li List.mem_cons_self
    obtain ⟨hu, hd₀⟩ := diagnoseInstr_eq_ok hc hli hs hfirst
    intro d hd
    rcases List.mem_cons.1 hd with rfl | hd
    · obtain ⟨heq, hrep⟩ := hd₀ d rfl
      rw [heq]
      exact ⟨hli, hrep⟩
    · exact ih (fun li' hli' ↦ his li' (List.mem_cons_of_mem li hli')) hu hrest d hd

/-- Instructions listed with their label are those of the function. -/
theorem mem_instrs_of_labelled {li : String × Instr} (h : li ∈ f.labelled) : li.2 ∈ f.instrs := by
  obtain ⟨b, hb, hib⟩ := List.mem_flatMap.1 h
  obtain ⟨i, hi, rfl⟩ := List.mem_map.1 hib
  exact List.mem_flatMap.2 ⟨b, hb, hi⟩

/-- Every report on a function is one on an instruction of it. -/
theorem reports_of_diagnoseFunction (hc : Context f types edges) {ds : List Diagnostic}
    (h : p.diagnoseFunction g f = .ok ds) {d : Diagnostic} (hd : d ∈ ds) :
    d.instr ∈ f.instrs ∧ Reports f edges d.instr d.verdict := by
  unfold Program.diagnoseFunction at h
  split at h
  · rename_i ds' s' hrun
    cases h
    obtain ⟨d', hd', hsome⟩ := List.mem_filterMap.1 hd
    obtain rfl : d' = some d := hsome
    exact reports_of_mapM hc (fun _ hli ↦ mem_instrs_of_labelled hli) (.inl rfl) hrun d hd'
  · cases h

/-- **Verdicts on comparisons are right.**  For every solution of the equations of an accepted
function, the value of each integer operand lies in the range of its expression, as long as the
words of its width can be counted, and each comparison that is reported comes out as reported. -/
theorem verdict_right (hp : p.isSound = true) (hf : f ∈ p.functions) (hint : f.IsIntegral)
    (hρ : Solution f byZero ρ) :
    (∀ i ∈ f.instrs, ∀ o ∈ i.operands, ∀ w, o.ty = .int w →
      ∃ e s, (exprOf f o).run .fresh = .ok (some e) s ∧ e.bits = w.bits ∧
        (w.bits < 4294967296 → ∃ r, e.range = .ok r ∧ o.valueIn ρ ∈ r)) ∧
    ∀ g ds, p.diagnoseFunction g f = .ok ds → ∀ d ∈ ds, d.instr ∈ f.instrs ∧
      ∃ x c t a b w, d.instr.action = .assign x (.compare c t a b) ∧ a.ty = .int w ∧ b.ty = .int w ∧
        c.holds w.bits (a.valueIn ρ) (b.valueIn ρ) = decide (d.verdict = .alwaysTrue) := by
  by_cases hne : f.blocks = []
  · have hnone : f.instrs = [] := by rw [Function.instrs, hne, List.flatMap_nil]
    have hlabelled : f.labelled = [] := by rw [Function.labelled, hne, List.flatMap_nil]
    refine ⟨fun i hi ↦ ?_, fun g ds hds d hd ↦ ?_⟩
    · rw [hnone] at hi
      cases hi
    · rw [Program.diagnoseFunction, hlabelled] at hds
      cases hds
      cases hd
  · obtain ⟨edges, hc⟩ := exists_context hp hf hint hne
    refine ⟨fun i hi o ho w hty ↦ ?_, fun g ds hds d hd ↦ ?_⟩
    · have huse : f.Uses o := ⟨i, hi, ho⟩
      obtain ⟨e, he⟩ := hc.exists_describe (n := maxDepth) huse hty
      obtain ⟨s, hs⟩ := eq_of_answers (hc.answers_exprWithin (n := maxDepth) huse)
      rw [he] at hs
      refine ⟨e, s, hs, bits_of_describe hty he, fun hbits ↦ ?_⟩
      obtain ⟨r, hr, -, hmem⟩ := hρ.exists_range hc (counted_of_lt hbits) huse hty he
      exact ⟨r, hr, hmem⟩
    · obtain ⟨hi, x, c, t, a, b, l, r, ha, hl, hr, hv⟩ := reports_of_diagnoseFunction hc hds hd
      have hops : a ∈ d.instr.operands ∧ b ∈ d.instr.operands := by
        simp [Instr.operands, Action.operands, ha]
      obtain ⟨w, hta⟩ := exists_width_of_describe hl
      obtain ⟨u, htb⟩ := exists_width_of_describe hr
      obtain rfl := width_eq_of_verdict? hta htb hl hr hv
      exact ⟨hi, x, c, t, a, b, w, ha, hta, htb,
        hρ.holds_of_verdict? hc ⟨_, hi, hops.1⟩ ⟨_, hi, hops.2⟩ hta htb hl hr hv⟩

/-! ## A comparison that is always true -/

open Width (byte word)

/-- The low digits of a parameter, extended and compared with a bound that they do not reach. -/
def masking : Function where
  name := "f"
  params := [⟨"a", .int byte⟩]
  returns := .i1
  isVararg := false
  blocks :=
    [⟨"entry",
      [⟨.assign "x" (.binary .and (.int byte) (.var "a" (.int byte)) (.literal 15 byte)), 1⟩,
        ⟨.assign "z" (.cast .zext (.int byte) (.var "x" (.int byte)) (.int word)), 2⟩,
        ⟨.assign "c" (.compare .ult (.int word) (.var "z" (.int word)) (.literal 16 word)), 3⟩,
        ⟨.finish (.ret .i1 (.var "c" .i1)), 4⟩]⟩]

/-- The words of the variables when the parameter is 200. -/
def maskingWords (x : String) : Nat :=
  if x = "a" then 200 else if x = "c" then 1 else 8

theorem isSound_masking : Program.isSound ⟨[], [], [masking]⟩ = true :=
  Function.isSound_of_allAvailable rfl rfl (by decide) (by decide) (by decide) (by decide)

theorem isIntegral_masking : masking.IsIntegral := by
  intro i hi x v ha
  have hall : ∀ i ∈ masking.instrs, ∀ v ∈ i.value?, v.isIntegral = true := by decide
  exact hall i hi v (by simp [Instr.value?, ha])

/-- With a parameter of 200 the words satisfy all equations. -/
theorem solution_masking : Solution masking (fun _ _ _ ↦ 0) maskingWords where
  word := by
    rintro x w ⟨i, hi, ho⟩
    have hall : ∀ i ∈ masking.instrs, ∀ o ∈ i.operands, ∀ u ∈ o.ty.width?,
        o.valueIn maskingWords < u.card := by decide
    exact hall i hi _ ho w rfl
  zext := by
    intro i hi x source o w ha
    simp only [masking, Function.instrs, List.flatMap_cons, List.flatMap_nil, List.append_nil,
      List.mem_cons, List.not_mem_nil, or_false] at hi
    rcases hi with rfl | rfl | rfl | rfl <;> cases ha
    rfl
  binary := by
    intro i hi x op w a b ha v hv
    simp only [masking, Function.instrs, List.flatMap_cons, List.flatMap_nil, List.append_nil,
      List.mem_cons, List.not_mem_nil, or_false] at hi
    rcases hi with rfl | rfl | rfl | rfl <;> cases ha
    cases hv
    decide
  phi := by
    rintro x y e ⟨-, i, hi, t, entries, ha, -⟩
    simp only [masking, Function.instrs, List.flatMap_cons, List.flatMap_nil, List.append_nil,
      List.mem_cons, List.not_mem_nil, or_false] at hi
    rcases hi with rfl | rfl | rfl | rfl <;> cases ha

/-- The report that the comparison is always true is right for these words. -/
theorem verdict_right_masking :
    Program.isSound ⟨[], [], [masking]⟩ = true ∧ masking.IsIntegral ∧
    Solution masking (fun _ _ _ ↦ 0) maskingWords ∧
    ∃ d, Program.diagnoseFunction ⟨[], [], [masking]⟩ ⟨[]⟩ masking = .ok [d] ∧
      d.verdict = .alwaysTrue ∧ ∃ x c t a b w, d.instr.action = .assign x (.compare c t a b) ∧
        c.holds w (a.valueIn maskingWords) (b.valueIn maskingWords) = true := by
  obtain ⟨d, hd, hv⟩ : ∃ d, Program.diagnoseFunction ⟨[], [], [masking]⟩ ⟨[]⟩ masking = .ok [d] ∧
      d.verdict = .alwaysTrue := ⟨_, rfl, rfl⟩
  obtain ⟨-, hreports⟩ := verdict_right isSound_masking (List.mem_singleton_self masking)
    isIntegral_masking solution_masking
  obtain ⟨-, x, c, t, a, b, w, ha, -, -, hholds⟩ := hreports _ _ hd d (List.mem_singleton_self d)
  rw [hv] at hholds
  exact ⟨isSound_masking, isIntegral_masking, solution_masking, d, hd, hv, x, c, t, a, b, w.bits,
    ha, hholds⟩

end Symbolic

end RangeFlow
