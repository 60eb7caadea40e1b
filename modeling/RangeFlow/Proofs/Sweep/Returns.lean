import RangeFlow.Proofs.Sweep.Carried

/-!
# Runs that return

Every part of a sweep over an accepted program settles.  A run that returns has carried out every
instruction, which shows that the program can be analysed; and if it can, and its integers are
short, then a run returns.
-/

namespace RangeFlow

namespace Sweep

namespace Ground

variable {c : Ground} {l : String} {b : Block}

/-! ## Edges -/

/-- What a comparison tells about its operands can be a fact about them. -/
theorem allFit_refine {op : Comparison} {lhs rhs : Operand} {r q : Range} (hlhs : c.Reads lhs)
    (hrhs : c.Reads rhs) (hr : c.Gives lhs r) (hq : c.Gives rhs q) :
    c.AllFit (op.refine lhs rhs r (r.conform q)) := by
  have hright {m : Facts} (hm : c.AllFit m) {y : String} {w : Width}
      (hy : rhs = .var y (.int w)) (p : Range) : c.AllFit (m.insert (.var y) (p.resize w)) := by
    subst hy
    refine hm.insert ?_
    rw [Range.width_resize]
    obtain rfl : w = q.width := Ty.int.inj hq.ty
    exact hq.fits hrhs
  unfold Comparison.refine
  cases lhs with
  | var x t =>
    have hleft : c.AllFit (.ofList [(.var x, r.intersect (op.allowed (r.conform q)))]) := by
      refine AllFit.empty.insert ?_
      rw [Range.width_intersect (by simp)]
      exact hr.fits hlhs
    dsimp only
    split
    · exact hright hleft rfl _
    · exact hleft
  | symbol | literal =>
    dsimp only
    split
    · exact hright .empty rfl _
    · exact .empty

/-- The facts of a comparison of integers fit, and are found at once if the program can be analysed.
-/
theorem comparedFacts_settles {op : Comparison} {lhs rhs : Operand} (hlhs : c.Reads lhs)
    (hrhs : c.Reads rhs) (hleft : lhs.ty.isInt = true) (hright : rhs.ty.isInt = true) :
    c.Settles (comparedFacts c.env c.fn l op lhs rhs) c.AllFit := by
  refine .bind (rangeOf_settles hlhs fun _ ↦ hleft) fun r hr ↦ ?_
  refine .bind (rangeOf_settles hrhs fun _ ↦ hright) fun q hq ↦ ?_
  refine .bind (conformed_settles hr.short hq.short) ?_
  rintro _ rfl
  exact .pure (allFit_refine hlhs hrhs hr hq)

/-- The facts of a switch fit, and are found at once if the program can be analysed. -/
theorem switchedFacts_settles {x default target : String} {w : Width} {cases : List SwitchCase}
    (hcond : c.Reads (.var x (.int w))) :
    c.Settles (switchedFacts c.env c.fn l x w default cases target) c.AllFit := by
  refine .bind (counted_settles hcond.short) fun u hu ↦ ?_
  refine .bind (rangeOf_settles hcond fun _ ↦ rfl) fun r hr ↦ ?_
  obtain rfl : u = w := hu
  obtain rfl : u = r.width := Ty.int.inj hr.ty
  have hwidth := (width_switchRegion r.width default cases target).symm
  rw [Range.paired_of_width_eq _ hwidth]
  refine .bind (.ofExcept (Q := fun q ↦ q.width = r.width) ?_ fun _ ↦ ⟨_, rfl⟩) fun q hq ↦ ?_
  · rintro q ⟨⟩
    exact Range.width_intersect hwidth
  · refine .pure (AllFit.empty.insert ?_)
    rw [hq]
    exact hr.fits hcond

/-- The facts on any edge fit. -/
theorem edgeFacts_settles (hb : b ∈ c.fn.blocks) {target : String} :
    c.Settles (edgeFacts c.env c.fn b target) c.AllFit := by
  cases edgeCase c.env c.fn b target with
  | silent heq =>
    rw [heq]
    exact .pure .empty
  | branch _ hdef hleft hright heq =>
    obtain ⟨i, hi, x, ha⟩ := mem_instrs_of_condition hdef
    rw [heq]
    refine comparedFacts_settles (reads_of_mem hi ?_) (reads_of_mem hi ?_) hleft hright <;>
      simp [Instr.operands, Action.operands, ha]
  | switch hterm heq =>
    obtain ⟨i, hi, ha⟩ := mem_instrs_of_terminator? hb hterm
    rw [heq]
    exact switchedFacts_settles (reads_of_mem hi (by simp [Instr.operands, Action.operands, ha]))

/-- A part of a sweep that starts with the facts of a block. -/
theorem settles_of_facts {α : Type} {Q : α → Prop} {k : Facts → SweepM α}
    (h : ∀ m, c.AllFit m → c.Settles (k m) Q) :
    c.Settles (do k ((← get).blockFacts c.fn.name l)) Q where
  keeps := by
    intro s t a hs hrun
    obtain ⟨_, _, hget, hrun⟩ := run_bind_eq_ok.1 hrun
    obtain ⟨rfl, rfl⟩ := run_get_eq_ok.1 hget
    exact (h _ (hs.facts l)).keeps hs hrun
  returns := by
    intro hA s hs
    obtain ⟨a, t, ht⟩ := (h _ (hs.facts l)).returns hA hs
    exact ⟨a, t, run_bind_eq_ok.2 ⟨s, s, run_get_eq_ok.2 ⟨rfl, rfl⟩, ht⟩⟩

theorem mergeFrom_settles {source : Block} (hsource : source ∈ c.fn.blocks) :
    c.Settles (mergeFrom c.env c.fn l source) fun _ ↦ True := by
  refine .bind (edgeFacts_settles hsource) fun refined hrefined ↦ ?_
  exact settles_of_facts fun m hm ↦ joinFacts_settles (hm.insertAll hrefined)

theorem mergePredecessors_settles {g : Flow} :
    c.Settles (mergePredecessors c.env c.fn g c.loops l) fun _ ↦ True := by
  refine (Settles.forM (P := fun _ ↦ True) fun source _ ↦ ?_).mono fun _ _ ↦ ⟨⟩
  split
  · exact .pure ⟨⟩
  · split
    · rename_i b hb
      exact mergeFrom_settles (Function.mem_of_block? hb).1
    · exact .pure ⟨⟩

/-! ## Functions -/

/-- A sweep over a block ends exactly if its instructions can be analysed. -/
theorem sweepBlock_settles {g : Flow} (hb : b ∈ c.fn.blocks) :
    c.Settles (sweepBlock c.env c.fn g c.loops b) fun _ ↦
      ∀ i ∈ b.instrs, i.action.IsAnalysable c.fn c.loops b.label := by
  refine .bind mergePredecessors_settles fun _ _ ↦ ?_
  refine (Settles.anyOf fun p hp ↦ visit_settles hb hp).mono fun _ h i hi ↦ ?_
  obtain ⟨n, hn⟩ := List.mem_iff_getElem?.1 hi
  have hsite : (⟨c.fn.name, b.label, n⟩, i) ∈ b.sites c.fn.name := by
    refine List.mem_map.2 ⟨(i, n), ?_, rfl⟩
    exact List.mk_mem_zipIdx_iff_getElem?.2 hn
  exact h _ hsite

theorem sane_beginFunction {s : State} (hs : c.env.Calm s) : c.Sane (beginFunction c.fn s) where
  mode := hs.mode
  table := hs.table
  key := OrderedMap.mem_keys_insert.2 (.inr rfl)
  facts := by
    intro l
    rw [blockFacts_beginFunction]
    exact .empty

end Ground

/-! ## Runs -/

/-- The program is accepted and was read from a text, and every instruction has a known effect. -/
structure Env.Ready (e : Env) : Prop where
  sound : e.program.isSound = true
  typed : ∀ f ∈ e.program.functions, ∀ i ∈ f.instrs, i.action.IsTyped
  modeled : e.unmodeled = []

section Runs

variable {e : Env} {f : Function} {s t : State}

/-- The back edges of a function of an accepted program are found. -/
theorem exists_backEdges (h : e.Ready) (hf : f ∈ e.defined) : ∃ loops, f.backEdges = .ok loops := by
  obtain ⟨hmem, hdefined⟩ := List.mem_filter.1 hf
  obtain ⟨g, hg⟩ := exists_flow_of_isSound h.sound hmem
  cases hblocks : f.blocks with
  | nil => simp [Function.isDeclaration, hblocks] at hdefined
  | cons b bs =>
    have hentry : f.entry? = some b := by rw [Function.entry?, hblocks, List.head?_cons]
    exact ⟨g.backEdges b.label, by rw [Function.backEdges, hg, hentry]; rfl⟩

/-- A sweep over a function shows that the function can be analysed. -/
theorem sweepFunction_settles (h : e.Ready) (hf : f ∈ e.defined) :
    Settles e.Able e.Calm (sweepFunction e f) fun _ ↦ f.IsAnalysable := by
  have hmem := mem_functions_of_mem_defined hf
  obtain ⟨loops, hloops⟩ := exists_backEdges h hf
  obtain ⟨g, hg⟩ := exists_flow_of_isSound h.sound hmem
  let c : Ground := ⟨e, f, _, loops, h.sound, hmem, h.modeled, typing_of_isSound h.sound hmem hg,
    h.typed f hmem, hloops⟩
  have hblocks : c.Settles (anyOf (sweepBlock e f g loops) f.blocks) fun _ ↦
      ∀ b ∈ f.blocks, ∀ i ∈ b.instrs, i.action.IsAnalysable f loops b.label :=
    .anyOf fun b hb ↦ Ground.sweepBlock_settles (c := c) hb
  constructor
  · intro s t b hs hrun
    obtain ⟨loops', g', hloops', hg', hrun⟩ := sweepFunction_eq_ok.1 hrun
    obtain rfl : loops = loops' := Except.ok.inj (hloops.symm.trans hloops')
    obtain rfl : g = g' := Except.ok.inj (hg.symm.trans hg')
    obtain ⟨hsane, hana⟩ := hblocks.keeps (Ground.sane_beginFunction (c := c) hs) hrun
    refine ⟨hsane.toCalm, fun loops' hloops' ↦ ?_⟩
    obtain rfl : loops = loops' := Except.ok.inj (hloops.symm.trans hloops')
    exact hana
  · intro hA s hs
    obtain ⟨b, t, ht⟩ := hblocks.returns hA (Ground.sane_beginFunction (c := c) hs)
    exact ⟨b, t, sweepFunction_eq_ok.2 ⟨loops, g, hloops, hg, ht⟩⟩

theorem Env.Calm.beginRound (hs : e.Calm s) : e.Calm (beginRound e s) where
  mode := hs.mode
  table := by
    intro hA id r hr
    rw [get?_beginRound] at hr
    split at hr
    · obtain ⟨q, hq, rfl⟩ := Option.map_eq_some_iff.1 hr
      exact hs.table hA id q hq
    · exact hs.table hA id r hr

/-- A round ends exactly if every function can be analysed. -/
theorem round_settles (h : e.Ready) :
    Settles e.Able e.Calm (round e) fun _ ↦ ∀ f ∈ e.defined, f.IsAnalysable := by
  have hall := Settles.anyOf fun f hf ↦ sweepFunction_settles h hf
  constructor
  · intro s t b hs hrun
    exact hall.keeps hs.beginRound (round_eq_ok.1 hrun)
  · intro hA s hs
    obtain ⟨b, t, ht⟩ := hall.returns hA hs.beginRound
    exact ⟨b, t, round_eq_ok.2 ht⟩

/-- Rounds leave a calm state calm. -/
theorem Reaches.calm (h : e.Ready) (hr : Reaches e s t) (hs : e.Calm s) : e.Calm t := by
  induction hr with
  | refl => exact hs
  | tail _ hstep ih => exact ((round_settles h).keeps ih hstep).1

/-! ## Initial values -/

theorem exists_leaf_of_ofInt {l : Option Location} {w : Width} {v : Int} {x : Except Fault Leaf}
    (hw : w.isShort = true) (h : x ∈ Leaf.ofInt l w v) :
    ∃ leaf, x = .ok leaf ∧ leaf.range.width = w := by
  unfold Leaf.ofInt at h
  have hcount : Fault.ofRange w.counted = .ok w :=
    counted_eq_ok.2 ⟨Width.countable_of_isShort hw, rfl⟩
  rw [hcount, Option.mem_toList, Option.map_eq_some_iff] at h
  obtain ⟨location, -, rfl⟩ := h
  exact ⟨_, rfl, Range.width_singleton w v⟩

theorem exists_leaf_of_ofWritten {l : Option Location} {w : Width} {v : Int}
    {x : Except Fault Leaf} (hw : w.isShort = true) (h : x ∈ Leaf.ofWritten l w v) :
    ∃ leaf, x = .ok leaf ∧ leaf.range.width = w := by
  unfold Leaf.ofWritten at h
  have hcount : Fault.ofRange w.counted = .ok w :=
    counted_eq_ok.2 ⟨Width.countable_of_isShort hw, rfl⟩
  rw [hcount] at h
  exact exists_leaf_of_ofInt hw h

/-- Leaves come from the globals with an initial value whose names do not start with a dot. -/
theorem mem_leaves_iff {p : Program} {x : Except Fault Leaf} :
    x ∈ p.leaves ↔ ∃ g ∈ p.globals, g.name.startsWith "." = false ∧ ∃ k, g.init = some k ∧
      x ∈ p.constantLeaves (some (.global g.name)) g.ty k := by
  unfold Program.leaves
  rw [List.mem_flatMap]
  refine exists_congr fun g ↦ and_congr_right fun _ ↦ ?_
  unfold Program.globalLeaves
  cases hdot : g.name.startsWith "." with
  | true => simp
  | false => cases hinit : g.init <;> simp

/-- The walk along the initial values meets short integers only. -/
theorem exists_leaf_of_able (hA : e.Able) {x : Except Fault Leaf} (h : x ∈ e.program.leaves) :
    ∃ leaf, x = .ok leaf ∧ leaf.range.width.isShort = true := by
  obtain ⟨g, hg, hdot, k, hk, hx⟩ := mem_leaves_iff.1 h
  obtain ⟨w, hw, l, v, hint⟩ :=
    Program.exists_int_of_mem_constantLeaves (hA.1.globals g hg hdot k hk) hx
  have hshort : w.isShort = true := Program.isShort_of_reflTransGen hA.2 hg hw
  obtain ⟨leaf, hleaf, hwidth⟩ : ∃ leaf, x = .ok leaf ∧ leaf.range.width = w := by
    rcases hint with hint | hint
    · exact exists_leaf_of_ofInt hshort hint
    · exact exists_leaf_of_ofWritten hshort hint
  exact ⟨leaf, hleaf, by rw [hwidth, hshort]⟩

/-- Seeding shows that no initial value is one of a type within itself. -/
theorem seed_settles : Settles e.Able e.Calm (seed e) fun _ ↦
    ∀ g ∈ e.program.globals, g.name.startsWith "." = false → ∀ k, g.init = some k →
      ∀ ty, e.program.HasZero g.ty k ty → Acc e.program.Part ty := by
  have hleaf (x : Except Fault Leaf) (hx : x ∈ e.program.leaves) : Settles e.Able e.Calm
      (do let leaf ← ofExcept x; let _ ← offer leaf.location.id leaf.range none)
      fun _ ↦ ∃ leaf, x = .ok leaf := by
    refine .bind (.ofExcept (fun leaf hleaf ↦ hleaf) fun hA ↦ ?_) fun leaf hleaf ↦ ?_
    · obtain ⟨leaf, hleaf, -⟩ := exists_leaf_of_able hA hx
      exact ⟨leaf, hleaf⟩
    · have hshort (hA : e.Able) : leaf.range.width.isShort = true := by
        obtain ⟨leaf', hleaf', hshort⟩ := exists_leaf_of_able hA hx
        obtain rfl : leaf = leaf' := Except.ok.inj (hleaf.symm.trans hleaf')
        exact hshort
      have hoffer : Settles e.Able e.Calm (offer leaf.location.id leaf.range none)
          fun _ ↦ True :=
        ⟨fun hs hrun ↦ ⟨hs.offer hshort hrun, ⟨⟩⟩,
          fun hA _ hs ↦ hs.exists_offer hA (hshort hA) (by rintro o ⟨⟩)⟩
      exact .bind hoffer fun _ _ ↦ .pure ⟨leaf, hleaf⟩
  refine (Settles.forM hleaf).mono fun _ hall g hg hdot k hk ty hzero ↦ ?_
  obtain ⟨l, hsub⟩ := hzero.zeroLeaves_subset (some (.global g.name))
  refine Program.acc_of_zeroLeaves (l := l) (mt (fun hend ↦ hsub hend) fun hend ↦ ?_)
  obtain ⟨leaf, hleaf⟩ := hall _ (mem_leaves_iff.2 ⟨g, hg, hdot, k, hk, hend⟩)
  cases hleaf

/-- The state at the start is calm unless warnings are errors. -/
theorem calm_start {mode : WarningMode} (h : mode ≠ .strict) :
    e.Calm (.start e.settings mode) where
  mode := h
  table := by
    intro _ id r hr
    cases hr

/-- A run that returns has carried out every instruction. -/
theorem isAnalysable_of_run (h : e.Ready) (hs : e.Calm s) {history : History}
    (hrun : (run e).run s = .ok history t) : e.program.IsAnalysable := by
  obtain ⟨s₀, hseed, -, hrounds⟩ := run_eq_ok.1 hrun
  obtain ⟨hcalm, hglobals⟩ := seed_settles.keeps hs hseed
  obtain ⟨last, hlast, hround⟩ := exists_last_of_rounds hrounds
  obtain ⟨-, hfunctions⟩ := (round_settles h).keeps (hlast.calm h hcalm) hround
  refine ⟨fun f hf ↦ ?_, hglobals⟩
  cases hdecl : f.isDeclaration with
  | true =>
    intro loops _ b hb
    rw [Function.isDeclaration, List.isEmpty_iff] at hdecl
    rw [hdecl] at hb
    exact absurd hb List.not_mem_nil
  | false => exact hfunctions f (List.mem_filter.2 ⟨hf, by rw [hdecl]; rfl⟩)

/-- A program that can be analysed, with short integers, is analysed. -/
theorem exists_run_of_able (h : e.Ready) (hA : e.Able) {mode : WarningMode}
    (hmode : mode ≠ .strict) : ∃ history t, (run e).run (.start e.settings mode) = .ok history t := by
  obtain ⟨⟨⟩, s₀, hseed⟩ := seed_settles.returns hA (calm_start hmode)
  obtain ⟨hcalm, -⟩ := seed_settles.keeps (calm_start hmode) hseed
  have hok (t : State) (ht : Reaches e s₀ t) : ∃ b u, (round e).run t = .ok b u :=
    (round_settles h).returns hA (ht.calm h hcalm)
  have hzero : s₀.iterations = 0 := (seed_frame hseed).iterations
  have hM := e.settings.one_le
  have hb : Bounded e s₀ := by
    unfold Bounded
    omega
  have hlen : s₀.table.ids.length = s₀.table.size := List.length_map _
  obtain ⟨rounds, -, t, hrounds, -⟩ := exists_rounds_eq_ok (n := e.roundLimit s₀.table) hb
    (fun id hid ↦ .inl hid : Capped e s₀.table.ids s₀) (by unfold Env.roundLimit; omega) hok
  exact ⟨⟨s₀.table, rounds⟩, t, run_eq_ok.2 ⟨s₀, hseed, rfl, hrounds⟩⟩

end Runs

/-- Of an accepted program that was read from a text, with warnings that do not end the run: if the
analysis returns, then the program can be analysed; and if it can, and its integers are short, then
the analysis returns. -/
theorem run_returns {text : String} {p : Program} (settings : Settings) {mode : WarningMode}
    (hparse : Program.parse text = .ok p) (hsound : p.isSound = true) (hmode : mode ≠ .strict) :
    ((∃ history s, (run (.ofProgram p settings)).run (.start settings mode) = .ok history s) →
      p.IsAnalysable) ∧
    (p.IsAnalysable → p.isShort = true →
      ∃ history s, (run (.ofProgram p settings)).run (.start settings mode) = .ok history s) := by
  have hready : (Env.ofProgram p settings).Ready :=
    ⟨hsound, fun _ hf _ hi ↦ Program.isTyped_of_parse hparse hf hi, rfl⟩
  constructor
  · rintro ⟨history, s, hrun⟩
    exact isAnalysable_of_run hready (calm_start hmode) hrun
  · intro hana hshort
    exact exists_run_of_able hready ⟨hana, hshort⟩ hmode

/-! ## A record, and an address that is added to itself -/

open Width (byte word)

/-- A field of a record is read and extended. -/
def fieldText : String :=
  "struct %s = \x7b i8 \x7d\nglobal @g: %s = zeroinitializer\nfunction @f() -> i16 \x7b\nb:\n" ++
    "%q = field %s, @g, 0\n%x = load i8 %q\n%y = sext i8 %x to i16\nret i16 %y\n\x7d"

def fieldProgram : Program where
  structs := [⟨"s", some [.int byte]⟩]
  globals := [⟨"g", .named "s", some .zero⟩]
  functions := [{
    name := "f"
    params := []
    returns := .int word
    isVararg := false
    blocks := [⟨"b",
      [⟨.assign "q" (.field (.named "s") (.symbol "g") 0), 5⟩,
        ⟨.assign "x" (.load (.int byte) (.var "q" .ptr)), 6⟩,
        ⟨.assign "y" (.cast .sext (.int byte) (.var "x" (.int byte))
          (.int word)), 7⟩,
        ⟨.finish (.ret (.int word) (.var "y" (.int word))), 8⟩]⟩] }]

theorem isSound_fieldProgram : fieldProgram.isSound = true :=
  Function.isSound_of_allAvailable rfl rfl (by decide) (by decide) (by decide) (by decide)

theorem isAnalysable_fieldProgram : fieldProgram.IsAnalysable := by
  constructor
  · intro f hf loops _ b hb i hi
    obtain rfl := List.mem_singleton.1 hf
    obtain rfl := List.mem_singleton.1 hb
    simp only [List.mem_cons, List.not_mem_nil, or_false] at hi
    rcases hi with rfl | rfl | rfl | rfl
    · rfl
    · exact fun _ ↦ ⟨1, rfl⟩
    · rfl
    · exact fun _ ↦ rfl
  · intro g hg _ k hk t ht
    obtain rfl := List.mem_singleton.1 hg
    cases hk
    cases ht
    constructor
    intro s hs
    cases hs with
    | body hfields hmem =>
      cases hfields
      obtain rfl := List.mem_singleton.1 hmem
      exact ⟨_, fun _ h ↦ by cases h⟩

/-- A run over the program with a record returns, whatever the settings. -/
theorem run_returns_field :
    Program.parse fieldText = .ok fieldProgram ∧ fieldProgram.isSound = true ∧
    fieldProgram.IsAnalysable ∧ fieldProgram.isShort = true ∧
    ∀ settings, ∃ history s,
      (run (.ofProgram fieldProgram settings)).run (.start settings .always) = .ok history s := by
  have hparse : Program.parse fieldText = .ok fieldProgram := by decide +kernel
  have hshort : fieldProgram.isShort = true := by decide +kernel
  refine ⟨hparse, isSound_fieldProgram, isAnalysable_fieldProgram, hshort, fun settings ↦ ?_⟩
  have hmode : WarningMode.always ≠ .strict := by decide
  exact (run_returns settings hparse isSound_fieldProgram hmode).2 isAnalysable_fieldProgram hshort

/-- The check accepts that an address is added to itself. -/
def addressText : String :=
  "function @f(ptr %p) -> void \x7b\nentry:\n  %x = add ptr %p, %p\n  ret void\n\x7d\n"

def addressProgram : Program where
  structs := []
  globals := []
  functions := [{
    name := "f"
    params := [⟨"p", .ptr⟩]
    returns := .void
    isVararg := false
    blocks := [⟨"entry",
      [⟨.assign "x" (.binary .add .ptr (.var "p" .ptr) (.var "p" .ptr)), 3⟩,
        ⟨.finish .retVoid, 4⟩]⟩] }]

theorem isSound_addressProgram : addressProgram.isSound = true :=
  Function.isSound_of_allAvailable rfl rfl (by decide) (by decide) (by decide) (by decide)

/-- An accepted program need not be analysed: the operator finds no integer. -/
theorem not_run_returns_address :
    Program.parse addressText = .ok addressProgram ∧ addressProgram.isSound = true ∧
    ∃ s, (run (.ofProgram addressProgram ⟨5, none, [], by decide⟩)).run
      (.start ⟨5, none, [], by decide⟩ .always) = .error .notInteger s := by
  refine ⟨by decide +kernel, isSound_addressProgram, ?_⟩
  exact ⟨⟨.empty none, .empty .always, .ofList [("f", .ofList [("entry", ∅)])], 1⟩, by cbv⟩

end Sweep

end RangeFlow
