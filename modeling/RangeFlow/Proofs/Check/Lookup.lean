import RangeFlow.Checker
import RangeFlow.Proofs.Check.Definition
import RangeFlow.Proofs.Source.Reparse

/-!
# The check finds what it looks up

Defects of structure end the check of a function before anything is looked up.  Without them, every
label names a block, every block has been surveyed when its sets are asked for
(`Function.survey_eq_ok`), and fields are taken from struct types.  What is left is a number in a
misfit that cannot be written; but for those the check of a program that was read returns its
defects.
-/

namespace RangeFlow

/-! ## Parts that fail for a number only -/

/-- A part of the check finds something if a condition holds, and else meets a number that cannot be
written. -/
structure Finds {α : Type} (m : Except Fault α) (can : Prop) (a : α) : Prop where
  returns : can → m = .ok a
  fails : ¬can → m = .error .unwritable

namespace Finds

variable {α β : Type} {m : Except Fault α} {can may : Prop} {a : α}

theorem pure (a : α) : Finds (.ok a) True a := ⟨fun _ ↦ rfl, fun h ↦ absurd trivial h⟩

theorem congr (h : Finds m can a) (hiff : can ↔ may) : Finds m may a :=
  ⟨fun hmay ↦ h.returns (hiff.2 hmay), fun hmay ↦ h.fails (mt hiff.1 hmay)⟩

/-- Two parts one after the other find something if both do. -/
theorem bind {k : α → Except Fault β} {b : β} (h : Finds m can a) (hk : Finds (k a) may b) :
    Finds (m >>= k) (can ∧ may) b := by
  by_cases hcan : can
  · rw [h.returns hcan]
    exact hk.congr (and_iff_right hcan).symm
  · rw [h.fails hcan]
    exact ⟨fun hboth ↦ absurd hboth.1 hcan, fun _ ↦ rfl⟩

theorem map (h : Finds m can a) (g : α → β) :
    Finds (do return g (← m)) can (g a) :=
  (h.bind (.pure (g a))).congr (and_iff_left trivial)

/-- Finding something for each of some things. -/
theorem mapM {find : α → Except Fault β} {able : α → Prop} {g : α → β} {xs : List α}
    (h : ∀ x ∈ xs, Finds (find x) (able x) (g x)) :
    Finds (xs.mapM find) (∀ x ∈ xs, able x) (xs.map g) := by
  induction xs with
  | nil => exact (Finds.pure []).congr (by simp)
  | cons x xs ih =>
    obtain ⟨hx, hxs⟩ := List.forall_mem_cons.1 h
    rw [List.mapM_cons]
    exact (hx.bind ((ih hxs).map (g x :: ·))).congr (by simp)

theorem findAll {find : α → Except Fault (List β)} {able : α → Prop} {g : α → List β}
    {xs : List α} (h : ∀ x ∈ xs, Finds (find x) (able x) (g x)) :
    Finds (findAll find xs) (∀ x ∈ xs, able x) (xs.flatMap g) := by
  rw [List.flatMap_def]
  exact (mapM h).map List.flatten

/-- A part returns if and only if its condition holds. -/
theorem exists_ok_iff (h : Finds m can a) : (∃ b, m = .ok b) ↔ can := by
  refine ⟨fun ⟨b, hb⟩ ↦ ?_, fun hcan ↦ ⟨a, h.returns hcan⟩⟩
  by_contra hcan
  cases hb.symm.trans (h.fails hcan)

theorem eq_of_ok (h : Finds m can a) {b : α} (hb : m = .ok b) : b = a :=
  Except.ok.inj (hb.symm.trans (h.returns (h.exists_ok_iff.1 ⟨b, hb⟩)))

/-- A part fails for a number that cannot be written, and for nothing else. -/
theorem eq_unwritable (h : Finds m can a) {e : Fault} (he : m = .error e) : e = .unwritable := by
  by_cases hcan : can
  · cases he.symm.trans (h.returns hcan)
  · exact Except.error.inj (he.symm.trans (h.fails hcan))

end Finds

theorem mapM_eq_ok {α β : Type} {find : α → Except Fault β} {g : α → β} {xs : List α}
    (h : ∀ x ∈ xs, find x = .ok (g x)) : xs.mapM find = .ok (xs.map g) :=
  (Finds.mapM fun x hx ↦ h x hx ▸ .pure (g x)).returns fun _ _ ↦ trivial

theorem findAll_eq_ok {α β : Type} {find : α → Except Fault (List β)} {g : α → List β}
    {xs : List α} (h : ∀ x ∈ xs, find x = .ok (g x)) : findAll find xs = .ok (xs.flatMap g) :=
  (Finds.findAll fun x hx ↦ h x hx ▸ .pure (g x)).returns fun _ _ ↦ trivial

/-! ## Blocks and sets -/

namespace Function

variable {f : Function} {g : Flow} {a : Availability} {l : String} {b : Block}

/-- The set of a block that has one is found. -/
theorem getEnd_eq_ok (h : ∃ s, a.get? l = some s) : a.getEnd l = .ok (a.atEnd l) := by
  obtain ⟨s, hs⟩ := h
  rw [Availability.getEnd, Availability.atEnd, hs, Option.getD_some]

theorem getBlock_eq_ok (h : f.block? l = some b) : f.getBlock l = .ok b := by
  rw [getBlock, h]

theorem mem_labels_of_mem_predecessors (hg : f.flow = .ok g) {q : String}
    (hq : q ∈ g.predecessors l) : q ∈ f.labels := by
  obtain ⟨c, hc, rfl, -⟩ := (passes_iff_mem_predecessors hg).2 hq
  exact List.mem_map_of_mem hc

/-! ## The survey -/

theorem Descends.exists_get? (h : f.Descends g a) (hl : l ∈ f.labels) :
    ∃ old, a.get? l = some old := by
  obtain ⟨b, hb⟩ := Option.isSome_iff_exists.1 (hasBlock_iff.2 hl)
  exact h.present l b hb

/-- A visit to a block of the function finds what it looks up. -/
theorem Descends.look_eq_ok {s : Progress} (h : f.Descends g s.ends) (hg : f.flow = .ok g)
    (hl : l ∈ f.labels) : f.look g s l = .ok () := by
  obtain ⟨b, hb⟩ := Option.isSome_iff_exists.1 (hasBlock_iff.2 hl)
  have hends : (g.predecessors b.label).mapM s.ends.getEnd =
      .ok ((g.predecessors b.label).map s.ends.atEnd) :=
    mapM_eq_ok fun q hq ↦ getEnd_eq_ok (h.exists_get? (mem_labels_of_mem_predecessors hg hq))
  have hend := getEnd_eq_ok (h.present b.label b (block?_label hb))
  rw [look, getBlock_eq_ok hb]
  simp only [bind, Except.bind, hends, hend]
  rfl

/-- The survey finds all that it looks up, and comes to what is available. -/
theorem survey_eq_ok (hwired : f.IsWired) (hg : f.flow = .ok g) :
    f.survey g = .ok (f.settled g f.unvisited (f.descends_unvisited g)) := by
  refine (settle_eq_pure (f.look g) (I := fun s ↦ f.Settles g s ∧ ∀ k ∈ s.work, k ∈ f.labels)
    ?skip ?visit ?look _ ⟨f.settles_unvisited g, fun k ↦ OrderedSet.mem_ofList.1⟩).1
  case skip =>
    intro s k hs hk hnone
    have hblock := hasBlock_iff.2 (hs.2 k hk)
    rw [hasBlock, hnone] at hblock
    cases hblock
  case visit =>
    intro s b hs hb hmem
    refine ⟨hs.1.visit hb, fun k ↦ mem_labels_of_mem_work_visit (fun k hk ↦ ?_) hs.2⟩
    exact hwired.mem_labels_of_passes ((passes_iff_mem_successors hg).2 hk)
  case look => exact fun s k hs hk ↦ hs.1.look_eq_ok hg (hs.2 k hk)

/-! ## Uses -/

section Uses

variable {s : Progress} {i : Instr}

/-- The block that a phi names is found, with the variables at its end. -/
theorem findEntryUse_eq_ok (h : f.Descends g s.ends) {e : PhiEntry} (he : e.label ∈ f.labels) :
    f.findEntryUse s b i e = .ok
      (((e.value.var?.bind fun x ↦ if x ∈ s.ends.atEnd e.label then none else some x).map
        (Defect.notDefined · i b)).toList) := by
  obtain ⟨c, hc⟩ := Option.isSome_iff_exists.1 (hasBlock_iff.2 he)
  have hlabel := (mem_of_block? hc).2
  unfold findEntryUse
  cases e.value.var? with
  | none => rfl
  | some x =>
    dsimp only
    rw [getBlock_eq_ok hc, ← hlabel]
    change (s.ends.getEnd c.label >>= _) = _
    rw [getEnd_eq_ok (h.exists_get? (hlabel ▸ he))]
    by_cases hx : x ∈ s.ends.atEnd c.label <;> simp [hx, bind, Except.bind, pure, Except.pure]

/-- The uses of an instruction are judged as if nothing had to be looked up. -/
theorem findUses_eq_ok (h : f.Descends g s.ends) (hi : ∀ l ∈ i.labels, l ∈ f.labels)
    (before : OrderedSet String) :
    f.findUses s b i before = .ok (useDefects s.ends b i before) := by
  unfold findUses useDefects
  cases ha : i.action with
  | assign y v =>
    cases v with
    | phi t entries =>
      have hentries (e : PhiEntry) (he : e ∈ entries) : e.label ∈ f.labels :=
        hi e.label (by simpa [Instr.labels, Action.labels, ha] using ⟨e, he, rfl⟩)
      dsimp only
      rw [findAll_eq_ok fun e he ↦ findEntryUse_eq_ok h (hentries e he),
        List.map_filterMap, List.filterMap_eq_flatMap_toList]
    | _ => rfl
  | store | call | finish => rfl

/-- The uses in a block are judged with the sets that were noted on its last visit. -/
theorem findBlockUses_eq_ok (hlabels : f.labels.Nodup) (h : f.Settles g s) (hwork : s.work = ∅)
    (hb : b ∈ f.blocks) (hi : ∀ i ∈ b.instrs, ∀ l ∈ i.labels, l ∈ f.labels) :
    f.findBlockUses s b = .ok
      ((b.instrs.zip (availableBefore (f.availableIn g s.ends b.label) b.instrs)).flatMap
        fun (i, before) ↦ useDefects s.ends b i before) := by
  have hblock := (block?_eq_some hlabels).2 ⟨hb, rfl⟩
  unfold findBlockUses
  rw [h.noted b.label b hblock (hwork ▸ OrderedSet.notMem_empty _)]
  refine findAll_eq_ok fun ⟨i, before⟩ hmem ↦ ?_
  exact findUses_eq_ok h.toDescends (hi i (List.of_mem_zip hmem).1) before

end Uses

end Function

/-! ## What reading a program makes sure of -/

namespace Program

variable {p : Program} {f : Function} {i : Instr} {text : String}

/-- The labels of a function that was read are distinct. -/
theorem nodup_labels_of_parse (h : Program.parse text = .ok p) (hf : f ∈ p.functions) :
    f.labels.Nodup := by
  obtain ⟨parts, -, hcollect⟩ := (isRead_of_parse h).functions f hf
  obtain ⟨params, isVararg, blocks, -, hblocks, rfl⟩ := Source.collectFunction_eq_ok.1 hcollect
  exact (Source.parts_of_collectBlocks hblocks).2 List.nodup_nil

/-- In a program that was read, fields are taken from struct types. -/
theorem takesFromStruct_of_parse (h : Program.parse text = .ok p) (hf : f ∈ p.functions)
    (hi : i ∈ f.instrs) : i.takesFromStruct = true := by
  unfold Program.parse at h
  split at h
  · cases h
  · obtain ⟨tree, htree⟩ := Source.exists_statement_of_buildProgram h hf hi
    have hturns := Source.turns_of_buildStatement htree
    unfold Instr.takesFromStruct
    split
    · rename_i ha
      rw [ha] at hturns
      cases hturns with
      | assign hvalue _ =>
        cases hvalue with
        | field _ hstruct _ => exact hstruct
    · rfl

/-! ## Misfits -/

/-- The numbers in the misfits of a function can be written. -/
def CanReport (p : Program) (f : Function) : Prop :=
  ∀ i ∈ f.instrs, ∀ m, p.misfit? f i = some m → m.isWritable = true

/-- A misfit is found if the numbers in it can be written. -/
theorem finds_misfit (hi : i.takesFromStruct = true) :
    Finds (p.findMisfit f i) (∀ m, p.misfit? f i = some m → m.isWritable = true)
      ((p.misfit? f i).map (Defect.misfit i)).toList := by
  unfold findMisfit
  rw [hi]
  cases p.misfit? f i with
  | none => exact (Finds.pure []).congr (by simp)
  | some m =>
    by_cases hm : m.isWritable = true
    · simpa [hm] using Finds.pure [Defect.misfit i m]
    · exact ⟨fun hall ↦ absurd (hall m rfl) hm, fun _ ↦ by simp [hm]⟩

/-- The defects in the types of a function are found if the numbers in its misfits can be written.
-/
theorem finds_typing (hf : ∀ i ∈ f.instrs, i.takesFromStruct = true) :
    Finds (p.findTyping f) (p.CanReport f) (p.typingDefects f) := by
  unfold findTyping typingDefects
  exact (Finds.findAll fun i hi ↦ (finds_misfit (hf i hi)).map _).map _

/-- The defects of a function are found if the numbers in its misfits can be written, and in any
case if there are defects of structure. -/
theorem finds_function (hlabels : f.labels.Nodup)
    (hf : ∀ i ∈ f.instrs, i.takesFromStruct = true) :
    Finds (p.checkFunction f) (f.blocks.flatMap (p.structureDefects f) = [] → p.CanReport f)
      (p.functionDefects f) := by
  unfold checkFunction functionDefects
  dsimp only
  cases hstructural : f.blocks.flatMap (p.structureDefects f) with
  | cons d ds => exact (Finds.pure (d :: ds)).congr (by simp)
  | nil =>
    have hwired := isWired_of_structure hstructural
    obtain ⟨g, hg⟩ := Function.exists_flow hwired
    have hsurvey := Function.survey_eq_ok hwired hg
    obtain ⟨hsettles, hwork⟩ := f.settles_settled g
    have huses : findAll (f.findBlockUses (f.settled g f.unvisited (f.descends_unvisited g)))
        f.blocks = .ok (f.definitionDefects g) := by
      refine findAll_eq_ok fun b hb ↦ Function.findBlockUses_eq_ok hlabels hsettles hwork hb ?_
      intro i hi l hl
      have hi : i ∈ f.instrs := List.mem_flatMap.2 ⟨b, hb, hi⟩
      exact Function.hasBlock_iff.1 (hasBlock_of_structure hstructural hi hl)
    rw [hg]
    simp only [List.isEmpty_nil, Bool.not_true, Bool.false_eq_true, if_false, if_true]
    change Finds (f.survey g >>= _) _ _
    rw [hsurvey]
    change Finds (findAll (f.findBlockUses _) f.blocks >>= _) _ _
    rw [huses]
    exact ((finds_typing hf).map (f.definitionDefects g ++ ·)).congr (by simp)

/-- The numbers in the misfits of the functions without defects of structure can be written. -/
def CanReportAll (p : Program) : Prop :=
  ∀ f ∈ p.functions, f.blocks.flatMap (p.structureDefects f) = [] → p.CanReport f

/-- The defects of a program that was read are found if the numbers in its misfits can be written.
-/
theorem finds_check (h : Program.parse text = .ok p) : Finds p.check p.CanReportAll p.defects :=
  Finds.findAll fun _ hf ↦
    finds_function (nodup_labels_of_parse h hf) fun _ hi ↦ takesFromStruct_of_parse h hf hi

theorem accept_eq_ok : p.accept = .ok () ↔ p.check = .ok [] := by
  unfold accept
  cases p.check with
  | error e => simp
  | ok ds => cases ds <;> simp

/-- A program is refused with the defects that are found, if there are any. -/
theorem accept_eq_defects {ds : List Defect} :
    p.accept = .error (.defects ds) ↔ p.check = .ok ds ∧ ds ≠ [] := by
  unfold accept
  cases p.check with
  | error e => simp
  | ok found =>
    cases found with
    | nil => simp [eq_comm]
    | cons d rest =>
      simp only [Except.error.injEq, Rejection.defects.injEq, Except.ok.injEq]
      exact ⟨fun h ↦ ⟨h, h ▸ List.cons_ne_nil d rest⟩, And.left⟩

/-- A program that was read is accepted exactly if it is sound: it has no misfits then, and their
numbers do not matter. -/
theorem accept_iff_isSound (h : Program.parse text = .ok p) :
    p.accept = .ok () ↔ p.isSound = true := by
  have hcheck := finds_check h
  rw [accept_eq_ok]
  constructor
  · intro hnil
    exact List.isEmpty_iff.2 (hcheck.eq_of_ok hnil).symm
  · intro hsound
    have hcan : p.CanReportAll := by
      intro f hf _ i hi m hm
      rw [misfit?_eq_none_of_isSound hsound hf hi] at hm
      cases hm
    rw [hcheck.returns hcan, List.isEmpty_iff.1 hsound]

/-- The check of a program that was read returns its defects if the numbers in the misfits can be
written, and such a number is the only thing at which it fails.  The program is accepted if no
defect is returned, and refused with the defects if there are some. -/
theorem check_returns (h : Program.parse text = .ok p) :
    ((∃ ds, p.check = .ok ds) ↔ p.CanReportAll) ∧
    (∀ ds, p.check = .ok ds → ds = p.defects) ∧
    (∀ e, p.check = .error e → e = .unwritable) ∧
    (p.accept = .ok () ↔ p.check = .ok []) ∧
    ∀ ds, p.accept = .error (.defects ds) ↔ p.check = .ok ds ∧ ds ≠ [] := by
  have hcheck := finds_check h
  exact ⟨hcheck.exists_ok_iff, fun _ ↦ hcheck.eq_of_ok, fun _ ↦ hcheck.eq_unwritable,
    accept_eq_ok, fun _ ↦ accept_eq_defects⟩

end Program

/-! ## A malformed program, and one with an index that is too large -/

open Width (byte)

/-- A block that does not end, labels and symbols that do not exist, an empty block, a field of a
struct without a body, a call without its argument, and a return that does not fit. -/
def malformedText : String :=
  "function @f(i8 %a) -> i8 \x7b\nentry:\n  %x = phi i8 @lost, %y\n  jmp @lost\n" ++
    "  %z = add i8 @none, %a\nempty:\n\x7d\nfunction @g() \x7b\nb:\n  %q = field %s, %p, 3\n" ++
    "  call i8 @f()\n  ret i8 %r\n\x7d\ndeclare function @h()\n"

def malformedProgram : Program :=
  { structs := [⟨"s", none⟩]
    globals := []
    functions := [
      { name := "f"
        params := [⟨"a", .int byte⟩]
        returns := .int byte
        isVararg := false
        blocks := [
          ⟨"entry", [
            ⟨.assign "x" (.phi (.int byte) [⟨"lost", .var "y" (.int byte)⟩]), 3⟩,
            ⟨.finish (.jmp "lost"), 4⟩,
            ⟨.assign "z" (.binary .add (.int byte) (.symbol "none") (.var "a" (.int byte))), 5⟩]⟩,
          ⟨"empty", []⟩] },
      { name := "g"
        params := []
        returns := .void
        isVararg := false
        blocks := [⟨"b", [
          ⟨.assign "q" (.field (.named "s") (.var "p" .ptr) 3), 10⟩,
          ⟨.call ⟨.int byte, .direct "f", []⟩, 11⟩,
          ⟨.finish (.ret (.int byte) (.var "r" (.int byte))), 12⟩]⟩] },
      { name := "h", params := [], returns := .void, isVararg := false, blocks := [] }] }

theorem canReportAll_malformedProgram : malformedProgram.CanReportAll := by
  have hmisfits : ∀ f ∈ malformedProgram.functions, ∀ i ∈ f.instrs,
      (malformedProgram.misfit? f i).all Misfit.isWritable = true := by decide +kernel
  intro f hf _ i hi m hm
  simpa [hm] using hmisfits f hf i hi

/-- All defects of the malformed program are returned. -/
theorem check_returns_malformed :
    Program.parse malformedText = .ok malformedProgram ∧ malformedProgram.CanReportAll ∧
    ∃ ds, malformedProgram.check = .ok ds ∧ ds ≠ [] ∧
      malformedProgram.accept = .error (.defects ds) := by
  have hparse : Program.parse malformedText = .ok malformedProgram := by decide +kernel
  obtain ⟨hreturns, hdefects, -, -, haccept⟩ := Program.check_returns hparse
  obtain ⟨ds, hds⟩ := hreturns.2 canReportAll_malformedProgram
  have hne : ds ≠ [] := by
    obtain rfl := hdefects ds hds
    exact List.cons_ne_nil _ _
  exact ⟨hparse, canReportAll_malformedProgram, ds, hds, hne, (haccept ds).2 ⟨hds, hne⟩⟩

/-- A function that takes a field by an index, whose instructions stand on some lines. -/
def indexFunction (n line next : Nat) : Function :=
  { name := "f"
    params := [⟨"p", .ptr⟩]
    returns := .void
    isVararg := false
    blocks := [⟨"a",
      [⟨.assign "x" (.field (.named "s") (.var "p" .ptr) n), line⟩, ⟨.finish .retVoid, next⟩]⟩] }

def indexProgram (n : Nat) : Program := ⟨[⟨"s", some [.ptr]⟩], [], [indexFunction n 4 5]⟩

open Source in
theorem exists_parse_indexProgram (n : Nat) :
    ∃ q, Program.parse (indexProgram n).text = .ok q ∧ q.IsSameAs (indexProgram n) := by
  have hfunction : (indexFunction n 4 5).IsSpelled := by
    have hname : isSymbolName "f" = true := by decide
    have hlabel : isIdentifier "a" = true := by decide
    refine ⟨hname, List.forall_mem_singleton.2 ⟨rfl, ⟨⟩⟩, .inl rfl, ?_⟩
    refine List.forall_mem_cons.2 ⟨hlabel, List.forall_mem_cons.2 ⟨⟨?_, ?_⟩, ?_⟩⟩
    · exact ⟨rfl, ⟨rfl, rfl, rfl, ⟨⟩⟩, nofun⟩
    · exact Int.lt_of_lt_of_le (by decide) (Int.natCast_nonneg n)
    · exact List.forall_mem_singleton.2 ⟨⟨⟩, ⟨⟩⟩
  have hspelled : (indexProgram n).IsSpelled := by
    refine ⟨List.forall_mem_singleton.2 ⟨rfl, ?_⟩, nofun, List.forall_mem_singleton.2 hfunction⟩
    rintro fields ⟨⟩
    exact ⟨⟨⟩, ⟨⟩⟩
  have hbody : (indexFunction n 4 5).IsBuildable := by
    refine ⟨?_, rfl, List.nodup_singleton _⟩
    exact List.forall_mem_cons.2 ⟨rfl, List.forall_mem_singleton.2 ⟨⟩⟩
  have hbuildable : (indexProgram n).IsBuildable :=
    ⟨rfl, List.nodup_singleton _, List.nodup_nil, List.nodup_singleton _,
      List.forall_mem_singleton.2 hbody⟩
  have hlabel : "a" ∉ Expect.body.words := by decide
  obtain ⟨q, hq, hsame, -⟩ := Program.exists_parse_of_isBuildable hspelled hbuildable
    (List.forall_mem_singleton.2 ⟨hlabel, ⟨⟩⟩)
  exact ⟨q, hq, hsame⟩

/-- A function that is read as this one is but for its lines is this one on some lines. -/
theorem exists_lines {f : Function} {n : Nat}
    (h : f.withoutLines = (indexFunction n 4 5).withoutLines) :
    ∃ line next, f = indexFunction n line next := by
  obtain ⟨name, params, returns, isVararg, blocks⟩ := f
  simp only [Function.withoutLines, indexFunction, Function.mk.injEq] at h
  obtain ⟨rfl, rfl, rfl, rfl, hblocks⟩ := h
  obtain ⟨⟨label, instrs⟩, rfl, hblock⟩ := List.map_eq_singleton_iff.1 hblocks
  simp only [Block.withoutLines, Block.mk.injEq] at hblock
  obtain ⟨rfl, hinstrs⟩ := hblock
  obtain ⟨⟨action, line⟩, rest, rfl, hi, hrest⟩ := List.map_eq_cons_iff.1 hinstrs
  obtain ⟨⟨last, next⟩, rfl, hj⟩ := List.map_eq_singleton_iff.1 hrest
  cases hi
  cases hj
  exact ⟨line, next, rfl⟩

/-- A field that does not exist is named by its index in decimal. -/
theorem exists_check_indexProgram {n : Nat} (hpos : 0 < n) (hlarge : Text.isWritable n = false) :
    ∃ p, Program.parse (indexProgram n).text = .ok p ∧ p.check = .error .unwritable := by
  obtain ⟨q, hq, hsame⟩ := exists_parse_indexProgram n
  obtain ⟨f, hf, hlines⟩ := List.map_eq_singleton_iff.1 hsame.functions
  obtain ⟨line, next, rfl⟩ := exists_lines hlines
  have hfields : q.fields? (.named "s") = some [.ptr] := hsame.structs "s"
  have hmisfit : q.misfit? (indexFunction n line next)
      ⟨.assign "x" (.field (.named "s") (.var "p" .ptr) n), line⟩ =
        some (.noField n (.named "s")) := by
    have hbounds : ¬((n : Int) < 1) := by omega
    simp [Program.misfit?, hfields, hbounds]
  refine ⟨q, hq, (Program.finds_check hq).fails fun hcan ↦ ?_⟩
  have hwritable := hcan _ (hf ▸ List.mem_singleton_self _) rfl _ List.mem_cons_self _ hmisfit
  rw [Misfit.isWritable, hlarge] at hwritable
  cases hwritable

/-- An index given in hexadecimal can have more decimal digits than are ever written: the program is
read, and its check fails where it would say that there is no such field. -/
theorem not_check_index : ∃ p, Program.parse (indexProgram (16 ^ 3600)).text = .ok p ∧
    p.check = .error .unwritable :=
  exists_check_indexProgram (by positivity) (by decide +kernel)

end RangeFlow
