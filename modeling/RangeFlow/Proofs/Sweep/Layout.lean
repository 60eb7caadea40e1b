import RangeFlow.Proofs.Source.Reparse
import RangeFlow.Proofs.Sweep.Found
import RangeFlow.Proofs.Sweep.Soundness

/-!
# Runs over blocks in another order

What a run can find does not depend on the order of the blocks, but what it finds does: a block that
is laid out before those that lead to it is swept without their facts.  If the blocks are laid out
in order, and no fact ends on the way, a run finds everything there is to know, and therefore no
less than a run over any other order of them.
-/

namespace RangeFlow

namespace Sweep

variable {e : Env} {p q : Program} {settings : Settings} {s s' : State} {mode : WarningMode}

/-- Over blocks in order a run finds what is known, if no fact ends. -/
theorem Env.Straight.mem_ids_of_known (h : e.Straight) {history : History}
    (hrun : (run e).run (.start e.settings mode) = .ok history s) (hopen : e.IsOpen s) {id : String}
    (hknown : Known e (.id id)) : id ∈ s.table.ids := by
  obtain ⟨s₀, hseed, -, hrounds⟩ := run_eq_ok.1 hrun
  obtain ⟨last, hlast, hstop⟩ := exists_last_of_rounds hrounds
  obtain ⟨t, hround, htable, -⟩ := round_again hstop
  have hchecked : ∀ f ∈ e.program.functions, Checked e f := fun _ ↦ h.checked
  have hstart : e.Steady (.start e.settings mode) :=
    ⟨fun _ _ _ ↦ .empty, fun _ _ _ _ hr ↦ by cases hr⟩
  have hsteady : e.Steady s := (round_steady hchecked).keeps_of_ok
    (hlast.steady hchecked (seed_steady.keeps_of_ok hstart hseed)) hstop
  have hrests : e.Rests s t := ⟨h, hopen, hsteady, hround⟩
  obtain ⟨r, hr, -⟩ : Stored t.table id := by
    refine hrests.found (fun leaf hleaf hfilled ↦ ?_) hknown
    rw [htable]
    exact ((stored_of_seed hleaf hfilled hseed).reaches hlast).beginRound.grows (round_grows hstop)
  rw [← htable]
  exact RangeTable.mem_ids_iff.2 ⟨r, hr⟩

/-! ## The same program in another order -/

/-- A program that is read from a text, is accepted and whose blocks are in order can be swept
straight through. -/
theorem straight_of_parse {text : String} (hparse : Program.parse text = .ok p)
    (hsound : p.isSound = true) (hordered : ∀ f ∈ p.functions, f.IsOrdered) :
    (Env.ofProgram p settings).Straight where
  sound := hsound
  typed := fun _ hf _ hi ↦ Program.isTyped_of_parse hparse hf hi
  modeled := rfl
  names := (Program.isRead_of_parse hparse).functionNames
  labels := by
    have hindexed : p.IsIndexed := fun _ hf _ hi ↦ Program.isIndexed_of_isSound hsound hf hi
    exact fun f hf ↦ ((Program.isSpelled_of_parse hparse hindexed).2 f hf).2
  ordered := hordered

namespace Env.Straight

/-- Another order of the blocks leaves a program ready for a run. -/
theorem ready_of_rearranges (h : (Env.ofProgram p settings).Straight) (hq : q.Rearranges p) :
    (Env.ofProgram q settings).Ready where
  sound := hq.isSound h.labels h.sound
  typed := by
    intro g hg i hi
    obtain ⟨f, hf, hgf⟩ := hq.exists_of_mem hg
    exact h.typed f hf i (hgf.instrs.mem_iff.1 hi)
  modeled := rfl

/-- A program stays straight if its blocks are put in another order of this kind. -/
theorem of_rearranges (h : (Env.ofProgram p settings).Straight) (hq : q.Rearranges p)
    (hordered : ∀ f ∈ q.functions, f.IsOrdered) : (Env.ofProgram q settings).Straight where
  toReady := h.ready_of_rearranges hq
  names := by
    have hnames : (p.functions.map Function.name).Nodup := h.names
    rwa [← hq.names] at hnames
  labels := by
    intro g hg
    obtain ⟨f, hf, hgf⟩ := hq.exists_of_mem hg
    exact hgf.labels.nodup_iff.2 (h.labels f hf)
  ordered := hordered

theorem exists_typing (h : (Env.ofProgram p settings).Straight) :
    ∀ f ∈ p.functions, ∃ types, Typing f types := by
  exact fun f hf ↦ ⟨f.varTypes, (h.checked hf).typing⟩

/-- A run over any order of the blocks finds no id that is not found over blocks in order. -/
theorem mem_ids_of_rearranges (h : (Env.ofProgram p settings).Straight) (hq : q.Rearranges p)
    {history history' : History}
    (hrun : (run (.ofProgram p settings)).run (.start settings mode) = .ok history s)
    (hopen : (Env.ofProgram p settings).IsOpen s)
    (hrun' : (run (.ofProgram q settings)).run (.start settings mode) = .ok history' s')
    {id : String} (hid : id ∈ s'.table.ids) : id ∈ s.table.ids :=
  h.mem_ids_of_known hrun hopen ((known_of_run hrun' hid).of_rearranges hq h.exists_typing)

end Env.Straight

/-- Let the blocks of an accepted program be laid out in order, and let no fact end in a further
round after its run.  Over any other order of the blocks a run returns as well, if its warnings do
not end it and the integers are short.  If it returns, then it finds no other id, and the same ones
if that order is an order as well in which no fact ends. -/
theorem run_rearranged {text : String} {history : History} (hparse : Program.parse text = .ok p)
    (hsound : p.isSound = true) (hordered : ∀ f ∈ p.functions, f.IsOrdered) (hq : q.Rearranges p)
    (hrun : (run (.ofProgram p settings)).run (.start settings mode) = .ok history s)
    (hopen : (Env.ofProgram p settings).IsOpen s) :
    (mode ≠ .strict → p.isShort = true → ∃ history' s',
      (run (.ofProgram q settings)).run (.start settings mode) = .ok history' s') ∧
    ∀ history' s', (run (.ofProgram q settings)).run (.start settings mode) = .ok history' s' →
      (∀ id ∈ s'.table.ids, id ∈ s.table.ids) ∧
      ((∀ f ∈ q.functions, f.IsOrdered) → (Env.ofProgram q settings).IsOpen s' →
        ∀ id, id ∈ s'.table.ids ↔ id ∈ s.table.ids) := by
  have h : (Env.ofProgram p settings).Straight := straight_of_parse hparse hsound hordered
  refine ⟨fun hmode hshort ↦ ?_,
    fun history' s' hrun' ↦ ⟨fun id hid ↦ ?_, fun hordered' hopen' ↦ ?_⟩⟩
  · have hana := isAnalysable_of_run h.toReady (calm_start hmode) hrun
    have hana' := hq.isAnalysable hsound (fun f hf ↦ (hordered f hf).forward) hana
    exact exists_run_of_able (h.ready_of_rearranges hq) ⟨hana', hq.isShort hshort⟩ hmode
  · exact h.mem_ids_of_rearranges hq hrun hopen hrun' hid
  · have h' := h.of_rearranges hq hordered'
    exact fun id ↦ ⟨h.mem_ids_of_rearranges hq hrun hopen hrun',
      h'.mem_ids_of_rearranges hq.symm hrun' hopen' hrun⟩

/-! ## Programs in two orders -/

/-- Nothing ends what is known if nothing is divided and no edge tells anything. -/
theorem Env.isOpen_of_edgeFacts_eq
    (hdiv : ∀ f ∈ e.defined, ∀ b ∈ f.blocks, ∀ p ∈ b.sites f.name, ∀ x ty a c,
      p.2.action ≠ .assign x (.binary .udiv ty a c))
    (hedges : ∀ f ∈ e.defined, ∀ b ∈ f.blocks, ∀ l, edgeFacts e f b l = pure ∅) : e.IsOpen s where
  divides := by
    rintro f b site i x v t ⟨loops, g, s₁, s₂, s₃, hf, -, -, hb, -, hi⟩ ha ty lhs rhs r q u w rfl
    exact absurd ha (hdiv f hf.mem b hb.mem _ hi.mem x ty lhs rhs)
  edges := by
    rintro f source b t m u ⟨loops, g, s₁, s₂, before, after, hf, -, -, -, -, hsource, -⟩ hrun x r
    rw [hedges f hf.mem source (Function.mem_of_block? hsource).1] at hrun
    obtain ⟨rfl, -⟩ := run_pure_eq_ok.1 hrun
    intro _ _ hm
    cases hm

section Examples

open Width (byte)

def jumpBlock (label target : String) : Block := ⟨label, [⟨.finish (.jmp target), 3⟩]⟩

def storeBlock (label : String) (t : Terminator) : Block :=
  ⟨label, [⟨.store (.int byte) (.var "x" (.int byte)) (.symbol "g"), 3⟩, ⟨.finish t, 3⟩]⟩

/-- A program of one function that starts by making the variable `x`. -/
def blockProgram (params : List Param) (x : Value) (t : Terminator) (blocks : List Block) :
    Program where
  structs := []
  globals := [⟨"g", .int byte, none⟩]
  functions := [{
    name := "f"
    params := params
    returns := .void
    isVararg := false
    blocks := ⟨"entry", [⟨.assign "x" x, 3⟩, ⟨.finish t, 3⟩]⟩ :: blocks }]

def blockText (params blocks : String) : String :=
  "global @g: i8\nfunction @f(" ++ params ++ ") -> void \x7b\n" ++ blocks ++ "\x7d\n"

/-- These programs rearrange one another when their blocks do. -/
theorem blockProgram_rearranges (params : List Param) (x : Value) (t : Terminator)
    {blocks blocks' : List Block} (h : blocks'.Perm blocks) :
    (blockProgram params x t blocks').Rearranges (blockProgram params x t blocks) :=
  ⟨rfl, rfl, .cons ⟨rfl, rfl, rfl, rfl, rfl, h.cons _⟩ .nil⟩

def blockSettings : Settings := ⟨5, none, [], Nat.succ_pos 4⟩

def foundIds (p : Program) : Option (List String) :=
  match (run (.ofProgram p blockSettings)).run (.start blockSettings .always) with
  | .ok _ s => some s.table.ids
  | .error _ _ => none

/-- If ids are found for a program, then there is a run that ends with these ids. -/
theorem exists_run_of_foundIds {ids : List String} (h : foundIds p = some ids) :
    ∃ history s, (run (.ofProgram p blockSettings)).run (.start blockSettings .always) =
      .ok history s ∧ s.table.ids = ids := by
  unfold foundIds at h
  split at h
  · rename_i history s hrun
    exact ⟨history, s, hrun, Option.some.inj h⟩
  · cases h

/-- The global has no initial value, so that a run begins with the first round. -/
theorem foundIds_of_rounds {params : List Param} {x : Value} {t : Terminator} {blocks : List Block}
    {ids : List String} {n : Nat} (hn : n ≤ blockSettings.maxIterations)
    (h : (match (rounds (.ofProgram (blockProgram params x t blocks) blockSettings) n).run
        (.start blockSettings .always) with
      | .ok _ s => some s.table.ids
      | .error _ _ => none) = some ids) :
    foundIds (blockProgram params x t blocks) = some ids := by
  let e := Env.ofProgram (blockProgram params x t blocks) blockSettings
  let start := State.start blockSettings .always
  have hleaves : e.program.leaves = [] := by
    simp [e, Env.ofProgram, Program.leaves, Program.globalLeaves, blockProgram]
  have hseed : (seed e).run start = .ok () start := by
    rw [seed, hleaves]
    rfl
  have hlimit : n ≤ e.roundLimit start.table := Nat.le_succ_of_le (Nat.le_add_right_of_le hn)
  split at h
  · rename_i l s hrounds
    have hrun : (run e).run start = .ok ⟨start.table, l⟩ s :=
      run_eq_ok.2 ⟨start, hseed, rfl, rounds_mono hlimit hrounds⟩
    unfold foundIds
    rw [hrun]
    exact h
  · cases h

/-- A branch on a parameter. -/
def forkProgram (blocks : List Block) : Program :=
  blockProgram [⟨"c", .i1⟩] (.binary .add (.int byte) (.literal 1 byte) (.literal 2 byte))
    (.jnz (.var "c" .i1) "a" "b") (blocks ++ [storeBlock "d" .retVoid])

def forkText : String :=
  blockText "i1 %c" <| "entry: %x = add i8 1, 2 jnz %c, @a, @b a: jmp @d b: jmp @d " ++
    "d: store i8 %x, @g ret void "

/-- A branch on a parameter tells nothing. -/
theorem isOpen_fork (l l' : String) (s : State) :
    (Env.ofProgram (forkProgram [jumpBlock l "d", jumpBlock l' "d"]) blockSettings).IsOpen s := by
  refine Env.isOpen_of_edgeFacts_eq (fun f hf b hb p hp x ty lhs rhs ha ↦ ?_) fun f hf b hb k ↦ ?_
  · obtain rfl := List.mem_singleton.1 hf
    have hi := mem_instrs_of_mem_sites hb hp
    simp only [Function.instrs, List.cons_append, List.nil_append, List.flatMap_cons, jumpBlock,
      storeBlock, List.flatMap_nil, List.append_nil, List.mem_cons, List.not_mem_nil,
      or_false] at hi
    rcases hi with hi | hi | hi | hi | hi | hi <;> rw [hi] at ha <;> cases ha
  · obtain rfl := List.mem_singleton.1 hf
    simp only [List.cons_append, List.nil_append, List.mem_cons, List.not_mem_nil, or_false] at hb
    rcases hb with rfl | rfl | rfl | rfl <;> rfl

theorem run_rearranged_fork :
    let p := forkProgram [jumpBlock "a" "d", jumpBlock "b" "d"]
    let q := forkProgram [jumpBlock "b" "d", jumpBlock "a" "d"]
    Program.parse forkText = .ok p ∧ p.isSound = true ∧ (∀ f ∈ p.functions, f.IsOrdered) ∧
    q.Rearranges p ∧ (∀ f ∈ q.functions, f.IsOrdered) ∧ p.isShort = true ∧
    ∃ history s history' s',
      (run (.ofProgram p blockSettings)).run (.start blockSettings .always) = .ok history s ∧
      (run (.ofProgram q blockSettings)).run (.start blockSettings .always) = .ok history' s' ∧
      (Env.ofProgram p blockSettings).IsOpen s ∧ (Env.ofProgram q blockSettings).IsOpen s' ∧
      ∀ id, id ∈ s'.table.ids ↔ id ∈ s.table.ids := by
  intro p q
  have hparse : Program.parse forkText = .ok p := by decide +kernel
  have hsound : p.isSound = true :=
    Function.isSound_of_allAvailable rfl rfl (by decide) (by decide) (by decide) (by decide)
  have hq : q.Rearranges p := blockProgram_rearranges _ _ _ (.swap _ _ _)
  have hordered : ∀ f ∈ p.functions, f.IsOrdered := by decide
  have hordered' : ∀ f ∈ q.functions, f.IsOrdered := by decide
  have hshort : p.isShort = true := by decide +kernel
  have hids : foundIds p = some ["var.g"] := foundIds_of_rounds (n := 3) (by decide) (by cbv)
  obtain ⟨history, s, hrun, -⟩ := exists_run_of_foundIds hids
  obtain ⟨hreturns, hfinds⟩ :=
    run_rearranged hparse hsound hordered hq hrun (isOpen_fork "a" "b" s)
  obtain ⟨history', s', hrun'⟩ := hreturns (by decide) hshort
  have hopen' := isOpen_fork "b" "a" s'
  exact ⟨hparse, hsound, hordered, hq, hordered', hshort, history, s, history', s', hrun, hrun',
    isOpen_fork "a" "b" s, hopen', (hfinds history' s' hrun').2 hordered' hopen'⟩

/-! ### Orders that lose facts -/

/-- The second block leads to the third one, which stores what the first one makes. -/
def chainProgram : List Block → Program :=
  blockProgram [] (.binary .add (.int byte) (.literal 1 byte) (.literal 2 byte)) (.jmp "a")

def chainText (blocks : String) : String :=
  blockText "" ("entry: %x = add i8 1, 2 jmp @a " ++ blocks)

/-- Three values of a switch meet again in a block that asks for a fourth one. -/
def meetingProgram (blocks : List Block) : Program :=
  blockProgram [⟨"q", .ptr⟩] (.cast .ptrtoint .ptr (.var "q" .ptr) (.int byte))
    (.switch (.int byte) (.var "x" (.int byte)) "u" [⟨0, "a"⟩, ⟨90, "b"⟩, ⟨200, "c"⟩])
    (blocks ++ [⟨"m", [⟨.finish (.switch (.int byte) (.var "x" (.int byte)) "u" [⟨30, "t"⟩]), 3⟩]⟩,
      storeBlock "t" (.jmp "u"), ⟨"u", [⟨.finish .retVoid, 3⟩]⟩])

def meetingText (blocks : String) : String :=
  blockText "ptr %q" <| "entry: %x = ptrtoint ptr %q to i8 " ++
    "switch i8 %x, @u, 0, @a, 90, @b, 200, @c " ++ blocks ++
    "m: switch i8 %x, @u, 30, @t t: store i8 %x, @g jmp @u u: ret void "

theorem isSound_chain :
    (chainProgram [jumpBlock "a" "b", storeBlock "b" .retVoid]).isSound = true :=
  Function.isSound_of_allAvailable rfl rfl (by decide) (by decide) (by decide) (by decide)

theorem isSound_meeting :
    (meetingProgram [jumpBlock "a" "m", jumpBlock "b" "m", jumpBlock "c" "m"]).isSound = true :=
  Function.isSound_of_allAvailable rfl rfl (by decide +kernel) (by decide +kernel) (by decide)
    (by decide)

/-- Without loops the ids that are found depend on the order of the blocks.  In the first program a
block is laid out before the one that leads to it.  In the second one both orders follow the edges:
0, 90 and 200 are joined around 30 in one order, and past it in the other one. -/
theorem not_same_ids_rearranged :
    (∃ p q, Program.parse (chainText "a: jmp @b b: store i8 %x, @g ret void ") = .ok p ∧
      Program.parse (chainText "b: store i8 %x, @g ret void a: jmp @b ") = .ok q ∧
      p.isSound = true ∧ q.isSound = true ∧ q.Rearranges p ∧
      (∀ f ∈ p.functions, f.IsOrdered) ∧
      foundIds p = some ["var.g"] ∧ foundIds q = some []) ∧
    (∃ p q, Program.parse (meetingText "a: jmp @m b: jmp @m c: jmp @m ") = .ok p ∧
      Program.parse (meetingText "b: jmp @m c: jmp @m a: jmp @m ") = .ok q ∧
      p.isSound = true ∧ q.isSound = true ∧ q.Rearranges p ∧
      (∀ f ∈ p.functions, f.IsOrdered) ∧ (∀ f ∈ q.functions, f.IsOrdered) ∧
      foundIds p = some ["var.g"] ∧ foundIds q = some []) := by
  constructor
  · have hq : (chainProgram [storeBlock "b" .retVoid, jumpBlock "a" "b"]).Rearranges
        (chainProgram [jumpBlock "a" "b", storeBlock "b" .retVoid]) :=
      blockProgram_rearranges _ _ _ (.swap _ _ _)
    exact ⟨_, _, by decide +kernel, by decide +kernel, isSound_chain,
      hq.isSound (by decide) isSound_chain, hq, by decide,
      foundIds_of_rounds (n := 3) (by decide) (by cbv),
      foundIds_of_rounds (n := 3) (by decide) (by cbv)⟩
  · have hq : (meetingProgram [jumpBlock "b" "m", jumpBlock "c" "m", jumpBlock "a" "m"]).Rearranges
        (meetingProgram [jumpBlock "a" "m", jumpBlock "b" "m", jumpBlock "c" "m"]) :=
      blockProgram_rearranges _ _ _ (List.Perm.append_right _ (by decide))
    exact ⟨_, _, by decide +kernel, by decide +kernel, isSound_meeting,
      hq.isSound (by decide) isSound_meeting, hq, by decide, by decide,
      foundIds_of_rounds (n := 3) (by decide) (by cbv),
      foundIds_of_rounds (n := 3) (by decide) (by cbv)⟩

end Examples

end Sweep

end RangeFlow
