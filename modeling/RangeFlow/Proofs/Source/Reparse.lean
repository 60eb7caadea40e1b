import RangeFlow.Proofs.Check.Definition
import RangeFlow.Proofs.Source.Spelled

/-!
# Reading a printed program again

A program that was read and accepted is printed as a text that is read as the same program, provided
that the text can be written at all.  Counts of arrays and initial values are written in decimal,
and may have more digits than are ever written when they were given in hexadecimal.
-/

namespace RangeFlow

open Source

namespace Program

variable {p : Program} {f : Function}

/-- In an accepted program no instruction is a misfit. -/
theorem misfit?_eq_none_of_isSound (h : p.isSound = true) (hf : f ∈ p.functions) {i : Instr}
    (hi : i ∈ f.instrs) : p.misfit? f i = none := by
  obtain ⟨g, hg⟩ := exists_flow_of_isSound h hf
  have hdef := typingDefects_of_isSound h hf hg
  unfold typingDefects at hdef
  have huses := List.flatMap_eq_nil_iff.1 (List.append_eq_nil_iff.1 hdef).2 i hi
  have hnil := (List.append_eq_nil_iff.1 huses).2
  rwa [Option.toList_eq_nil_iff, Option.map_eq_none_iff] at hnil

/-- The index of a field of an accepted program is that of a field. -/
theorem isIndexed_of_isSound (h : p.isSound = true) (hf : f ∈ p.functions) {i : Instr}
    (hi : i ∈ f.instrs) : i.action.IsIndexed := by
  have hfit := misfit?_eq_none_of_isSound h hf hi
  unfold misfit? at hfit
  cases ha : i.action with
  | assign x v =>
    cases v with
    | field t address index =>
      simp only [ha] at hfit
      split at hfit
      · split at hfit
        · rename_i hbounds
          exact Int.lt_of_lt_of_le (by decide) hbounds.1
        · cases hfit
      · cases hfit
    | _ => exact ⟨⟩
  | store | call | finish => exact ⟨⟩

/-! ## Programs that were read -/

/-- What reading a text makes sure of. -/
structure IsRead (p : Program) : Prop where
  structs : ∀ s ∈ p.structs, s.IsSpelled
  globals : ∀ g ∈ p.globals, g.IsSpelled
  functions : ∀ f ∈ p.functions, ∃ parts : FunctionParts,
    parts.IsSpelled ∧ collectFunction parts = .ok f
  structNames : (p.structs.map StructDecl.name).Nodup
  globalNames : (p.globals.map Global.name).Nodup
  functionNames : (p.functions.map Function.name).Nodup

/-- A program that was read from a text has what reading brings with it. -/
theorem isRead_of_parse {text : String} (h : Program.parse text = .ok p) : p.IsRead := by
  unfold Program.parse at h
  split at h
  · cases h
  rename_i items hitems
  obtain ⟨parts, structs, globals, functions, hparts, hglobals, hfunctions, rfl⟩ :=
    buildProgram_eq_ok.1 h
  have hempty : Structs.AreSpelled ∅ := fun _ _ hget ↦ nomatch hget
  obtain ⟨hall, hstructs⟩ := Makes.mapM_all
    (fun item hitem ↦ Item.makes (Item.isSpelled_of_parseItems hitems item hitem))
    ∅ parts structs hempty hparts
  constructor
  · intro s hs
    obtain ⟨⟨name, fields⟩, hentry, rfl⟩ := List.mem_map.1 hs
    exact hstructs name fields (OrderedMap.get?_of_mem hentry)
  · intro g hg
    have hmem := (mem_of_collectGlobals hglobals hg).resolve_left List.not_mem_nil
    exact hall (.global g) hmem
  · intro f hf
    obtain ⟨fp, hmem, hfp⟩ := (mem_of_collectFunctions hfunctions hf).resolve_left List.not_mem_nil
    exact ⟨fp, hall (.function fp) hmem, hfp⟩
  · rw [List.map_map]
    exact structs.nodup
  · exact nodup_of_collectGlobals hglobals List.nodup_nil
  · exact nodup_of_collectFunctions hfunctions List.nodup_nil

/-- The same globals, the same functions up to lines, and the same body for every struct. -/
structure IsSameAs (q p : Program) : Prop where
  globals : q.globals = p.globals
  functions : q.functions.map Function.withoutLines = p.functions.map Function.withoutLines
  structs : ∀ name, q.fields? (.named name) = p.fields? (.named name)

/-- All indices of fields are written as numbers are read. -/
def IsIndexed (p : Program) : Prop := ∀ f ∈ p.functions, ∀ i ∈ f.instrs, i.action.IsIndexed

/-- The names in a program that was read can be read again. -/
theorem isSpelled_of_parse {text : String} (hparse : Program.parse text = .ok p)
    (hindexed : p.IsIndexed) :
    p.IsSpelled ∧ ∀ f ∈ p.functions, LabelsFit .body f.parts ∧ f.labels.Nodup := by
  have hread := isRead_of_parse hparse
  have hfunction : ∀ f ∈ p.functions,
      f.IsSpelled ∧ LabelsFit .body f.parts ∧ f.labels.Nodup := by
    intro f hf
    obtain ⟨parts, hparts, hcollect⟩ := hread.functions f hf
    exact isSpelled_of_collectFunction hcollect hparts (hindexed f hf)
  exact ⟨⟨hread.structs, hread.globals, fun f hf ↦ (hfunction f hf).1⟩,
    fun f hf ↦ (hfunction f hf).2⟩

/-- What is printed of a program that could have been read is read as the same program, whose
structs are listed in the order in which the printed definitions name them. -/
theorem exists_parse_of_isBuildable (hspelled : p.IsSpelled) (hbuildable : p.IsBuildable)
    (hlabels : ∀ f ∈ p.functions, LabelsFit .body f.parts) :
    ∃ q, Program.parse p.text = .ok q ∧ q.IsSameAs p ∧ ∃ names,
      q.structs.map StructDecl.name =
        (p.structs.flatMap StructDecl.namesMet ++ names).eraseDups := by
  obtain ⟨items, hitems, htrees⟩ := exists_parseItems hspelled hlabels
  obtain ⟨q, hq, hglobals, hfunctions, hfields, hnames⟩ :=
    exists_buildProgram hspelled hbuildable htrees
  refine ⟨q, ?_, ⟨hglobals, hfunctions, hfields⟩, hnames⟩
  unfold Program.parse
  rw [hitems]
  exact hq

/-- A program that was read is read again from its text, if its numbers can be written and its
indices are not negative. -/
theorem exists_parse_of_isIndexed {text : String} (hparse : Program.parse text = .ok p)
    (hindexed : p.IsIndexed) (hwritable : p.isWritable = true) :
    ∃ q, Program.parse p.text = .ok q ∧ q.IsSameAs p ∧ ∃ names,
      q.structs.map StructDecl.name =
        (p.structs.flatMap StructDecl.namesMet ++ names).eraseDups := by
  have hread := isRead_of_parse hparse
  obtain ⟨hspelled, hlabels⟩ := isSpelled_of_parse hparse hindexed
  have hbodies : ∀ f ∈ p.functions, f.IsBuildable := by
    intro f hf
    refine ⟨fun i hi ↦ isTyped_of_parse hparse hf hi, ?_, (hlabels f hf).2⟩
    exact List.all_eq_true.1 (Bool.and_eq_true_iff.1 hwritable).2 f hf
  have hbuildable : p.IsBuildable :=
    ⟨hwritable, hread.structNames, hread.globalNames, hread.functionNames, hbodies⟩
  exact exists_parse_of_isBuildable hspelled hbuildable fun f hf ↦ (hlabels f hf).1

/-- What is printed of an accepted program is read as the same program, if it can be written. -/
theorem exists_parse_text {text : String} (hparse : Program.parse text = .ok p)
    (hsound : p.isSound = true) (hwritable : p.isWritable = true) :
    ∃ q, Program.parse p.text = .ok q ∧ q.IsSameAs p := by
  have hindexed : p.IsIndexed := fun f hf i hi ↦ isIndexed_of_isSound hsound hf hi
  obtain ⟨q, hq, hsame, -⟩ := exists_parse_of_isIndexed hparse hindexed hwritable
  exact ⟨q, hq, hsame⟩

end Program

/-! ## A program full of names, and one with a number that is too large -/

open Width (byte)

/-- Names that look like keywords, numbers in both notations, a struct without a body, a parameter
without a name, and a symbol where an integer is written. -/
def namesText : String :=
  "struct %x = \x7b \x7b %y \x7d \x7d\nglobal @ret: i8 = -1\nfunction @f(i8) \x7b\nto:\n" ++
    "  switch i8 @ret, @to, 0x1ff, @to\n\x7d\n"

def namesProgram : Program :=
  { structs := [⟨"y", none⟩, ⟨"x", some [.literal [.named "y"]]⟩]
    globals := [⟨"ret", .int byte, some (.int (-1))⟩]
    functions := [{
      name := "f"
      params := [⟨"0", .int byte⟩]
      returns := .void
      isVararg := false
      blocks := [⟨"to",
        [⟨.finish (.switch (.int byte) (.symbol "ret") "to" [⟨255, "to"⟩]), 5⟩]⟩] }] }

theorem isSound_namesProgram : namesProgram.isSound = true :=
  Function.isSound_of_allAvailable rfl rfl (by decide) (by decide) (by decide) (by decide)

/-- Names of all kinds can be printed and read again. -/
theorem exists_parse_text_names :
    Program.parse namesText = .ok namesProgram ∧ namesProgram.isSound = true ∧
    namesProgram.isWritable = true ∧
    ∃ q, Program.parse namesProgram.text = .ok q ∧ q.IsSameAs namesProgram := by
  have hparse : Program.parse namesText = .ok namesProgram := by decide +kernel
  have hwritable : namesProgram.isWritable = true := by decide +kernel
  exact ⟨hparse, isSound_namesProgram, hwritable,
    Program.exists_parse_text hparse isSound_namesProgram hwritable⟩

/-- A global whose initial value is given in hexadecimal. -/
def hexText (n : Nat) : String := "global @g: i8 = 0x" ++ String.ofList (Nat.toDigits 16 n)

def hexProgram (n : Nat) : Program := ⟨[], [⟨"g", .int byte, some (.int n)⟩], []⟩

def hexTokens (n : Nat) : List Token :=
  .mark "global" :: .global "g" :: .mark ":" ::
    ((Ty.int byte).tokens ++ [.mark "=", .const (hexadecimal n)])

theorem spells_hexText (n : Nat) : Spells (hexTokens n) (hexText n).toList := by
  have hnumber := Spells.hexadecimal (n := n) breaks_nil.stops (.nil rfl)
  have htext : (hexText n).toList = "global".toList ++ ' ' :: '@' :: ("g".toList ++
      (":".toList ++ ' ' :: 'i' :: (Nat.toDigits 10 8 ++ ' ' :: ("=".toList ++ ' ' :: '0' :: 'x' ::
        (Nat.toDigits 16 n ++ []))))) := by
    unfold hexText
    simp only [String.toList_append, String.toList_ofList, List.append_nil]
    rfl
  rw [htext]
  refine .word "global" rfl (breaks_cons rfl).stops (.blank rfl ?_)
  refine .global (x := "g") rfl (stops_cons rfl) (.mark ":" (by decide) (.blank rfl ?_))
  refine .intType (n := 8) (breaks_cons rfl).stops (.blank rfl ?_)
  exact .mark "=" (by decide) (.blank rfl hnumber)

theorem readsItem_hexTokens (n : Nat) : ReadsItem (hexTokens n)
    (Item.global "g" (.int (decimal 8)) (some (.int (hexadecimal n))) = ·) := by
  refine ⟨⟨"global", by decide, _, rfl⟩, fun m hm ↦ ?_⟩
  simp only [hexTokens, Ty.tokens, List.length_cons, List.length_append, List.length_nil] at hm
  obtain ⟨m, rfl⟩ : ∃ k, m = k + 1 := ⟨m - 1, by omega⟩
  have hconstant : Reads (constant (m + 1)) [.const (hexadecimal n)] Expect.afterConstant.Meets
      (.int (hexadecimal n) = ·) := by
    rw [constant]
    exact .token (.advance (fun _ h ↦ h) (.pure rfl))
  refine .token (.advance (fun _ _ ↦ (Expect.starts_cons rfl).meets) ?_)
  refine .seq .globalName (Expect.starts_cons rfl) ?_
  refine .pass (fun vs _ ↦ (Expect.starts_cons rfl).meets) ?_
  refine .seq (Ty.reads (t := .int byte) ⟨⟩ ?_) (Expect.starts_cons rfl) ?_
  · simp only [Ty.tokens, List.length_cons, List.length_nil]
    omega
  · refine .isAt_true (fun vs _ ↦ ⟨_, rfl⟩) (.advance (fun vs _ ↦ ?_) ?_)
    · exact (Expect.starts_cons rfl).meets
    · exact hconstant.last (fun vs hvs ↦ hvs.meets rfl) (.pure rfl)

/-- The text with the number can be read, however large the number is. -/
theorem parse_hexText (n : Nat) : Program.parse (hexText n) = .ok (hexProgram n) := by
  have hspells : Spells [hexTokens n].flatten (hexText n).toList := by
    rw [List.flatten_singleton]
    exact spells_hexText n
  obtain ⟨items, hitems, hall⟩ :=
    exists_parseItems_of_spells (.cons (readsItem_hexTokens n) .nil) hspells
  cases hall with
  | cons hitem hnil =>
    cases hnil
    subst hitem
    rw [Program.parse, hitems]
    rfl

/-- The initial value of a global can be so large that the program, which is accepted, cannot be
written, while an operand of that size would be. -/
theorem not_exists_parse_text_hex :
    Program.parse (hexText (16 ^ 3600)) = .ok (hexProgram (16 ^ 3600)) ∧
    (hexProgram (16 ^ 3600)).isSound = true ∧ (hexProgram (16 ^ 3600)).isWritable = false := by
  refine ⟨parse_hexText _, rfl, ?_⟩
  decide +kernel

end RangeFlow
