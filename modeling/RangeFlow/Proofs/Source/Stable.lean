import RangeFlow.Proofs.Source.Reparse

/-!
# Printing what was read of a printed program

Reading a printed program gives the same program except for the order of its structs: they are
listed in the order in which the definitions, as printed, first name them, and a definition names
the structs of its fields before its own.  So a second print is the same text exactly if this order
is the one that was printed.
-/

namespace RangeFlow

open Source

namespace Program

variable {p q : Program}

/-! ## Structs that have a body -/

/-- The structs that have a body, in the order in which they are printed. -/
def definedNames (p : Program) : List String :=
  p.structs.filterMap fun d ↦ d.fields.map fun _ ↦ d.name

/-- The structs that have a body, in the order in which the printed definitions first name them. -/
def namesMet (p : Program) : List String :=
  (p.structs.flatMap StructDecl.namesMet).eraseDups.filter (· ∈ p.definedNames)

/-- A struct has the fields that are declared for it. -/
theorem fields?_of_mem (hnames : (p.structs.map StructDecl.name).Nodup) {d : StructDecl}
    (hd : d ∈ p.structs) : p.fields? (.named d.name) = d.fields := by
  have hsome : (p.structs.find? fun e ↦ e.name == d.name).isSome = true :=
    List.find?_isSome.2 ⟨d, hd, beq_self_eq_true _⟩
  obtain ⟨e, he⟩ := Option.isSome_iff_exists.1 hsome
  have hname : e.name = d.name := by simpa using List.find?_some he
  obtain rfl := List.inj_on_of_nodup_map hnames (List.mem_of_find?_eq_some he) hd hname
  rw [fields?, he, Option.bind_some]

theorem filterMap_fields {structs : List StructDecl} {isDefined : String → Bool}
    (h : ∀ d ∈ structs, isDefined d.name = d.fields.isSome) :
    (structs.filterMap fun d ↦ d.fields.map fun _ ↦ d.name) =
      (structs.map StructDecl.name).filter isDefined := by
  induction structs with
  | nil => rfl
  | cons d structs ih =>
    have ih := ih fun e he ↦ h e (List.mem_cons_of_mem _ he)
    have hd := h d List.mem_cons_self
    rw [List.map_cons, List.filter_cons, hd, ← ih]
    cases hfields : d.fields with
    | none => rw [List.filterMap_cons_none (by rw [hfields]; rfl)]; rfl
    | some fields => rw [List.filterMap_cons_some (by rw [hfields]; rfl)]; rfl

/-- The structs with a body are those for which fields are found. -/
theorem definedNames_eq_filter (hnames : (p.structs.map StructDecl.name).Nodup) :
    p.definedNames =
      (p.structs.map StructDecl.name).filter fun x ↦ (p.fields? (.named x)).isSome :=
  filterMap_fields fun d hd ↦ by rw [fields?_of_mem hnames hd]

theorem mem_definedNames (hnames : (p.structs.map StructDecl.name).Nodup) {x : String} :
    x ∈ p.definedNames ↔ (p.fields? (.named x)).isSome = true := by
  rw [definedNames_eq_filter hnames, List.mem_filter, and_iff_right_iff_imp]
  intro h
  obtain ⟨fields, hfields⟩ := Option.isSome_iff_exists.1 h
  obtain ⟨d, hd, -⟩ := Option.bind_eq_some_iff.1 hfields
  refine List.mem_map.2 ⟨d, List.mem_of_find?_eq_some hd, ?_⟩
  simpa using List.find?_some hd

/-- A definition names the struct that it defines. -/
theorem mem_flatMap_namesMet {x : String} (h : x ∈ p.definedNames) :
    x ∈ p.structs.flatMap StructDecl.namesMet := by
  obtain ⟨d, hd, hx⟩ := List.mem_filterMap.1 h
  obtain ⟨fields, hfields, rfl⟩ := Option.map_eq_some_iff.1 hx
  refine List.mem_flatMap.2 ⟨d, hd, ?_⟩
  rw [StructDecl.namesMet, hfields]
  exact List.mem_append_right _ (List.mem_singleton_self _)

/-- The second print lists structs in the order in which the first one names them. -/
theorem IsSameAs.definedNames_eq (h : q.IsSameAs p)
    (hp : (p.structs.map StructDecl.name).Nodup) (hq : (q.structs.map StructDecl.name).Nodup)
    {names : List String} (hnames : q.structs.map StructDecl.name =
      (p.structs.flatMap StructDecl.namesMet ++ names).eraseDups) :
    q.definedNames = p.namesMet := by
  have hdefined (x : String) :
      (q.fields? (.named x)).isSome = decide (x ∈ p.definedNames) := by
    rw [h.structs, Bool.eq_iff_iff, decide_eq_true_iff, mem_definedNames hp]
  rw [definedNames_eq_filter hq, hnames, List.eraseDups_append, List.filter_append]
  simp only [hdefined]
  -- Names that are met after the definitions have no body.
  have hrest : ((names.removeAll (p.structs.flatMap StructDecl.namesMet)).eraseDups.filter
      fun x ↦ decide (x ∈ p.definedNames)) = [] := by
    rw [List.filter_eq_nil_iff]
    intro x hx hmem
    rw [List.mem_eraseDups, List.removeAll, List.mem_filter] at hx
    have hmet := mem_flatMap_namesMet (of_decide_eq_true hmem)
    simp [hmet] at hx
  rw [hrest, List.append_nil]
  rfl

/-! ## The text depends on the order of structs only -/

/-- The texts of the structs follow from the order of those with a body. -/
theorem structTexts_eq (hnames : (p.structs.map StructDecl.name).Nodup) :
    p.structs.filterMap StructDecl.text? = p.definedNames.map fun x ↦
      "struct %" ++ x ++ " = " ++ Ty.bodyText ((p.fields? (.named x)).getD []) := by
  rw [definedNames, List.map_filterMap]
  refine List.filterMap_congr fun d hd ↦ ?_
  rw [StructDecl.text?, Option.map_map]
  cases hfields : d.fields with
  | none => rfl
  | some fields =>
    rw [Option.map_some, Option.map_some, Function.comp_apply, fields?_of_mem hnames hd, hfields,
      Option.getD_some]

/-- The text of a function does not show the numbers of lines. -/
theorem text_withoutLines (f : RangeFlow.Function) : f.withoutLines.text = f.text := by
  have hinstrs (b : Block) : b.withoutLines.instrs.map (fun i ↦ "      " ++ i.text) =
      b.instrs.map fun i ↦ "      " ++ i.text := by
    rw [Block.withoutLines, List.map_map]
    rfl
  have hlines : f.withoutLines.bodyLines = f.bodyLines := by
    rw [Function.bodyLines, Function.bodyLines, Function.withoutLines, List.flatMap_map]
    refine List.flatMap_congr fun b _ ↦ ?_
    rw [hinstrs]
    rfl
  have hdeclared : f.withoutLines.isDeclaration = f.isDeclaration := by
    rw [Function.isDeclaration, Function.isDeclaration, Function.withoutLines, List.isEmpty_map]
  rw [Function.text, Function.text, hlines, hdeclared]
  rfl

/-- Two such programs have the same text if their structs with a body come in the same order. -/
theorem IsSameAs.text_eq (h : q.IsSameAs p) (hp : (p.structs.map StructDecl.name).Nodup)
    (hq : (q.structs.map StructDecl.name).Nodup) (hdefined : q.definedNames = p.definedNames) :
    q.text = p.text := by
  have hstructs : q.structs.filterMap StructDecl.text? = p.structs.filterMap StructDecl.text? := by
    rw [structTexts_eq hp, structTexts_eq hq, hdefined]
    simp only [h.structs]
  have hfunctions : (q.functions.flatMap fun f ↦ [f.text, ""]) =
      p.functions.flatMap fun f ↦ [f.text, ""] := by
    have hmap := congrArg (List.flatMap fun f : Function ↦ [f.text, ""]) h.functions
    rw [List.flatMap_map, List.flatMap_map] at hmap
    simpa only [text_withoutLines] using hmap
  rw [text, text, hstructs, h.globals, hfunctions]

/-! ## The order of structs can be read from the text -/

/-- The struct that an item defines. -/
def structName? : Item → Option String
  | .struct name _ => some name
  | .global _ _ _ | .declare _ | .function _ _ => none

theorem filterMap_structName?_functions {functions : List RangeFlow.Function} {items : List Item}
    (h : List.Forall₂ Function.Tree functions items) : items.filterMap structName? = [] := by
  induction h with
  | nil => rfl
  | @cons f item functions items hitem _ ih =>
    unfold Function.Tree at hitem
    split at hitem
    · rw [hitem]
      exact ih
    · obtain ⟨body, -, rfl⟩ := hitem
      exact ih

/-- The structs among the items of a program are those with a body. -/
theorem filterMap_structName? {items : List Item}
    (hitems : List.Forall₂ Function.Tree p.functions items) :
    (structItems p.structs ++ globalItems p.globals ++ items).filterMap structName? =
      p.definedNames := by
  have hstructs : (structItems p.structs).filterMap structName? = p.definedNames := by
    rw [structItems, List.filterMap_filterMap, definedNames]
    refine List.filterMap_congr fun d _ ↦ ?_
    cases d.fields <;> rfl
  have hglobals : (globalItems p.globals).filterMap structName? = [] := by
    rw [globalItems, List.filterMap_map, List.filterMap_eq_nil_iff]
    intro g _
    rfl
  have hfunctions := filterMap_structName?_functions hitems
  rw [List.filterMap_append, List.filterMap_append, hstructs, hglobals, hfunctions,
    List.append_nil, List.append_nil]

/-- The order of the structs with a body can be read from the text. -/
theorem definedNames_of_text_eq (hp : p.IsSpelled)
    (hpl : ∀ f ∈ p.functions, LabelsFit .body f.parts) (hq : q.IsSpelled)
    (hql : ∀ f ∈ q.functions, LabelsFit .body f.parts) (h : q.text = p.text) :
    q.definedNames = p.definedNames := by
  obtain ⟨items, hparse, hitems⟩ := exists_parseItems hp hpl
  obtain ⟨items', hparse', hitems'⟩ := exists_parseItems hq hql
  rw [h, hparse, Except.ok.injEq] at hparse'
  rw [← filterMap_structName? hitems, hparse', filterMap_structName? hitems']

theorem IsSameAs.isIndexed (h : q.IsSameAs p) (hp : p.IsIndexed) : q.IsIndexed := by
  intro f hf i hi
  have hmem : f.withoutLines ∈ p.functions.map Function.withoutLines := by
    rw [← h.functions]
    exact List.mem_map_of_mem hf
  obtain ⟨g, hg, hgf⟩ := List.mem_map.1 hmem
  have hinstrs (f : RangeFlow.Function) :
      f.withoutLines.instrs = f.instrs.map Instr.withoutLine := by
    rw [Function.instrs, Function.instrs, Function.withoutLines, List.flatMap_map, List.map_flatMap]
    rfl
  have hi' : i.withoutLine ∈ g.instrs.map Instr.withoutLine := by
    rw [← hinstrs, hgf, hinstrs]
    exact List.mem_map_of_mem hi
  obtain ⟨j, hj, hji⟩ := List.mem_map.1 hi'
  have haction : j.withoutLine.action = i.withoutLine.action := by rw [hji]
  change j.action = i.action at haction
  rw [← haction]
  exact hp g hg j hj

/-- Printing a program, reading it and printing it again gives the same text if and only if the
definitions of structs first name the defined structs in the order in which they are printed.
Asked for are numbers that can be written, and indices of fields that are read as they are written;
an accepted program has the latter. -/
theorem text_stable_iff {text : String} (hparse : Program.parse text = .ok p)
    (hindexed : p.IsIndexed) (hwritable : p.isWritable = true) :
    ∃ q, Program.parse p.text = .ok q ∧ q.IsSameAs p ∧
      (q.text = p.text ↔ p.namesMet = p.definedNames) := by
  obtain ⟨q, hq, hsame, names, hnames⟩ := exists_parse_of_isIndexed hparse hindexed hwritable
  have hp := (isRead_of_parse hparse).structNames
  have hq' := (isRead_of_parse hq).structNames
  have hmet := hsame.definedNames_eq hp hq' hnames
  refine ⟨q, hq, hsame, fun htext ↦ ?_, fun horder ↦ ?_⟩
  · obtain ⟨hpspelled, hplabels⟩ := isSpelled_of_parse hparse hindexed
    obtain ⟨hqspelled, hqlabels⟩ := isSpelled_of_parse hq (hsame.isIndexed hindexed)
    rw [← hmet]
    exact definedNames_of_text_eq hpspelled (fun f hf ↦ (hplabels f hf).1) hqspelled
      (fun f hf ↦ (hqlabels f hf).1) htext
  · exact hsame.text_eq hp hq' (hmet.trans horder)

/-! ## Structs that name earlier ones only -/

theorem removeAll_singleton {x : String} {xs : List String} (h : x ∉ xs) :
    [x].removeAll xs = [x] := by
  rw [List.removeAll, List.filter_eq_self]
  intro y hy
  rw [List.mem_singleton.1 hy, List.elem_eq_mem, decide_eq_false h]
  rfl

theorem mem_names_of_mem_definedNames {x : String} {structs : List StructDecl}
    (h : x ∈ structs.filterMap fun d ↦ d.fields.map fun _ ↦ d.name) :
    x ∈ structs.map StructDecl.name := by
  obtain ⟨d, hd, hx⟩ := List.mem_filterMap.1 h
  obtain ⟨fields, -, rfl⟩ := Option.map_eq_some_iff.1 hx
  exact List.mem_map_of_mem hd

/-- The order is kept if the fields of a struct name no defined struct but earlier ones. -/
theorem namesMet_eq_definedNames (hnames : (p.structs.map StructDecl.name).Nodup)
    (h : ∀ before d after fields, p.structs = before ++ d :: after → d.fields = some fields →
      ∀ x ∈ Ty.structNamesOf fields, x ∈ p.definedNames → x ∈ before.map StructDecl.name) :
    p.namesMet = p.definedNames := by
  -- So it is for each number of structs from the first one on.
  suffices hprefix : ∀ before after, p.structs = before ++ after →
      ((before.flatMap StructDecl.namesMet).eraseDups.filter (· ∈ p.definedNames)) =
        before.filterMap fun d ↦ d.fields.map fun _ ↦ d.name from
    hprefix p.structs [] (List.append_nil _).symm
  intro before
  induction before using List.reverseRecOn with
  | nil => exact fun _ _ ↦ rfl
  | append_singleton before d ih =>
    intro after hsplit
    rw [List.append_assoc, List.singleton_append] at hsplit
    have ih := ih _ hsplit
    have hfresh : d.name ∉ before.map StructDecl.name := by
      rw [hsplit, List.map_append, List.map_cons] at hnames
      exact fun hmem ↦ (List.nodup_append.1 hnames).2.2 _ hmem _ List.mem_cons_self rfl
    rw [List.flatMap_append, List.flatMap_singleton, List.eraseDups_append, List.filter_append, ih,
      List.filterMap_append]
    congr 1
    cases hfields : d.fields with
    | none => simp [StructDecl.namesMet, hfields, List.removeAll]
    | some fields =>
      have hdefined : d.name ∈ p.definedNames := by
        rw [mem_definedNames hnames, fields?_of_mem hnames (by simp [hsplit]), hfields]
        rfl
      -- What is defined among the names met so far are the earlier structs.
      have hmet (x : String) (hx : x ∈ p.definedNames) :
          x ∈ before.flatMap StructDecl.namesMet ↔ x ∈ before.map StructDecl.name := by
        constructor
        · intro hmem
          refine mem_names_of_mem_definedNames ?_
          rw [← ih, List.mem_filter, List.mem_eraseDups]
          exact ⟨hmem, decide_eq_true hx⟩
        · intro hmem
          obtain ⟨e, he, rfl⟩ := List.mem_map.1 hmem
          rw [mem_definedNames hnames, fields?_of_mem hnames (by simp [hsplit, he])] at hx
          obtain ⟨fields, hfields⟩ := Option.isSome_iff_exists.1 hx
          refine List.mem_flatMap.2 ⟨e, he, ?_⟩
          rw [StructDecl.namesMet, hfields]
          exact List.mem_append_right _ (List.mem_singleton_self _)
      have hold (x : String) (hx : x ∈ p.definedNames) :
          x ∉ (Ty.structNamesOf fields).removeAll (before.flatMap StructDecl.namesMet) := by
        intro hmem
        simp only [List.removeAll, List.mem_filter, List.elem_eq_mem, Bool.not_eq_true',
          decide_eq_false_iff_not] at hmem
        exact hmem.2 ((hmet x hx).2 (h before d after fields hsplit hfields x hmem.1 hx))
      have hnew := removeAll_singleton (mt (hmet d.name hdefined).1 hfresh)
      have hown := removeAll_singleton (hold d.name hdefined)
      have hnone : ((Ty.structNamesOf fields).removeAll
          (before.flatMap StructDecl.namesMet)).eraseDups.filter (· ∈ p.definedNames) = [] := by
        rw [List.filter_eq_nil_iff]
        intro x hx hmem
        exact hold x (of_decide_eq_true hmem) (List.mem_eraseDups.1 hx)
      have hsplit' : d.namesMet.removeAll (before.flatMap StructDecl.namesMet) =
          (Ty.structNamesOf fields).removeAll (before.flatMap StructDecl.namesMet) ++
            [d.name].removeAll (before.flatMap StructDecl.namesMet) := by
        rw [StructDecl.namesMet, hfields]
        exact List.filter_append ..
      rw [hsplit', hnew, List.eraseDups_append, hown, List.filter_append, hnone, List.nil_append,
        eraseDups_of_nodup (List.nodup_singleton _)]
      simp [hdefined, hfields]

end Program

/-! ## A struct that is met before the one of its field -/

open Width (byte)

/-- The global makes the outer struct known before the inner one; printed, its definition names the
inner one first. -/
def nestedText : String :=
  "global @g: %b\nstruct %b = \x7b %a \x7d\nstruct %a = \x7b i8 \x7d\n"

def nestedProgram : Program :=
  { structs := [⟨"b", some [.named "a"]⟩, ⟨"a", some [.int byte]⟩]
    globals := [⟨"g", .named "b", none⟩]
    functions := [] }

/-- The text is stable exactly if the structs are met in the order in which they are written. -/
theorem text_stable_iff_nested :
    Program.parse nestedText = .ok nestedProgram ∧ nestedProgram.IsIndexed ∧
    nestedProgram.isWritable = true ∧
    ∃ q, Program.parse nestedProgram.text = .ok q ∧ q.IsSameAs nestedProgram ∧
      (q.text = nestedProgram.text ↔ nestedProgram.namesMet = nestedProgram.definedNames) := by
  have hparse : Program.parse nestedText = .ok nestedProgram := by decide +kernel
  have hindexed : nestedProgram.IsIndexed := by
    intro f hf
    cases hf
  have hwritable : nestedProgram.isWritable = true := by decide +kernel
  exact ⟨hparse, hindexed, hwritable, Program.text_stable_iff hparse hindexed hwritable⟩

/-- The program is accepted, and its text is read as one with the structs in the other order. -/
theorem not_text_stable_nested :
    Program.parse nestedText = .ok nestedProgram ∧ nestedProgram.isSound = true ∧
    ∃ q, Program.parse nestedProgram.text = .ok q ∧
      q.structs = nestedProgram.structs.reverse ∧ q.text ≠ nestedProgram.text := by
  refine ⟨by decide +kernel, rfl,
    ⟨nestedProgram.structs.reverse, nestedProgram.globals, []⟩, ?_, rfl, ?_⟩
  · decide +kernel
  · decide +kernel

end RangeFlow
