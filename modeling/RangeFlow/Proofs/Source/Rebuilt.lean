import RangeFlow.Program.Writable
import RangeFlow.Proofs.Ordered.Map
import RangeFlow.Proofs.Source.Built
import RangeFlow.Proofs.Source.Items

/-!
# Trees that are built back

The trees of a program are built into the program again, if its numbers can be written, its
operands have the types that are written, and names are given once.  Types and operands only make
struct names known; the bodies of structs are left as they are (`Builds`).
-/

namespace RangeFlow

namespace Source

/-! ## Parts that are always built -/

def Structs.body? (s : Structs) (name : String) : Option (List Ty) := (s.get? name).join

/-- The second step goes on with the structs that the first one met. -/
theorem run_bind_of_ok {α β : Type} {m : Build α} {f : α → Build β} {s t : Structs} {a : α}
    (h : m.run s = .ok (a, t)) : (m >>= f).run s = (f a).run t := by
  rw [StateT.run_bind, h]
  rfl

/-- A part is built into the same thing after any struct names, and it defines no struct.  It makes
the given names known, in this order as far as they are new. -/
def BuildsMeeting {α : Type} (m : Build α) (a : α) (names : List String) : Prop :=
  ∀ (s : Structs) (met : List String), s.keys = met.eraseDups →
    ∃ t : Structs, m.run s = .ok (a, t) ∧ (∀ name, t.body? name = s.body? name) ∧
      t.keys = (met ++ names).eraseDups

/-- A part is built, and meets some names. -/
def Builds {α : Type} (m : Build α) (a : α) : Prop := ∃ names, BuildsMeeting m a names

namespace BuildsMeeting

variable {α β : Type}

/-- What is built with the structs that it meets is built. -/
theorem builds {m : Build α} {a : α} {names : List String} (h : BuildsMeeting m a names) :
    Builds m a := ⟨names, h⟩

theorem pure (a : α) : BuildsMeeting (Pure.pure a) a [] := by
  intro s met hs
  refine ⟨s, rfl, fun _ ↦ rfl, ?_⟩
  rw [List.append_nil, hs]

/-- Two steps meet the structs of the first one and then those of the second one. -/
theorem bind {m : Build α} {f : α → Build β} {a : α} {b : β} {names names' : List String}
    (hm : BuildsMeeting m a names) (hf : BuildsMeeting (f a) b names') :
    BuildsMeeting (m >>= f) b (names ++ names') := by
  intro s met hs
  obtain ⟨t, hrun, ht, hkeys⟩ := hm s met hs
  obtain ⟨u, hrun', hu, hkeys'⟩ := hf t _ hkeys
  refine ⟨u, ?_, fun name ↦ (hu name).trans (ht name), ?_⟩
  · rw [run_bind_of_ok hrun, hrun']
  · rw [hkeys', List.append_assoc]

theorem bind_pure {m : Build α} {f : α → Build β} {a : α} {b : β} {names : List String}
    (hm : BuildsMeeting m a names) (hf : f a = Pure.pure b) : BuildsMeeting (m >>= f) b names := by
  have hpure : BuildsMeeting (f a) b [] := by
    rw [hf]
    exact .pure b
  have hbind := hm.bind hpure
  rwa [List.append_nil] at hbind

theorem lift {x : Except SourceError α} {a : α} (h : x = .ok a) : BuildsMeeting (liftM x) a [] := by
  subst h
  exact .pure a

theorem meetStruct (name : String) : BuildsMeeting (meetStruct name) () [name] := by
  intro s met hs
  refine ⟨_, rfl, fun x ↦ ?_, ?_⟩
  · dsimp only
    split
    · rfl
    · rename_i hnew
      by_cases hx : x = name
      · subst hx
        have hnone : s.get? x = none := by
          rw [OrderedMap.get?_eq_none_iff]
          simpa [OrderedMap.contains] using hnew
        simp [Structs.body?, hnone]
      · rw [Structs.body?, Structs.body?, OrderedMap.get?_insert_of_ne _ _ hx]
  · dsimp only
    split
    · rename_i hold
      rw [OrderedMap.contains, decide_eq_true_iff] at hold
      rw [eraseDups_append_singleton, ← hs, if_pos hold]
    · exact OrderedMap.keys_insert_of_eraseDups hs name none

/-- To read a number meets no struct. -/
theorem readNumeral {n : Numeral} {v : Int} (h : n.value? = some v) :
    BuildsMeeting (readNumeral n) v [] := by
  unfold Source.readNumeral
  rw [h]
  exact .pure v

end BuildsMeeting

namespace Builds

variable {α β : Type}

theorem pure (a : α) : Builds (Pure.pure a) a := (BuildsMeeting.pure a).builds

theorem bind {m : Build α} {f : α → Build β} {a : α} {b : β} (hm : Builds m a)
    (hf : Builds (f a) b) : Builds (m >>= f) b := by
  obtain ⟨names, hm⟩ := hm
  obtain ⟨names', hf⟩ := hf
  exact (hm.bind hf).builds

theorem lift {x : Except SourceError α} {a : α} (h : x = .ok a) : Builds (liftM x) a :=
  (BuildsMeeting.lift h).builds

/-- A list is built if each element is. -/
theorem mapM {f : α → Build β} {xs : List α} {ys : List β}
    (h : List.Forall₂ (fun x y ↦ Builds (f x) y) xs ys) : Builds (xs.mapM f) ys := by
  induction h with
  | nil =>
    rw [List.mapM_nil]
    exact .pure []
  | cons hx _ ih =>
    rw [List.mapM_cons]
    exact hx.bind (ih.bind (.pure _))

end Builds

theorem mapM_eq_ok {α β ε : Type} {f : α → Except ε β} {xs : List α} {ys : List β}
    (h : List.Forall₂ (fun x y ↦ f x = .ok y) xs ys) : xs.mapM f = .ok ys := by
  induction h with
  | nil => rfl
  | cons hx _ ih =>
    rw [List.mapM_cons, hx, ih]
    rfl

theorem builds_readNumeral {n : Numeral} {v : Int} (h : n.value? = some v) :
    Builds (readNumeral n) v := (BuildsMeeting.readNumeral h).builds

end Source

open Source

/-! ## Types and constants -/

theorem Width.ofInt?_bits (w : Width) : Width.ofInt? w.bits = some w := by
  simp [Width.ofInt?, w.bits_pos]

namespace Ty

theorem areWritable_iff {ts : List Ty} : areWritable ts = true ↔ ∀ t ∈ ts, t.isWritable = true := by
  induction ts with
  | nil => simp [areWritable]
  | cons t ts ih => simp [areWritable, ih]

mutual

/-- The structs that a type names, in the order in which they are written. -/
def structNames : Ty → List String
  | .named name => [name]
  | .array _ element => structNames element
  | .literal fields => structNamesOf fields
  | .int _ | .ptr | .void => []

def structNamesOf : List Ty → List String
  | [] => []
  | t :: ts => structNames t ++ structNamesOf ts

end

/-- The fields of a struct type are built, and their structs are met in order. -/
theorem buildsMeeting_fields {fields : List Ty}
    (h : ∀ t ∈ fields, BuildsMeeting (buildType t.tree) t t.structNames) :
    BuildsMeeting (buildTypes (trees fields)) fields (structNamesOf fields) := by
  induction fields with
  | nil => exact .pure []
  | cons t fields ih =>
    have ih := ih fun t ht ↦ h t (List.mem_cons_of_mem _ ht)
    exact (h t List.mem_cons_self).bind (ih.bind_pure rfl)

/-- A type is built from its tree, and its structs are met in order. -/
theorem buildsMeeting {t : Ty} (ht : t.IsSpelled) (hw : t.isWritable = true) :
    BuildsMeeting (buildType t.tree) t t.structNames := by
  induction t using Ty.induct with
  | int w =>
    refine (BuildsMeeting.readNumeral (value?_decimal hw)).bind ?_
    rw [Width.ofInt?_bits]
    exact .pure _
  | ptr => exact .pure _
  | void => exact ht.elim
  | array count element ih =>
    obtain ⟨hcount, helement⟩ := Bool.and_eq_true_iff.1 hw
    exact (BuildsMeeting.readNumeral (value?_decimal hcount)).bind
      ((ih ht helement).bind_pure rfl)
  | named name => exact (BuildsMeeting.meetStruct name).bind (.pure _)
  | literal fields ih =>
    have hfields := areSpelled_iff.1 ht
    have hwritable := areWritable_iff.1 hw
    exact (buildsMeeting_fields fun t ht ↦ ih t ht (hfields t ht) (hwritable t ht)).bind_pure rfl

theorem builds {t : Ty} (ht : t.IsSpelled) (hw : t.isWritable = true) :
    Builds (buildType t.tree) t := (buildsMeeting ht hw).builds

/-- The type of a result is built, also if it is left out. -/
theorem builds_returns {t : Ty} (ht : t = .void ∨ t.IsSpelled) (hw : t.isWritable = true) :
    Builds (buildReturns t.tree?) t := by
  rcases ht with rfl | ht
  · exact .pure _
  · rw [tree?_of_isSpelled ht]
    exact builds ht hw

end Ty

namespace Constant

theorem areWritable_iff {cs : List Constant} :
    areWritable cs = true ↔ ∀ c ∈ cs, c.isWritable = true := by
  induction cs with
  | nil => simp [areWritable]
  | cons c cs ih => simp [areWritable, ih]

theorem builds_elements {elements : List Constant}
    (h : ∀ c ∈ elements, Builds (buildConstant c.tree) c) :
    Builds (buildConstants (trees elements)) elements := by
  induction elements with
  | nil => exact .pure []
  | cons c elements ih =>
    have ih := ih fun c hc ↦ h c (List.mem_cons_of_mem _ hc)
    exact (h c List.mem_cons_self).bind (ih.bind (.pure _))

theorem builds {c : Constant} (hw : c.isWritable = true) : Builds (buildConstant c.tree) c := by
  induction c using Constant.induct with
  | int v => exact (builds_readNumeral (value?_decimal hw)).bind (.pure _)
  | symbol name => exact .pure _
  | zero => exact .pure _
  | struct elements ih | array elements ih =>
    have hwritable := areWritable_iff.1 hw
    exact (builds_elements fun c hc ↦ ih c hc (hwritable c hc)).bind (.pure _)

end Constant

/-! ## Operands -/

theorem value_literalNumeral (v : Int) : (literalNumeral v).value = v := by
  unfold literalNumeral
  split <;> rfl

/-- A literal is written so that it has a value, however large it is. -/
theorem value?_literalNumeral (v : Int) : (literalNumeral v).value? = some v := by
  unfold literalNumeral
  split
  · rename_i hlt
    have hle : ∀ k, 4 ≤ k → 1024 ≤ Nat.pow 10 k := fun k hk ↦
      (show 1024 ≤ 10 ^ 4 by decide).trans (Nat.pow_le_pow_right (by decide) hk)
    exact value?_decimal (decide_eq_true (hlt.trans_le (hle _ (by decide))))
  · exact value?_hexadecimal v

namespace Operand

theorem builds_atoms (os : List Operand) : Builds (readAtoms (os.map atom)) () := by
  unfold readAtoms
  induction os with
  | nil => exact .pure ()
  | cons o os ih =>
    refine Builds.bind (a := ()) ?_ ih
    cases o with
    | var x t | symbol x => exact .pure ()
    | literal v w => exact (builds_readNumeral (value?_literalNumeral v)).bind (.pure ())

/-- An operand is read from its spelling at a type that it suits. -/
theorem operandAt_atom {o : Operand} {t : Ty} (h : o.Suits t) : operandAt t o.atom = .ok o := by
  cases o with
  | var x s =>
    cases h
    rfl
  | symbol x => rfl
  | literal v w =>
    obtain ⟨rfl, hcountable, hv⟩ := h
    rw [atom, operandAt, map_eq_ok]
    refine ⟨(w.wrap v, w), literalAt_eq_ok.2 ⟨rfl, hcountable, ?_⟩, ?_⟩
    · rw [value_literalNumeral]
    · show Operand.literal (w.wrap v : Int) w = .literal v w
      rw [← hv]

end Operand

/-! ## Instructions -/

theorem Call.builds {c : Call} (hs : c.IsSpelled) (ht : ∀ a ∈ c.args, a.Suits a.ty)
    (hw : ∀ t ∈ c.tys, t.isWritable = true) : Builds (buildCall c.tree) c := by
  obtain ⟨hreturns, -, hargs⟩ := hs
  have hreturn := Ty.builds_returns hreturns (hw _ List.mem_cons_self)
  have hbuild : Builds (c.tree.args.mapM buildArg) (c.args.map fun a ↦ (a.ty, a.atom)) := by
    refine .mapM ?_
    rw [tree, List.forall₂_map_left_iff, List.forall₂_map_right_iff, List.forall₂_same]
    intro a ha
    have hty := hw a.ty (List.mem_cons_of_mem _ (List.mem_map_of_mem ha))
    exact (Ty.builds (hargs a ha).ty hty).bind ((Operand.builds_atoms [a]).bind (.pure _))
  have hoperands : (c.args.map fun a ↦ (a.ty, a.atom)).mapM (fun p ↦ operandAt p.1 p.2) =
      .ok c.args := by
    refine mapM_eq_ok ?_
    rw [List.forall₂_map_left_iff, List.forall₂_same]
    exact fun a ha ↦ Operand.operandAt_atom (ht a ha)
  exact hreturn.bind (hbuild.bind ((Builds.lift hoperands).bind (.pure _)))

theorem Value.builds {x : String} {v : Value} (hs : v.IsSpelled) (ht : v.IsTyped)
    (hw : ∀ t ∈ (Action.assign x v).tys, t.isWritable = true) : Builds (buildValue v.tree) v := by
  cases v with
  | binary op t a b | compare op t a b =>
    have hty := Ty.builds hs.1 (hw t List.mem_cons_self)
    have ha := Builds.lift (Operand.operandAt_atom ht.1)
    have hb := Builds.lift (Operand.operandAt_atom ht.2)
    exact hty.bind ((Operand.builds_atoms [a, b]).bind (ha.bind (hb.bind (.pure _))))
  | cast op s a t =>
    have hs' := Ty.builds hs.1 (hw s List.mem_cons_self)
    have ht' := Ty.builds hs.2.2 (hw t (List.mem_cons_of_mem _ List.mem_cons_self))
    have ha := Builds.lift (Operand.operandAt_atom ht)
    exact hs'.bind ((Operand.builds_atoms [a]).bind (ht'.bind (ha.bind (.pure _))))
  | select t c a b =>
    have hty := Ty.builds hs.1 (hw t List.mem_cons_self)
    have hc := Builds.lift (Operand.operandAt_atom ht.1)
    have ha := Builds.lift (Operand.operandAt_atom ht.2.1)
    have hb := Builds.lift (Operand.operandAt_atom ht.2.2)
    exact hty.bind ((Operand.builds_atoms [c, a, b]).bind
      (hc.bind (ha.bind (hb.bind (.pure _)))))
  | phi t entries =>
    have hty := Ty.builds hs.1 (hw t List.mem_cons_self)
    have hatoms : Builds (readAtoms ((entries.map fun e ↦ (e.label, e.value.atom)).map Prod.snd))
        () := by
      have hvalues := Operand.builds_atoms (entries.map PhiEntry.value)
      rwa [List.map_map] at hvalues ⊢
    have hentries : (entries.map fun e ↦ (e.label, e.value.atom)).mapM
        (fun p ↦ (operandAt t p.2).map (PhiEntry.mk p.1)) = .ok entries := by
      refine mapM_eq_ok ?_
      rw [List.forall₂_map_left_iff, List.forall₂_same]
      exact fun e he ↦ map_eq_ok.2 ⟨e.value, Operand.operandAt_atom (ht e he), rfl⟩
    exact hty.bind (hatoms.bind ((Builds.lift hentries).bind (.pure _)))
  | load t p =>
    have hty := Ty.builds hs.1 (hw t List.mem_cons_self)
    have hp := Builds.lift (Operand.operandAt_atom ht)
    exact hty.bind ((Operand.builds_atoms [p]).bind (hp.bind (.pure _)))
  | alloca t => exact (Ty.builds hs (hw t List.mem_cons_self)).bind (.pure _)
  | field t p i =>
    have hty := Ty.builds hs.1 (hw t List.mem_cons_self)
    have hp := Builds.lift (Operand.operandAt_atom ht)
    refine hty.bind ((Operand.builds_atoms [p]).bind
      ((builds_readNumeral (value?_literalNumeral i)).bind ?_))
    rw [if_pos hs.2.1]
    exact hp.bind (.pure _)
  | elem t p i =>
    have hty := Ty.builds hs.1 (hw t List.mem_cons_self)
    have hi := Ty.builds hs.2.2.ty (hw i.ty (List.mem_cons_of_mem _ List.mem_cons_self))
    have hp := Builds.lift (Operand.operandAt_atom ht.1)
    have hindex := Builds.lift (Operand.operandAt_atom ht.2)
    exact hty.bind ((Operand.builds_atoms [p]).bind (hi.bind ((Operand.builds_atoms [i]).bind
      (hp.bind (hindex.bind (.pure _))))))
  | call c => exact (Call.builds hs ht hw).bind (.pure _)

/-- A case of a switch is built if its value is a word already. -/
theorem buildCase_eq_ok {t : Ty} {k : SwitchCase}
    (hk : ∃ w, t = .int w ∧ countable w.bits = .ok () ∧ k.value = w.wrap k.value) :
    buildCase t k.value k.label = .ok k := by
  obtain ⟨w, ht, hcountable, hv⟩ := hk
  rw [buildCase, map_eq_ok]
  refine ⟨(w.wrap k.value, w), literalAt_eq_ok.2 ⟨ht, hcountable, rfl⟩, ?_⟩
  show SwitchCase.mk (w.wrap k.value : Int) k.label = k
  rw [← hv]

theorem Action.builds {a : Action} (hs : a.IsSpelled) (ht : a.IsTyped)
    (hw : ∀ t ∈ a.tys, t.isWritable = true) : Builds (buildStatement a.tree) a := by
  cases a with
  | assign x v =>
    refine (Value.builds hs.2.1 ht hw).bind ?_
    rw [if_neg hs.2.2]
    exact .pure _
  | store t v p =>
    have hty := Ty.builds hs.1 (hw t List.mem_cons_self)
    have hv := Builds.lift (Operand.operandAt_atom ht.1)
    have hp := Builds.lift (Operand.operandAt_atom ht.2)
    exact hty.bind ((Operand.builds_atoms [v, p]).bind (hv.bind (hp.bind (.pure _))))
  | call c => exact (Call.builds hs ht hw).bind (.pure _)
  | finish t =>
    cases t with
    | jmp l => exact .pure _
    | jnz c l r =>
      have hc := Builds.lift (Operand.operandAt_atom ht)
      exact (Operand.builds_atoms [c]).bind (hc.bind (.pure _))
    | switch t c l cases =>
      obtain ⟨hc, hcases⟩ := ht
      have hty := Ty.builds hs.1 (hw t List.mem_cons_self)
      have hcond := Builds.lift (Operand.operandAt_atom hc)
      have hvalues : Builds ((cases.map fun k ↦ (literalNumeral k.value, k.label)).mapM
          fun k ↦ readNumeral k.1) (cases.map SwitchCase.value) := by
        refine .mapM ?_
        rw [List.forall₂_map_left_iff, List.forall₂_map_right_iff, List.forall₂_same]
        exact fun k _ ↦ builds_readNumeral (value?_literalNumeral k.value)
      have hlabels : ((cases.map SwitchCase.value).zip ((cases.map fun k ↦
          (literalNumeral k.value, k.label)).map Prod.snd)).mapM
          (fun k ↦ buildCase t k.1 k.2) = .ok cases := by
        refine mapM_eq_ok ?_
        rw [List.map_map, List.zip_map', List.forall₂_map_left_iff, List.forall₂_same]
        exact fun k hk ↦ buildCase_eq_ok (hcases k hk)
      exact hty.bind ((Operand.builds_atoms [c]).bind (hvalues.bind (hcond.bind
        ((Builds.lift hlabels).bind (.pure _)))))
    | ret t v =>
      have hty := Ty.builds hs.1 (hw t List.mem_cons_self)
      have hv := Builds.lift (Operand.operandAt_atom ht)
      exact hty.bind ((Operand.builds_atoms [v]).bind (hv.bind (.pure _)))
    | retVoid => exact .pure _
    | unreachable => exact .pure _

/-! ## Functions -/

/-- An instruction as it stands on any line. -/
def Instr.withoutLine (i : Instr) : Instr := ⟨i.action, 0⟩

def Block.withoutLines (b : Block) : Block := ⟨b.label, b.instrs.map Instr.withoutLine⟩

/-- A function up to the lines on which its instructions stand. -/
def Function.withoutLines (f : Function) : Function :=
  { f with blocks := f.blocks.map Block.withoutLines }

namespace Source

def BodyPart.withoutLine : BodyPart → BodyPart
  | .label l => .label l
  | .instr i => .instr i.withoutLine

/-- Lines that differ from instructions in their numbers only are instructions. -/
theorem exists_instrs {parts : List BodyPart} {is : List Instr}
    (h : parts.map BodyPart.withoutLine = (is.map BodyPart.instr).map BodyPart.withoutLine) :
    ∃ js : List Instr, parts = js.map .instr ∧ js.map Instr.withoutLine = is.map .withoutLine := by
  induction is generalizing parts with
  | nil => exact ⟨[], List.map_eq_nil_iff.1 h, rfl⟩
  | cons i is ih =>
    obtain ⟨part, rest, rfl, hpart, hrest⟩ := List.map_eq_cons_iff.1 h
    obtain ⟨js, rfl, hjs⟩ := ih hrest
    cases part with
    | label l => cases hpart
    | instr j =>
      refine ⟨j :: js, rfl, ?_⟩
      rw [List.map_cons, List.map_cons, hjs, BodyPart.instr.inj hpart]

/-- Parts that are those of some blocks up to lines are those of blocks. -/
theorem exists_blocks {parts : List BodyPart} {blocks : List Block}
    (h : parts.map BodyPart.withoutLine =
      (blocks.flatMap Block.parts).map BodyPart.withoutLine) :
    ∃ bs : List Block, parts = bs.flatMap Block.parts ∧
      bs.map Block.withoutLines = blocks.map Block.withoutLines := by
  induction blocks generalizing parts with
  | nil => exact ⟨[], List.map_eq_nil_iff.1 h, rfl⟩
  | cons b blocks ih =>
    rw [List.flatMap_cons, List.map_append] at h
    obtain ⟨first, rest, rfl, hfirst, hrest⟩ := List.map_eq_append_iff.1 h
    obtain ⟨part, is, rfl, hpart, his⟩ := List.map_eq_cons_iff.1 hfirst
    obtain ⟨js, rfl, hjs⟩ := exists_instrs his
    obtain ⟨bs, rfl, hbs⟩ := ih hrest
    cases part with
    | label l =>
      refine ⟨⟨l, js⟩ :: bs, rfl, ?_⟩
      rw [List.map_cons, List.map_cons, hbs, Block.withoutLines, Block.withoutLines, hjs,
        BodyPart.label.inj hpart]
    | instr i => cases hpart

theorem collectBlocks_instrs (name : String) (done : List Block) (l : String) (is js : List Instr)
    (parts : List BodyPart) :
    collectBlocks name (done ++ [⟨l, is⟩]) (js.map .instr ++ parts) =
      collectBlocks name (done ++ [⟨l, is ++ js⟩]) parts := by
  induction js generalizing is with
  | nil => simp
  | cons j js ih =>
    rw [List.map_cons, List.cons_append, collectBlocks]
    simp [ih]

/-- A name that occurs once is not among the earlier ones. -/
theorem any_eq_false_of_nodup {α : Type} {name : α → String} {seen xs : List α} {x : α}
    (h : ((seen ++ x :: xs).map name).Nodup) : (seen.any fun y ↦ name y == name x) = false := by
  rw [List.any_eq_false]
  intro y hy heq
  rw [List.map_append, List.nodup_append] at h
  exact h.2.2 _ (List.mem_map_of_mem hy) _ List.mem_cons_self (beq_iff_eq.1 heq)

/-- The parts of blocks with different labels are put together again. -/
theorem collectBlocks_parts {name : String} (done : List Block) {blocks : List Block}
    (h : ((done ++ blocks).map Block.label).Nodup) :
    collectBlocks name done (blocks.flatMap Block.parts) = .ok (done ++ blocks) := by
  induction blocks generalizing done with
  | nil => rw [List.flatMap_nil, collectBlocks, List.append_nil]
  | cons b blocks ih =>
    have hnew : ¬(done.any fun d ↦ d.label == b.label) = true := by
      rw [any_eq_false_of_nodup h]
      exact Bool.false_ne_true
    rw [List.flatMap_cons, Block.parts, List.cons_append, collectBlocks, if_neg hnew,
      collectBlocks_instrs, List.nil_append, ih]
    · rw [List.append_assoc, List.singleton_append]
    · rwa [List.append_assoc, List.singleton_append]

/-- Parameters with names are collected as they are. -/
theorem collectParams_paramParts (params : List Param) (isVararg : Bool) (i : Nat) :
    collectParams i ((params.map fun p ↦ .param p.ty (some p.name)) ++
      if isVararg then [.ellipsis] else []) = .ok (params, isVararg) := by
  induction params generalizing i with
  | nil => cases isVararg <;> rfl
  | cons p params ih =>
    rw [List.map_cons, List.cons_append, collectParams, ih]
    rfl

end Source

namespace Function

/-- What is asked of a function besides its names: operands have the types that are written,
numbers can be written, and labels differ. -/
structure IsBuildable (f : Function) : Prop where
  typed : ∀ i ∈ f.instrs, i.action.IsTyped
  writable : f.isWritable = true
  labels : f.labels.Nodup

/-- The instructions among the lines of a function are its instructions. -/
theorem mem_instrs_of_mem_parts {f : Function} {i : Instr} (h : .instr i ∈ f.parts) :
    i ∈ f.instrs := by
  obtain ⟨b, hb, hib⟩ := List.mem_flatMap.1 h
  rcases List.mem_cons.1 hib with h | h
  · cases h
  · obtain ⟨j, hj, heq⟩ := List.mem_map.1 h
    cases heq
    exact List.mem_flatMap.2 ⟨b, hb, hj⟩

/-- The types in the instructions of a function that can be written can be written. -/
theorem isWritable_of_mem_instrs {f : Function} (h : f.isWritable = true) {i : Instr}
    (hi : i ∈ f.instrs) : ∀ t ∈ i.action.tys, t.isWritable = true := by
  obtain ⟨b, hb, hib⟩ := List.mem_flatMap.1 hi
  simp only [isWritable, Bool.and_eq_true, List.all_eq_true] at h
  have hblock := h.2 b hb
  rw [Block.isWritable, List.all_eq_true] at hblock
  exact List.all_eq_true.1 (hblock i hib)

/-- The parameters of a function are built from their trees. -/
theorem builds_params {f : Function} (hf : f.IsSpelled) (hw : f.isWritable = true) :
    Builds ((f.paramParts.map ParamPart.tree).mapM buildParam) f.paramParts := by
  refine .mapM ?_
  rw [List.forall₂_map_left_iff, List.forall₂_same]
  simp only [isWritable, Bool.and_eq_true, List.all_eq_true] at hw
  intro part hpart
  rcases List.mem_append.1 hpart with hpart | hpart
  · obtain ⟨p, hp, rfl⟩ := List.mem_map.1 hpart
    exact (Ty.builds (hf.params p hp).2 (hw.1.1 p hp)).bind (.pure _)
  · split at hpart
    · rw [List.mem_singleton.1 hpart]
      exact .pure _
    · exact absurd hpart List.not_mem_nil

/-- The trees of parts are built into the parts, on other lines. -/
theorem exists_builds_parts {parts : List BodyPart} {body : List BodyItem}
    (hparts : ∀ part ∈ parts, part.IsSpelled)
    (hinstrs : ∀ i, .instr i ∈ parts → i.action.IsTyped ∧ ∀ t ∈ i.action.tys, t.isWritable = true)
    (hbody : List.Forall₂ BodyPart.Tree parts body) :
    ∃ built, List.Forall₂ (fun item part ↦ Builds (buildBodyItem item) part) body built ∧
      built.map BodyPart.withoutLine = parts.map BodyPart.withoutLine := by
  induction hbody with
  | nil => exact ⟨[], .nil, rfl⟩
  | @cons part item parts body htree _ ih =>
    obtain ⟨built, hbuilt, hsame⟩ :=
      ih (fun part hpart ↦ hparts part (List.mem_cons_of_mem _ hpart))
        fun i hi ↦ hinstrs i (List.mem_cons_of_mem _ hi)
    cases htree with
    | label l =>
      refine ⟨.label l :: built, .cons (.pure _) hbuilt, ?_⟩
      rw [List.map_cons, List.map_cons, hsame]
    | instr i line =>
      obtain ⟨htyped, hwritable⟩ := hinstrs i List.mem_cons_self
      have hspelled := (hparts _ List.mem_cons_self).1
      refine ⟨.instr ⟨i.action, line⟩ :: built, .cons ?_ hbuilt, ?_⟩
      · exact (Action.builds hspelled htyped hwritable).bind (.pure _)
      · rw [List.map_cons, List.map_cons, hsame]
        rfl

/-- The trees of a function are built into the function, on other lines. -/
theorem exists_builds {f : Function} (hf : f.IsSpelled) (hb : f.IsBuildable) {item : Item}
    (hitem : f.Tree item) :
    ∃ parts g, Builds (buildItem item) (.function parts) ∧ collectFunction parts = .ok g ∧
      g.withoutLines = f.withoutLines := by
  have hreturns : f.returns.isWritable = true := by
    have hw := hb.writable
    simp only [isWritable, Bool.and_eq_true] at hw
    exact hw.1.2
  obtain ⟨body, hbody, hbuild⟩ : ∃ body, List.Forall₂ BodyPart.Tree f.parts body ∧
      buildItem item = buildFunction f.head body >>= fun parts ↦ pure (.function parts) := by
    unfold Tree at hitem
    split at hitem <;> rename_i hdeclared
    · have hnil : f.parts = [] := by
        rw [parts, List.isEmpty_iff.1 hdeclared, List.flatMap_nil]
      subst hitem
      exact ⟨[], hnil ▸ .nil, rfl⟩
    · obtain ⟨body, hbody, rfl⟩ := hitem
      exact ⟨body, hbody, rfl⟩
  obtain ⟨built, hbuilt, hsame⟩ := exists_builds_parts hf.parts
    (fun i hi ↦ ⟨hb.typed i (mem_instrs_of_mem_parts hi),
      isWritable_of_mem_instrs hb.writable (mem_instrs_of_mem_parts hi)⟩) hbody
  obtain ⟨blocks, rfl, hblocks⟩ := exists_blocks hsame
  refine ⟨⟨f.name, f.paramParts, f.returns, blocks.flatMap Block.parts⟩,
    ⟨f.name, f.params, f.returns, f.isVararg, blocks⟩, ?_, ?_, ?_⟩
  · rw [hbuild]
    have hbody : Builds (body.mapM buildBodyItem >>= fun parts ↦
        pure (FunctionParts.mk f.name f.paramParts f.returns parts)) _ :=
      (Builds.mapM hbuilt).bind (.pure _)
    exact ((builds_params hf hb.writable).bind
      ((Ty.builds_returns hf.returns hreturns).bind hbody)).bind (.pure _)
  · refine collectFunction_eq_ok.2 ⟨_, _, _, collectParams_paramParts _ _ 0, ?_, rfl⟩
    refine collectBlocks_parts [] ?_
    have hlabels : blocks.map Block.label = f.blocks.map Block.label := by
      have := congrArg (List.map Block.label) hblocks
      simpa [Function.comp_def, Block.withoutLines] using this
    rw [List.nil_append, hlabels]
    exact hb.labels
  · rw [withoutLines, withoutLines, hblocks]

end Function

/-! ## Programs -/

namespace Source

/-- Globals with different names are collected in order. -/
theorem collectGlobals_append {seen : List Global} {globals : List Global} {parts : List Part}
    (h : ((seen ++ globals).map Global.name).Nodup) :
    collectGlobals seen (globals.map .global ++ parts) =
      collectGlobals (seen ++ globals) parts := by
  induction globals generalizing seen with
  | nil => rw [List.map_nil, List.nil_append, List.append_nil]
  | cons g globals ih =>
    have hnew : ¬(seen.any fun h ↦ h.name == g.name) = true := by
      rw [any_eq_false_of_nodup h]
      exact Bool.false_ne_true
    rw [List.map_cons, List.cons_append, collectGlobals, if_neg hnew, ih]
    · rw [List.append_assoc, List.singleton_append]
    · rwa [List.append_assoc, List.singleton_append]

theorem collectGlobals_functions (seen : List Global) (parts : List FunctionParts) :
    collectGlobals seen (parts.map .function) = .ok seen := by
  induction parts with
  | nil => rfl
  | cons part parts ih => exact ih

theorem collectFunctions_globals (seen : List Function) (globals : List Global)
    (parts : List Part) :
    collectFunctions seen (globals.map .global ++ parts) = collectFunctions seen parts := by
  induction globals with
  | nil => rfl
  | cons g globals ih => exact ih

/-- Functions with different names are collected in order. -/
theorem collectFunctions_eq_ok {seen : List Function} {parts : List FunctionParts}
    {functions : List Function}
    (hcollect : List.Forall₂ (fun part f ↦ collectFunction part = .ok f) parts functions)
    (h : ((seen ++ functions).map Function.name).Nodup) :
    collectFunctions seen (parts.map .function) = .ok (seen ++ functions) := by
  induction hcollect generalizing seen with
  | nil => rw [List.map_nil, collectFunctions, List.append_nil]
  | @cons part f parts functions hpart _ ih =>
    have hname : part.name = f.name := by
      obtain ⟨_, _, _, -, -, rfl⟩ := collectFunction_eq_ok.1 hpart
      rfl
    have hnew : ¬(seen.any fun g ↦ g.name == part.name) = true := by
      rw [hname, any_eq_false_of_nodup h]
      exact Bool.false_ne_true
    rw [List.map_cons, collectFunctions, if_neg hnew, hpart]
    show collectFunctions (seen ++ [f]) (parts.map .function) = _
    rw [ih (by rwa [List.append_assoc, List.singleton_append]), List.append_assoc,
      List.singleton_append]

/-- A struct is built once; it is met after the structs in its fields. -/
theorem run_buildItem_struct {name : String} {fields : List Ty} {s : Structs} {met : List String}
    (hfields : BuildsMeeting (buildTypes (Ty.trees fields)) fields (Ty.structNamesOf fields))
    (hs : s.body? name = none) (hmet : s.keys = met.eraseDups) :
    ∃ t, (buildItem (.struct name (Ty.trees fields))).run s = .ok (.struct, t) ∧
      (∀ x, t.body? x = if x = name then some fields else s.body? x) ∧
      t.keys = (met ++ (Ty.structNamesOf fields ++ [name])).eraseDups := by
  obtain ⟨t, hrun, ht, hkeys⟩ := hfields s met hmet
  have hnone : (t.get? name).join = none := (ht name).trans hs
  refine ⟨t.insert name (some fields), ?_, fun x ↦ ?_, ?_⟩
  · rw [buildItem, run_bind_of_ok hrun]
    rw [run_bind_of_ok (show (get : Build Structs).run t = .ok (t, t) from rfl)]
    cases hget : t.get? name with
    | none => rfl
    | some body =>
      rw [hget, Option.join_some] at hnone
      rw [hnone]
      rfl
  · split
    · rename_i hx
      subst hx
      rw [Structs.body?, OrderedMap.get?_insert_self]
      rfl
    · rename_i hx
      rw [Structs.body?, OrderedMap.get?_insert_of_ne _ _ hx]
      exact ht x
  · rw [← List.append_assoc]
    exact OrderedMap.keys_insert_of_eraseDups hkeys name _

theorem find?_cons_name (d : StructDecl) (structs : List StructDecl) (name : String) :
    ((d :: structs).find? fun e ↦ e.name == name) =
      if name = d.name then some d else structs.find? fun e ↦ e.name == name := by
  rw [List.find?_cons]
  by_cases hname : name = d.name
  · rw [if_pos hname, hname, beq_self_eq_true]
  · rw [if_neg hname, beq_eq_false_iff_ne.2 (Ne.symm hname)]

end Source

/-- The structs that a definition names: those of its fields, then its own. -/
def StructDecl.namesMet (d : StructDecl) : List String :=
  match d.fields with
  | some fields => Ty.structNamesOf fields ++ [d.name]
  | none => []

namespace Source

/-- Struct items define the structs they name. -/
theorem exists_run_structs {structs : List StructDecl} (hspelled : ∀ d ∈ structs, d.IsSpelled)
    (hwritable : ∀ d ∈ structs, d.isWritable = true) (hnames : (structs.map StructDecl.name).Nodup)
    {s : Structs} (hs : ∀ d ∈ structs, s.body? d.name = none) {met : List String}
    (hmet : s.keys = met.eraseDups) :
    ∃ k t, ((Program.structItems structs).mapM buildItem).run s =
        .ok (List.replicate k .struct, t) ∧
      (∀ name, t.body? name =
        ((structs.find? fun d ↦ d.name == name).bind StructDecl.fields).or (s.body? name)) ∧
      t.keys = (met ++ structs.flatMap StructDecl.namesMet).eraseDups := by
  induction structs generalizing s met with
  | nil =>
    refine ⟨0, s, rfl, fun _ ↦ rfl, ?_⟩
    rwa [List.flatMap_nil, List.append_nil]
  | cons d structs ih =>
    obtain ⟨hd, hrest⟩ := List.nodup_cons.1 hnames
    have ih {s : Structs} {met : List String} (hs : ∀ d ∈ structs, s.body? d.name = none)
        (hmet : s.keys = met.eraseDups) := ih (fun d hd ↦ hspelled d (List.mem_cons_of_mem _ hd))
      (fun d hd ↦ hwritable d (List.mem_cons_of_mem _ hd)) hrest hs hmet
    have hnone : (structs.find? fun e ↦ e.name == d.name) = none := by
      rw [List.find?_eq_none]
      intro e he heq
      exact hd (beq_iff_eq.1 heq ▸ List.mem_map_of_mem he)
    cases hfields : d.fields with
    | none =>
      obtain ⟨k, t, hrun, ht, hkeys⟩ := ih (fun d hd ↦ hs d (List.mem_cons_of_mem _ hd)) hmet
      refine ⟨k, t, ?_, fun name ↦ ?_, ?_⟩
      · rwa [Program.structItems, List.filterMap_cons_none (by rw [hfields]; rfl)]
      · rw [ht, find?_cons_name]
        split
        · rename_i hname
          rw [hname, hnone, Option.bind_some, hfields]
          rfl
        · rfl
      · rwa [List.flatMap_cons, StructDecl.namesMet, hfields]
    | some fields =>
      have hty : ∀ u ∈ fields, u.isWritable = true := by
        have hw := hwritable d List.mem_cons_self
        rw [StructDecl.isWritable, hfields, List.all_eq_true] at hw
        exact hw
      have hsp := Ty.areSpelled_iff.1 ((hspelled d List.mem_cons_self).2 fields hfields)
      have hbuild := Ty.buildsMeeting_fields fun u hu ↦ Ty.buildsMeeting (hsp u hu) (hty u hu)
      obtain ⟨u, hrun, hu, hkeys⟩ := run_buildItem_struct hbuild (hs d List.mem_cons_self) hmet
      have hfresh : ∀ e ∈ structs, u.body? e.name = none := by
        intro e he
        have hne : e.name ≠ d.name := fun heq ↦ hd (heq ▸ List.mem_map_of_mem he)
        rw [hu, if_neg hne]
        exact hs e (List.mem_cons_of_mem _ he)
      obtain ⟨k, t, hrun', ht, hkeys'⟩ := ih hfresh hkeys
      refine ⟨k + 1, t, ?_, fun name ↦ ?_, ?_⟩
      · rw [Program.structItems, List.filterMap_cons_some (by rw [hfields]; rfl), List.mapM_cons,
          run_bind_of_ok hrun]
        exact run_bind_of_ok hrun'
      · rw [ht, find?_cons_name, hu]
        split
        · rename_i hname
          rw [hname, hnone, Option.bind_some, hfields]
          rfl
        · rfl
      · rw [hkeys', List.flatMap_cons, List.append_assoc, StructDecl.namesMet, hfields]

end Source

namespace Program

/-- What is asked of a program besides its names: numbers can be written, operands have the types
that are written, and no name is given twice. -/
structure IsBuildable (p : Program) : Prop where
  writable : p.isWritable = true
  structs : (p.structs.map StructDecl.name).Nodup
  globals : (p.globals.map Global.name).Nodup
  functions : (p.functions.map Function.name).Nodup
  bodies : ∀ f ∈ p.functions, f.IsBuildable

end Program

namespace Source

/-- Structs are passed over when globals and functions are collected. -/
theorem collect_structs (k : Nat) (parts : List Part) (globals : List Global)
    (functions : List Function) :
    collectGlobals globals (List.replicate k .struct ++ parts) = collectGlobals globals parts ∧
      collectFunctions functions (List.replicate k .struct ++ parts) =
        collectFunctions functions parts := by
  induction k with
  | zero => exact ⟨rfl, rfl⟩
  | succ k ih => exact ih

/-- The fields of a struct in the program are those that were met last. -/
theorem fields?_entries (s : Structs) (globals : List Global) (functions : List Function)
    (name : String) :
    (Program.mk (s.entries.map fun (name, fields) ↦ ⟨name, fields⟩) globals functions).fields?
      (.named name) = s.body? name := by
  simp only [Program.fields?, Structs.body?, OrderedMap.get?, List.find?_map, Function.comp_def,
    beq_eq_decide]
  cases s.entries.find? fun e ↦ decide (e.1 = name) with
  | none => rfl
  | some e => rfl

end Source

namespace Program

/-- The globals of a program are built from their trees. -/
theorem builds_globals {p : Program} (hp : p.IsSpelled) (hw : p.isWritable = true) :
    Builds ((globalItems p.globals).mapM buildItem) (p.globals.map .global) := by
  refine .mapM ?_
  rw [globalItems, List.forall₂_map_left_iff, List.forall₂_map_right_iff, List.forall₂_same]
  simp only [isWritable, Bool.and_eq_true, List.all_eq_true] at hw
  intro g hg
  have hglobal := hw.1.2 g hg
  rw [Global.isWritable, Bool.and_eq_true] at hglobal
  have hty := Ty.builds (hp.globals g hg).2.1 hglobal.1
  obtain ⟨name, ty, init⟩ := g
  cases init with
  | none => exact hty.bind (.pure _)
  | some c =>
    have hinit : Builds (Option.mapM buildConstant (some c.tree)) (some c) := by
      rw [Option.mapM_some, map_eq_pure_bind]
      exact (Constant.builds hglobal.2).bind (.pure _)
    exact hty.bind (hinit.bind (.pure _))

/-- The functions of a program are built from their trees, up to the numbers of lines. -/
theorem exists_builds_functions {functions : List Function} {items : List Item}
    (hspelled : ∀ f ∈ functions, f.IsSpelled) (hbuildable : ∀ f ∈ functions, f.IsBuildable)
    (hitems : List.Forall₂ Function.Tree functions items) :
    ∃ (parts : List FunctionParts) (built : List Function),
      Builds (items.mapM buildItem) (parts.map .function) ∧
      List.Forall₂ (fun part f ↦ collectFunction part = .ok f) parts built ∧
      built.map Function.withoutLines = functions.map Function.withoutLines := by
  suffices ∃ (parts : List FunctionParts) (built : List Function),
      List.Forall₂ (fun item part ↦ Builds (buildItem item) (.function part)) items parts ∧
      List.Forall₂ (fun part f ↦ collectFunction part = .ok f) parts built ∧
      built.map Function.withoutLines = functions.map Function.withoutLines by
    obtain ⟨parts, built, hbuilds, h⟩ := this
    exact ⟨parts, built, .mapM (List.forall₂_map_right_iff.2 hbuilds), h⟩
  induction hitems with
  | nil => exact ⟨[], [], .nil, .nil, rfl⟩
  | @cons f item functions items hitem _ ih =>
    obtain ⟨parts, built, hbuilds, hcollect, hsame⟩ :=
      ih (fun f hf ↦ hspelled f (List.mem_cons_of_mem _ hf))
        (fun f hf ↦ hbuildable f (List.mem_cons_of_mem _ hf))
    obtain ⟨part, g, hpart, hg, hgf⟩ := Function.exists_builds (hspelled f List.mem_cons_self)
      (hbuildable f List.mem_cons_self) hitem
    refine ⟨part :: parts, g :: built, .cons hpart hbuilds, .cons hg hcollect, ?_⟩
    rw [List.map_cons, List.map_cons, hgf, hsame]

/-- The trees of a program are built into the program, on other lines. -/
theorem exists_buildProgram {p : Program} (hp : p.IsSpelled) (hb : p.IsBuildable)
    {items : List Item} (hitems : List.Forall₂ Function.Tree p.functions items) :
    ∃ q, buildProgram (structItems p.structs ++ globalItems p.globals ++ items) = .ok q ∧
      q.globals = p.globals ∧
      q.functions.map Function.withoutLines = p.functions.map Function.withoutLines ∧
      (∀ name, q.fields? (.named name) = p.fields? (.named name)) ∧
      ∃ names, q.structs.map StructDecl.name =
        (p.structs.flatMap StructDecl.namesMet ++ names).eraseDups := by
  have hw := hb.writable
  simp only [isWritable, Bool.and_eq_true, List.all_eq_true] at hw
  have hempty : (∅ : Structs).keys = ([] : List String).eraseDups := rfl
  obtain ⟨k, s, hstructs, hbodies, hmet⟩ := exists_run_structs hp.structs hw.1.1 hb.structs
    (fun _ _ ↦ rfl) hempty
  obtain ⟨names, hglobals⟩ := builds_globals hp hb.writable
  obtain ⟨t, hglobals, ht, hmet⟩ := hglobals s _ hmet
  obtain ⟨parts, built, ⟨names', hfunctions⟩, hcollect, hsame⟩ :=
    exists_builds_functions hp.functions hb.bodies hitems
  obtain ⟨u, hfunctions, hu, hmet⟩ := hfunctions t _ hmet
  have hnames : built.map Function.name = p.functions.map Function.name := by
    have := congrArg (List.map Function.name) hsame
    simpa [Function.comp_def, Function.withoutLines] using this
  have hrun : ((structItems p.structs ++ globalItems p.globals ++ items).mapM buildItem).run ∅ =
      .ok (List.replicate k .struct ++ (p.globals.map .global ++ parts.map .function), u) := by
    rw [List.append_assoc, List.mapM_append, run_bind_of_ok hstructs, List.mapM_append, bind_assoc,
      run_bind_of_ok hglobals, bind_assoc, run_bind_of_ok hfunctions]
    rfl
  refine ⟨_, buildProgram_eq_ok.2 ⟨_, u, p.globals, built, hrun, ?_, ?_, rfl⟩, rfl, hsame,
    fun name ↦ ?_, names ++ names', ?_⟩
  · rw [(collect_structs k _ [] []).1,
      collectGlobals_append (by rw [List.nil_append]; exact hb.globals), List.nil_append,
      collectGlobals_functions]
  · rw [(collect_structs k _ [] []).2, collectFunctions_globals,
      collectFunctions_eq_ok hcollect (by rw [List.nil_append, hnames]; exact hb.functions),
      List.nil_append]
  · rw [fields?_entries, hu, ht, hbodies]
    exact Option.or_none
  · rw [List.map_map]
    rw [List.nil_append, List.append_assoc] at hmet
    exact hmet

end Program

end RangeFlow
