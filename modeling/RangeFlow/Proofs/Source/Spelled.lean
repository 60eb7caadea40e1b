import RangeFlow.Proofs.Ordered.Map
import RangeFlow.Proofs.Source.Given
import RangeFlow.Proofs.Source.Rebuilt

/-!
# What is built from trees that were read

Building keeps names as they are read, gives the rest of an operand a type that was read as well,
and enters into the table of structs only names that were read (`Makes`).  So the names in a program
can be read again, no label is a keyword of the place where it stands, and no name is given twice.
-/

namespace RangeFlow.Source

/-! ## Rules -/

def Structs.AreSpelled (s : Structs) : Prop :=
  ∀ name fields, s.get? name = some fields →
    isIdentifier name = true ∧ ∀ ts ∈ fields, Ty.AreSpelled ts

/-- A struct whose name and fields can be written may be added. -/
theorem Structs.AreSpelled.insert {s : Structs} (hs : s.AreSpelled) {name : String}
    {fields : Option (List Ty)} (hname : isIdentifier name = true)
    (hfields : ∀ ts ∈ fields, Ty.AreSpelled ts) : Structs.AreSpelled (s.insert name fields) := by
  intro x fs hget
  rw [OrderedMap.get?_insert] at hget
  split at hget
  · rename_i hx
    subst hx
    cases hget
    exact ⟨hname, hfields⟩
  · exact hs x fs hget

/-- Whatever a part is built into satisfies `Q`, and the names in the table of structs can still be
read. -/
def Makes {α : Type} (m : Build α) (Q : α → Prop) : Prop :=
  ∀ s a t, Structs.AreSpelled s → m.run s = .ok (a, t) → Q a ∧ Structs.AreSpelled t

namespace Makes

variable {α β : Type} {m : Build α} {k : α → Build β} {P : α → Prop} {Q : β → Prop}

theorem pure {b : β} (hb : Q b) : Makes (Pure.pure b) Q := by
  rintro s _ _ hs ⟨⟩
  exact ⟨hb, hs⟩

theorem bind (hm : Makes m P) (hk : ∀ a, P a → Makes (k a) Q) : Makes (m >>= k) Q := by
  intro s b u hs hrun
  rw [StateT.run_bind, bind_eq_ok] at hrun
  obtain ⟨⟨a, t⟩, hrun, hrun'⟩ := hrun
  obtain ⟨ha, ht⟩ := hm s a t hs hrun
  exact hk a ha t b u ht hrun'

/-- A part of which only its effect counts. -/
theorem seq (hm : Makes m fun _ ↦ True) (hk : ∀ a, Makes (k a) Q) : Makes (m >>= k) Q :=
  hm.bind fun a _ ↦ hk a

theorem lift {x : Except SourceError α} (h : ∀ a, x = .ok a → P a) : Makes (liftM x) P := by
  intro s a t hs hrun
  cases x with
  | error e => cases hrun
  | ok b =>
    cases hrun
    exact ⟨h _ rfl, hs⟩

theorem throw {e : SourceError} : Makes (MonadExcept.throw e) Q := by
  rintro s b t - hrun
  cases hrun

/-- A list is made of what its elements are made into. -/
theorem mapM {f : α → Build β} {xs : List α} {R : α → β → Prop}
    (h : ∀ x ∈ xs, Makes (f x) (R x)) : Makes (xs.mapM f) (List.Forall₂ R xs) := by
  induction xs with
  | nil =>
    rw [List.mapM_nil]
    exact .pure .nil
  | cons x xs ih =>
    have ih := ih fun x hx ↦ h x (List.mem_cons_of_mem _ hx)
    rw [List.mapM_cons]
    exact (h x List.mem_cons_self).bind fun y hy ↦ ih.bind fun ys hys ↦ .pure (.cons hy hys)

theorem mapM_all {f : α → Build β} {xs : List α} (h : ∀ x ∈ xs, Makes (f x) Q) :
    Makes (xs.mapM f) fun ys ↦ ∀ y ∈ ys, Q y := by
  intro s ys t hs hrun
  obtain ⟨hys, ht⟩ := mapM h s ys t hs hrun
  refine ⟨fun y hy ↦ ?_, ht⟩
  obtain ⟨x, -, hxy⟩ := exists_of_forall₂ hys hy
  exact hxy

theorem readNumeral (n : Numeral) : Makes (Source.readNumeral n) fun _ ↦ True := by
  unfold Source.readNumeral
  split
  · exact .pure ⟨⟩
  · exact .throw

theorem readAtoms (atoms : List Atom) : Makes (Source.readAtoms atoms) fun _ ↦ True := by
  unfold Source.readAtoms
  induction atoms with
  | nil => exact .pure ⟨⟩
  | cons a atoms ih =>
    refine seq ?_ fun _ ↦ ih
    cases a with
    | const n => exact (readNumeral n).seq fun _ ↦ .pure ⟨⟩
    | var | symbol => exact .pure ⟨⟩

theorem meetStruct {name : String} (h : isIdentifier name = true) :
    Makes (Source.meetStruct name) fun _ ↦ True := by
  rintro s _ _ hs ⟨⟩
  refine ⟨⟨⟩, ?_⟩
  dsimp only
  split
  · exact hs
  · refine hs.insert h fun _ hts ↦ ?_
    cases hts

end Makes

/-! ## Types and constants -/

mutual

theorem TypeTree.makes : (t : TypeTree) → t.IsSpelled → Makes (buildType t) Ty.IsSpelled
  | .int bits, _ => (Makes.readNumeral bits).seq fun v ↦ by
    split
    · exact .pure ⟨⟩
    · exact .throw
  | .ptr, _ => .pure ⟨⟩
  | .named name, ht => (Makes.meetStruct ht).seq fun _ ↦ .pure ht
  | .literal fields, ht => (TypeTree.makes_all fields ht).bind fun _ hts ↦ .pure hts
  | .array count element, ht =>
    (Makes.readNumeral count).seq fun _ ↦ (TypeTree.makes element ht).bind fun _ hu ↦ .pure hu

theorem TypeTree.makes_all :
    (ts : List TypeTree) → TypeTree.AreSpelled ts → Makes (buildTypes ts) Ty.AreSpelled
  | [], _ => .pure ⟨⟩
  | t :: ts, h => (TypeTree.makes t h.1).bind fun _ ht ↦ (TypeTree.makes_all ts h.2).bind
    fun _ hts ↦ .pure ⟨ht, hts⟩

end

/-- The type of a result that is made can be written. -/
theorem TypeTree.makes_returns {t : Option TypeTree} (h : ∀ tree ∈ t, tree.IsSpelled) :
    Makes (buildReturns t) fun ty ↦ ty = .void ∨ ty.IsSpelled := by
  cases t with
  | none => exact .pure (.inl rfl)
  | some tree =>
    intro s ty u hs hrun
    obtain ⟨hty, hu⟩ := tree.makes (h tree rfl) s ty u hs hrun
    exact ⟨.inr hty, hu⟩

mutual

theorem ConstantTree.makes :
    (c : ConstantTree) → c.IsSpelled → Makes (buildConstant c) Constant.IsSpelled
  | .int v, _ => (Makes.readNumeral v).seq fun _ ↦ .pure ⟨⟩
  | .symbol _, hc => .pure hc
  | .zero, _ => .pure ⟨⟩
  | .struct elements, hc => (ConstantTree.makes_all elements hc).bind fun _ hcs ↦ .pure hcs
  | .array elements, hc => (ConstantTree.makes_all elements hc).bind fun _ hcs ↦ .pure hcs

theorem ConstantTree.makes_all : (cs : List ConstantTree) → ConstantTree.AreSpelled cs →
    Makes (buildConstants cs) Constant.AreSpelled
  | [], _ => .pure ⟨⟩
  | c :: cs, h => (ConstantTree.makes c h.1).bind fun _ hc ↦ (ConstantTree.makes_all cs h.2).bind
    fun _ hcs ↦ .pure ⟨hc, hcs⟩

end

/-! ## Instructions -/

/-- An operand can be written if its spelling and its type can. -/
theorem Atom.isSpelled_of_operandAt {t : Ty} (ht : t.IsSpelled) {a : Atom} (ha : a.IsSpelled)
    {o : Operand} (h : operandAt t a = .ok o) : o.IsSpelled := by
  cases a with
  | var name =>
    cases h
    exact ⟨ha, ht⟩
  | symbol name =>
    cases h
    exact ha
  | const n =>
    obtain ⟨⟨v, w⟩, -, rfl⟩ := map_eq_ok.1 h
    exact Int.natCast_nonneg v

theorem Atom.makes {t : Ty} (ht : t.IsSpelled) {a : Atom} (ha : a.IsSpelled) :
    Makes (liftM (operandAt t a)) Operand.IsSpelled :=
  .lift fun _ ↦ Atom.isSpelled_of_operandAt ht ha

theorem CallTree.makes {c : CallTree} (hc : c.IsSpelled) : Makes (buildCall c) Call.IsSpelled := by
  obtain ⟨hreturns, hcallee, hargs⟩ := hc
  refine (TypeTree.makes_returns hreturns).bind fun returns hreturns ↦ ?_
  have harg : ∀ arg ∈ c.args, Makes (buildArg arg) fun arg ↦ arg.1.IsSpelled ∧ arg.2.IsSpelled :=
    fun arg harg ↦ ((TypeTree.makes _ (hargs arg harg).1)).bind fun t ht ↦
      (Makes.readAtoms _).seq fun _ ↦ .pure ⟨ht, (hargs arg harg).2⟩
  refine (Makes.mapM_all harg).bind fun args hargs ↦ ?_
  refine (Makes.lift (P := fun os : List Operand ↦ ∀ o ∈ os, o.IsSpelled) ?_).bind
    fun os hos ↦ .pure ⟨hreturns, hcallee, hos⟩
  intro os hos o ho
  obtain ⟨arg, harg, hat⟩ := exists_of_forall₂ (forall₂_of_mapM_eq_ok hos) ho
  exact Atom.isSpelled_of_operandAt (hargs arg harg).1 (hargs arg harg).2 hat

/-- A value is expected to go on as its tree is. -/
theorem ValueTree.makes {v : ValueTree} (hv : v.IsSpelled) :
    Makes (buildValue v) fun value ↦ value.IsSpelled ∧ value.after = v.after := by
  cases v with
  | binary op t a b | compare op t a b =>
    obtain ⟨ht, ha, hb⟩ := hv
    exact (t.makes ht).bind fun ty hty ↦ (Makes.readAtoms _).seq fun _ ↦
      (Atom.makes hty ha).bind fun x hx ↦ (Atom.makes hty hb).bind fun y hy ↦
        .pure ⟨⟨hty, hx, hy⟩, rfl⟩
  | cast op s a t =>
    obtain ⟨hs, ha, ht⟩ := hv
    exact (s.makes hs).bind fun source hsource ↦ (Makes.readAtoms _).seq fun _ ↦
      (t.makes ht).bind fun target htarget ↦ (Atom.makes hsource ha).bind fun x hx ↦
        .pure ⟨⟨hsource, hx, htarget⟩, rfl⟩
  | select t c a b =>
    obtain ⟨ht, hc, ha, hb⟩ := hv
    exact (t.makes ht).bind fun ty hty ↦ (Makes.readAtoms _).seq fun _ ↦
      (Atom.makes (t := .i1) ⟨⟩ hc).bind fun z hz ↦ (Atom.makes hty ha).bind fun x hx ↦
        (Atom.makes hty hb).bind fun y hy ↦ .pure ⟨⟨hty, hz, hx, hy⟩, rfl⟩
  | phi t entries =>
    obtain ⟨ht, hne, hentries⟩ := hv
    refine (t.makes ht).bind fun ty hty ↦ (Makes.readAtoms _).seq fun _ ↦ ?_
    refine (Makes.lift (P := fun es : List PhiEntry ↦ es ≠ [] ∧
      ∀ e ∈ es, isSymbolName e.label = true ∧ e.value.IsSpelled) ?_).bind
      fun es hes ↦ .pure ⟨⟨hty, hes⟩, rfl⟩
    intro es hes
    have hall := forall₂_of_mapM_eq_ok hes
    refine ⟨?_, fun e he ↦ ?_⟩
    · rintro rfl
      exact hne (List.length_eq_zero_iff.1 hall.length_eq)
    · obtain ⟨entry, hentry, hat⟩ := exists_of_forall₂ hall he
      obtain ⟨o, ho, rfl⟩ := map_eq_ok.1 hat
      have hspelled := hentries entry hentry
      exact ⟨hspelled.1, Atom.isSpelled_of_operandAt hty hspelled.2 ho⟩
  | load t p =>
    obtain ⟨ht, hp⟩ := hv
    exact (t.makes ht).bind fun ty hty ↦ (Makes.readAtoms _).seq fun _ ↦
      (Atom.makes (t := .ptr) ⟨⟩ hp).bind fun x hx ↦ .pure ⟨⟨hty, hx⟩, rfl⟩
  | alloca t => exact (t.makes hv).bind fun ty hty ↦ .pure ⟨hty, rfl⟩
  | field t p i =>
    obtain ⟨ht, hp⟩ := hv
    refine (t.makes ht).bind fun ty hty ↦ (Makes.readAtoms _).seq fun _ ↦
      (Makes.readNumeral i).seq fun _ ↦ ?_
    split
    · rename_i hstruct
      exact (Atom.makes (t := .ptr) ⟨⟩ hp).bind fun x hx ↦ .pure ⟨⟨hty, hstruct, hx⟩, rfl⟩
    · exact .throw
  | elem t p it i =>
    obtain ⟨ht, hp, hit, hi⟩ := hv
    exact (t.makes ht).bind fun ty hty ↦ (Makes.readAtoms _).seq fun _ ↦
      (it.makes hit).bind fun ity hity ↦ (Makes.readAtoms _).seq fun _ ↦
        (Atom.makes (t := .ptr) ⟨⟩ hp).bind fun x hx ↦ (Atom.makes hity hi).bind fun y hy ↦
          .pure ⟨⟨hty, hx, hy⟩, rfl⟩
  | call c => exact (CallTree.makes hv).bind fun c hc ↦ .pure ⟨hc, rfl⟩

/-- An action that is made can be written, and the same may follow as after the statement. -/
theorem StatementTree.makes {s : StatementTree} (hs : s.IsSpelled) :
    Makes (buildStatement s) fun a ↦ a.IsSpelled ∧ a.after = s.after := by
  cases s with
  | assign x v =>
    refine (ValueTree.makes hs.2).bind fun value hvalue ↦ ?_
    split
    · exact .throw
    · rename_i hvoid
      exact .pure ⟨⟨hs.1, hvalue.1, hvoid⟩, hvalue.2⟩
  | store t v p =>
    obtain ⟨ht, hv, hp⟩ := hs
    exact (t.makes ht).bind fun ty hty ↦ (Makes.readAtoms _).seq fun _ ↦
      (Atom.makes hty hv).bind fun x hx ↦ (Atom.makes (t := .ptr) ⟨⟩ hp).bind fun y hy ↦
        .pure ⟨⟨hty, hx, hy⟩, rfl⟩
  | call c => exact (CallTree.makes hs).bind fun c hc ↦ .pure ⟨hc, rfl⟩
  | jmp l => exact .pure ⟨hs, rfl⟩
  | jnz c l r =>
    obtain ⟨hc, hl, hr⟩ := hs
    exact (Makes.readAtoms _).seq fun _ ↦ (Atom.makes (t := .i1) ⟨⟩ hc).bind fun x hx ↦
      .pure ⟨⟨hx, hl, hr⟩, rfl⟩
  | switch t c l cases =>
    obtain ⟨ht, hc, hl, hcases⟩ := hs
    refine (t.makes ht).bind fun ty hty ↦ (Makes.readAtoms _).seq fun _ ↦ ?_
    have hvalues : Makes (cases.mapM fun k ↦ readNumeral k.1) fun _ ↦ True :=
      fun s vs u hs hrun ↦ ⟨⟨⟩, (Makes.mapM_all (fun k _ ↦ .readNumeral k.1) s vs u hs hrun).2⟩
    refine hvalues.seq fun values ↦ (Atom.makes hty hc).bind fun x hx ↦ ?_
    refine (Makes.lift (P := fun ks : List SwitchCase ↦
      ∀ k ∈ ks, 0 ≤ k.value ∧ isSymbolName k.label = true) ?_).bind
      fun ks hks ↦ .pure ⟨⟨hty, hx, hl, hks⟩, rfl⟩
    intro ks hks k hk
    obtain ⟨⟨v, label⟩, hmem, hat⟩ := exists_of_forall₂ (forall₂_of_mapM_eq_ok hks) hk
    obtain ⟨⟨n, w⟩, -, rfl⟩ := map_eq_ok.1 hat
    obtain ⟨tree, htree, rfl⟩ := List.mem_map.1 (List.of_mem_zip hmem).2
    exact ⟨Int.natCast_nonneg n, hcases tree htree⟩
  | ret t v =>
    obtain ⟨ht, hv⟩ := hs
    exact (t.makes ht).bind fun ty hty ↦ (Makes.readAtoms _).seq fun _ ↦
      (Atom.makes hty hv).bind fun x hx ↦ .pure ⟨⟨hty, hx⟩, rfl⟩
  | retVoid | unreachable => exact .pure ⟨⟨⟩, rfl⟩

/-! ## Functions -/

def BodyPart.IsNamed : BodyPart → Prop
  | .label l => isIdentifier l = true
  | .instr i => i.action.IsSpelled

/-- The lines of a body that are made can be written, and labels fit between them. -/
theorem BodyItem.makes_all {e : Expect} {items : List BodyItem} (h : AreSpelled e items) :
    Makes (items.mapM buildBodyItem) fun parts ↦
      LabelsFit e parts ∧ ∀ part ∈ parts, part.IsNamed := by
  induction items generalizing e with
  | nil =>
    rw [List.mapM_nil]
    exact .pure ⟨⟨⟩, List.forall_mem_nil _⟩
  | cons item items ih =>
    rw [List.mapM_cons]
    cases item with
    | label l =>
      exact (Makes.pure (Q := (· = BodyPart.label l)) rfl).bind fun part hpart ↦
        (ih h.2).bind fun parts hparts ↦ .pure (hpart ▸ ⟨⟨h.1.2, hparts.1⟩,
          List.forall_mem_cons.2 ⟨h.1.1, hparts.2⟩⟩)
    | statement line s =>
      have hstatement : Makes (buildBodyItem (.statement line s)) fun part ↦
          ∃ a : Action, part = .instr ⟨a, line⟩ ∧ a.IsSpelled ∧ a.after = s.after :=
        (StatementTree.makes h.1).bind fun a ha ↦ .pure ⟨a, rfl, ha⟩
      refine hstatement.bind fun part hpart ↦ (ih h.2).bind fun parts hparts ↦ .pure ?_
      obtain ⟨a, rfl, ha, hafter⟩ := hpart
      refine ⟨?_, List.forall_mem_cons.2 ⟨ha, hparts.2⟩⟩
      show LabelsFit a.after parts
      rw [hafter]
      exact hparts.1

/-- The names in a parameter can be read; it may have none of its own. -/
def ParamPart.IsNamed : ParamPart → Prop
  | .param t name => t.IsSpelled ∧ ∀ x ∈ name, isVarName x = true
  | .ellipsis => True

theorem ParamTree.makes {p : ParamTree} (hp : p.IsSpelled) :
    Makes (buildParam p) ParamPart.IsNamed := by
  cases p with
  | param t name => exact (t.makes hp.1).bind fun ty hty ↦ .pure ⟨hty, hp.2⟩
  | ellipsis => exact .pure ⟨⟩

/-- The names in a function can be read, and none of its labels is a keyword where it stands. -/
structure FunctionParts.IsSpelled (f : FunctionParts) : Prop where
  name : isSymbolName f.name = true
  params : ∀ p ∈ f.params, p.IsNamed
  returns : f.returns = .void ∨ f.returns.IsSpelled
  labels : LabelsFit .body f.body
  body : ∀ part ∈ f.body, part.IsNamed

/-- The parts of a function that are made can be written. -/
theorem HeadTree.makes {head : HeadTree} (hhead : head.IsSpelled) {body : List BodyItem}
    (hbody : BodyItem.AreSpelled .body body) :
    Makes (buildFunction head body) FunctionParts.IsSpelled :=
  (Makes.mapM_all fun p hp ↦ ParamTree.makes (hhead.params p hp)).bind fun _ hparams ↦
    (TypeTree.makes_returns hhead.returns).bind fun _ hreturns ↦
      (BodyItem.makes_all hbody).bind fun _ hparts ↦
        .pure ⟨hhead.name, hparams, hreturns, hparts.1, hparts.2⟩

def Part.IsSpelled : Part → Prop
  | .struct => True
  | .global g => g.IsSpelled
  | .function f => f.IsSpelled

theorem Item.makes {item : Item} (h : item.IsSpelled) : Makes (buildItem item) Part.IsSpelled := by
  cases item with
  | struct name fields =>
    refine (TypeTree.makes_all fields h.2).bind fun ts hts ↦ ?_
    intro s part t hs hrun
    rw [StateT.run_bind, bind_eq_ok] at hrun
    obtain ⟨⟨_, _⟩, hget, hrun⟩ := hrun
    cases hget
    split at hrun
    · cases hrun
    · cases hrun
      refine ⟨⟨⟩, hs.insert h.1 ?_⟩
      rintro _ ⟨⟩
      exact hts
  | global name t init =>
    obtain ⟨hname, ht, hinit⟩ := h
    refine (t.makes ht).bind fun ty hty ↦ ?_
    cases init with
    | none =>
      refine (Makes.pure (Q := (· = none)) rfl).bind fun c hc ↦ .pure ⟨hname, hty, ?_⟩
      rintro _ hmem
      rw [hc] at hmem
      cases hmem
    | some tree =>
      have hbuild : Makes (Option.mapM buildConstant (some tree)) fun c ↦
          ∀ k ∈ c, k.IsSpelled := by
        rw [Option.mapM_some, map_eq_pure_bind]
        refine (tree.makes (hinit tree rfl)).bind fun c hc ↦ .pure ?_
        rintro _ ⟨⟩
        exact hc
      exact hbuild.bind fun c hc ↦ .pure ⟨hname, hty, hc⟩
  | declare head => exact (@HeadTree.makes head h [] ⟨⟩).bind fun f hf ↦ .pure hf
  | function head body => exact (HeadTree.makes h.1 h.2).bind fun f hf ↦ .pure hf

/-! ## Names that are given once -/

/-- The number that is given to a parameter without a name is a name. -/
theorem isVarName_toString (n : Nat) : isVarName (toString n) = true := by
  rw [isVarName, Nat.toString_eq_repr, Nat.toList_repr, Bool.and_eq_true, Bool.not_eq_true',
    List.all_eq_true]
  refine ⟨?_, fun c hc ↦ ?_⟩
  · rw [List.isEmpty_eq_false_iff]
    exact List.ne_nil_of_length_pos Nat.length_toDigits_pos
  · exact isVarChar_of_isNameChar (isNameChar_of_isDigit (Nat.isDigit_of_mem_toDigits
      (by decide) (by decide) hc))

/-- Collected parameters have names and types that can be written. -/
theorem isSpelled_of_collectParams {i : Nat} {parts : List ParamPart} {params : List Param}
    {isVararg : Bool} (h : collectParams i parts = .ok (params, isVararg))
    (hparts : ∀ part ∈ parts, part.IsNamed) :
    ∀ p ∈ params, isVarName p.name = true ∧ p.ty.IsSpelled := by
  induction parts generalizing i params isVararg with
  | nil =>
    cases h
    exact List.forall_mem_nil _
  | cons part parts ih =>
    cases part with
    | ellipsis =>
      cases parts with
      | nil =>
        cases h
        exact List.forall_mem_nil _
      | cons part parts => cases h
    | param t name =>
      rw [collectParams, map_eq_ok] at h
      obtain ⟨⟨rest, vararg⟩, hrest, heq⟩ := h
      cases heq
      obtain ⟨hty, hname⟩ := hparts _ List.mem_cons_self
      have hrest := ih hrest fun part hpart ↦ hparts part (List.mem_cons_of_mem _ hpart)
      refine List.forall_mem_cons.2 ⟨⟨?_, hty⟩, hrest⟩
      cases name with
      | none => exact isVarName_toString i
      | some x => exact hname x rfl

theorem nodup_append_singleton {α : Type} {name : α → String} {seen : List α} {x : α}
    (h : (seen.map name).Nodup) (hnew : ¬(seen.any fun y ↦ name y == name x) = true) :
    ((seen ++ [x]).map name).Nodup := by
  rw [List.map_append, List.nodup_append]
  refine ⟨h, List.nodup_singleton _, ?_⟩
  rintro _ hx _ hy rfl
  obtain ⟨y, hmem, hname⟩ := List.mem_map.1 hx
  exact hnew (List.any_eq_true.2 ⟨y, hmem, beq_iff_eq.2 (hname.trans (List.mem_singleton.1 hy))⟩)

/-- Blocks hold the parts of a body in order, under different labels. -/
theorem parts_of_collectBlocks {name : String} {done blocks : List Block} {parts : List BodyPart}
    (h : collectBlocks name done parts = .ok blocks) :
    blocks.flatMap Block.parts = done.flatMap Block.parts ++ parts ∧
      ((done.map Block.label).Nodup → (blocks.map Block.label).Nodup) := by
  induction parts generalizing done with
  | nil =>
    cases h
    exact ⟨(List.append_nil _).symm, id⟩
  | cons part parts ih =>
    cases part with
    | label l =>
      unfold collectBlocks at h
      split at h
      · cases h
      · rename_i hnew
        obtain ⟨hparts, hnodup⟩ := ih h
        refine ⟨?_, fun hdone ↦ hnodup ?_⟩
        · rw [hparts, List.flatMap_append, List.append_assoc]
          rfl
        · exact nodup_append_singleton hdone hnew
    | instr i =>
      unfold collectBlocks at h
      split at h
      · cases h
      · rename_i b hlast
        obtain ⟨hparts, hnodup⟩ := ih h
        have hdone : done = done.dropLast ++ [b] := (List.dropLast_append_getLast? b hlast).symm
        refine ⟨?_, fun hlabels ↦ hnodup ?_⟩
        · rw [hparts]
          conv_rhs => rw [hdone]
          simp [Block.parts]
        · rw [hdone] at hlabels
          simpa using hlabels

theorem nodup_of_collectGlobals {seen globals : List Global} {parts : List Part}
    (h : collectGlobals seen parts = .ok globals) (hseen : (seen.map Global.name).Nodup) :
    (globals.map Global.name).Nodup := by
  induction parts generalizing seen with
  | nil =>
    cases h
    exact hseen
  | cons part parts ih =>
    cases part with
    | global g =>
      unfold collectGlobals at h
      split at h
      · cases h
      · rename_i hnew
        exact ih h (nodup_append_singleton hseen hnew)
    | struct | function => exact ih h hseen

/-- Each collected global was there before or is one of the parts. -/
theorem mem_of_collectGlobals {seen globals : List Global} {parts : List Part}
    (h : collectGlobals seen parts = .ok globals) {g : Global} (hg : g ∈ globals) :
    g ∈ seen ∨ .global g ∈ parts := by
  induction parts generalizing seen with
  | nil =>
    cases h
    exact .inl hg
  | cons part parts ih =>
    cases part with
    | global g' =>
      unfold collectGlobals at h
      split at h
      · cases h
      · rcases ih h with hmem | hmem
        · rcases List.mem_append.1 hmem with hmem | hmem
          · exact .inl hmem
          · obtain rfl := List.mem_singleton.1 hmem
            exact .inr List.mem_cons_self
        · exact .inr (List.mem_cons_of_mem _ hmem)
    | struct | function => exact (ih h).imp_right (List.mem_cons_of_mem _)

theorem name_of_collectFunction {fp : FunctionParts} {f : Function}
    (h : collectFunction fp = .ok f) : f.name = fp.name := by
  obtain ⟨_, _, _, -, -, rfl⟩ := collectFunction_eq_ok.1 h
  rfl

theorem nodup_of_collectFunctions {seen functions : List Function} {parts : List Part}
    (h : collectFunctions seen parts = .ok functions) (hseen : (seen.map Function.name).Nodup) :
    (functions.map Function.name).Nodup := by
  induction parts generalizing seen with
  | nil =>
    cases h
    exact hseen
  | cons part parts ih =>
    cases part with
    | function fp =>
      unfold collectFunctions at h
      split at h
      · cases h
      · rename_i hnew
        obtain ⟨f, hf, h⟩ := bind_eq_ok.1 h
        rw [← name_of_collectFunction hf] at hnew
        exact ih h (nodup_append_singleton hseen hnew)
    | struct | global => exact ih h hseen

/-! ## Programs -/

/-- The names of a function that was put together from spelled parts can be read. -/
theorem isSpelled_of_collectFunction {fp : FunctionParts} {f : Function}
    (h : collectFunction fp = .ok f) (hfp : fp.IsSpelled)
    (hindexed : ∀ i ∈ f.instrs, i.action.IsIndexed) :
    f.IsSpelled ∧ LabelsFit .body f.parts ∧ f.labels.Nodup := by
  obtain ⟨params, isVararg, blocks, hparams, hblocks, rfl⟩ := collectFunction_eq_ok.1 h
  obtain ⟨hparts, hnodup⟩ := parts_of_collectBlocks hblocks
  rw [List.flatMap_nil, List.nil_append] at hparts
  refine ⟨⟨hfp.name, isSpelled_of_collectParams hparams hfp.params, hfp.returns, ?_⟩, ?_,
    hnodup List.nodup_nil⟩
  · intro part hpart
    have hnamed := hfp.body part (hparts ▸ hpart)
    cases part with
    | label l => exact hnamed
    | instr i => exact ⟨hnamed, hindexed i (Function.mem_instrs_of_mem_parts hpart)⟩
  · rw [Function.parts, hparts]
    exact hfp.labels

end RangeFlow.Source
