import RangeFlow.Proofs.Source.Built
import RangeFlow.Proofs.Source.Phrases

/-!
# What the grammar gives

Names that stand in a tree were read as tokens, so they are spelled as names are (`Gives`).  A label
is moreover no keyword of the place where it was read.
-/

namespace RangeFlow.Source

open Reading

/-! ## Names in tokens -/

/-- What is known of a token that was read where `e` was expected. -/
def Token.IsRead (e : Expect) : Token → Prop
  | .var x => isVarName x = true
  | .global x => isSymbolName x = true
  | .structName x => isIdentifier x = true
  | .ident x => isIdentifier x = true ∧ x ∉ e.words
  | .mark _ | .intType _ | .const _ | .stop => True

section Scan

variable {e : Expect} {cs : List Char} {t : Token} {n : Nat}

/-- What is taken as long as characters of a name follow is an identifier. -/
theorem isIdentifier_ofList {c : Char} (hc : isNameStart c = true) (cs : List Char) :
    isIdentifier (String.ofList (c :: cs.takeWhile isNameChar)) = true := by
  refine isIdentifier_iff.2 ⟨c, cs.takeWhile isNameChar, String.toList_ofList, hc, ?_⟩
  exact List.all_eq_true.1 List.all_takeWhile

theorem isRead_of_scanIntType (h : scanIntType cs = some (t, n)) : t.IsRead e := by
  unfold scanIntType at h
  split at h
  · split at h
    · cases h
    · cases h
      exact ⟨⟩
  · cases h

theorem isRead_of_scanStructName (h : scanStructName cs = some (t, n)) : t.IsRead e := by
  unfold scanStructName at h
  split at h
  · split at h
    · rename_i hc
      cases h
      exact isIdentifier_ofList hc _
    · cases h
  · cases h

/-- A name that is read has at least one character, and only such as were asked for. -/
theorem isRead_takeWhile {p : Char → Bool} (h : cs.takeWhile p ≠ []) :
    (!(String.ofList (cs.takeWhile p)).toList.isEmpty &&
      (String.ofList (cs.takeWhile p)).toList.all p) = true := by
  rw [String.toList_ofList, List.all_takeWhile, Bool.and_true]
  cases hname : cs.takeWhile p with
  | nil => exact absurd hname h
  | cons => rfl

theorem isRead_of_scanVar (h : scanVar cs = some (t, n)) : t.IsRead e := by
  unfold scanVar at h
  split at h
  · rename_i cs
    split at h
    · cases h
    · rename_i hne
      cases h
      exact isRead_takeWhile hne
  · cases h

theorem isRead_of_scanGlobal (h : scanGlobal cs = some (t, n)) : t.IsRead e := by
  unfold scanGlobal at h
  split at h
  · rename_i cs
    split at h
    · cases h
    · rename_i hne
      cases h
      exact isRead_takeWhile hne
  · cases h

theorem isRead_of_scanConst (h : scanConst cs = some (t, n)) : t.IsRead e := by
  unfold scanConst at h
  split at h <;>
  · obtain ⟨⟨v, k⟩, -, heq⟩ := Option.map_eq_some_iff.1 h
    cases heq
    exact ⟨⟩

theorem isRead_of_scanMark {marks : List String} (h : scanMark marks cs = some (t, n)) :
    t.IsRead e := by
  obtain ⟨m, -, heq⟩ := Option.map_eq_some_iff.1 h
  cases heq
  exact ⟨⟩

/-- A word that is scanned is read, as a keyword or as an identifier. -/
theorem isRead_of_scanWord (h : scanWord e cs = some (t, n)) : t.IsRead e := by
  unfold scanWord at h
  split at h
  · unfold scanIdent at h
    split at h
    · split at h
      · rename_i hc
        cases h
        split
        · exact ⟨⟩
        · rename_i hmem
          exact ⟨isIdentifier_ofList hc _, hmem⟩
      · cases h
    · cases h
  · exact isRead_of_scanMark h

theorem isRead_of_scan (h : scan e cs = some (t, n)) : t.IsRead e := by
  unfold scan at h
  simp only [Option.orElse_eq_orElse, Option.orElse_eq_or, Option.or_eq_some_iff,
    Option.ite_none_right_eq_some] at h
  rcases h with ⟨-, h⟩ | ⟨-, ⟨-, h⟩ | ⟨-, ⟨-, h⟩ | ⟨-, ⟨-, h⟩ | ⟨-, ⟨-, h⟩ | ⟨-, h | ⟨-, h⟩⟩⟩⟩⟩⟩
  · exact isRead_of_scanIntType h
  · exact isRead_of_scanStructName h
  · exact isRead_of_scanVar h
  · exact isRead_of_scanGlobal h
  · exact isRead_of_scanConst h
  · exact isRead_of_scanWord h
  · exact isRead_of_scanMark h

/-- The token after a step of the reader was read as one of those expected. -/
theorem isRead_of_readToken {c : Cursor} {last : Position} {r : Reader}
    (h : readToken e c last = .ok r) : r.token.IsRead e := by
  have hlex := lex_of_readToken h
  unfold lex at hlex
  split at hlex
  · rw [← (Prod.mk.inj (Option.some.inj hlex)).1]
    exact ⟨⟩
  · obtain ⟨⟨t, n⟩, hscan, heq⟩ := Option.map_eq_some_iff.1 hlex
    rw [← (Prod.mk.inj heq).1]
    exact isRead_of_scan hscan

end Scan

/-! ## Rules -/

/-- A reader at a token that was read where `e` was expected gives what satisfies `P`, and stands
at a token that was read where `next` was expected. -/
def Gives {α : Type} (e : Expect) (m : Reading α) (next : α → Expect) (P : α → Prop) : Prop :=
  ∀ r a s, r.token.IsRead e → m.run r = .ok (a, s) → P a ∧ s.token.IsRead (next a)

/-- The names in a token do not depend on what was expected. -/
theorem Token.IsRead.empty {e : Expect} {t : Token} (h : t.IsRead e) : t.IsRead {} := by
  cases t with
  | ident x => exact ⟨h.1, List.not_mem_nil⟩
  | mark | intType | structName | var | global | const | stop => exact h

namespace Gives

variable {α β : Type} {e f : Expect} {m : Reading α} {next : α → Expect} {P : α → Prop}
  {k : α → Reading β} {next' : β → Expect} {Q : β → Prop}

theorem run_bind {r s : Reader} {b : β} (h : (m >>= k).run r = .ok (b, s)) :
    ∃ a t, m.run r = .ok (a, t) ∧ (k a).run t = .ok (b, s) := by
  rw [StateT.run_bind] at h
  cases hm : m.run r with
  | error pos =>
    rw [hm] at h
    cases h
  | ok p =>
    obtain ⟨a, t⟩ := p
    rw [hm] at h
    exact ⟨a, t, rfl, h⟩

theorem bind (hm : Gives e m next P) (hk : ∀ a, P a → Gives (next a) (k a) next' Q) :
    Gives e (m >>= k) next' Q := by
  intro r b s hr hrun
  obtain ⟨a, t, hrun, hrun'⟩ := run_bind hrun
  obtain ⟨ha, ht⟩ := hm r a t hr hrun
  exact hk a ha t b s ht hrun'

theorem pure {b : β} (hb : Q b) (he : next' b = e) : Gives e (Pure.pure b) next' Q := by
  rintro r _ _ hr ⟨⟩
  exact ⟨hb, he ▸ hr⟩

theorem pure_empty {b : β} (hb : Q b) : Gives e (Pure.pure b) (fun _ ↦ {}) Q := by
  rintro r _ _ hr ⟨⟩
  exact ⟨hb, hr.empty⟩

theorem refuse : Gives e Reading.refuse next P := by
  rintro r a s - hrun
  cases hrun

/-- It may be forgotten what is expected afterwards. -/
theorem to_empty (hm : Gives e m next P) : Gives e m (fun _ ↦ {}) P := by
  intro r a s hr hrun
  obtain ⟨ha, hs⟩ := hm r a s hr hrun
  exact ⟨ha, hs.empty⟩

theorem advance_self : Gives e (Reading.advance f) (fun _ ↦ f) fun _ ↦ True := by
  intro r a s _ hrun
  rw [run_advance, map_eq_ok] at hrun
  obtain ⟨t, hread, heq⟩ := hrun
  cases heq
  exact ⟨⟨⟩, isRead_of_readToken hread⟩

/-- After an advance the next token is one of those expected then. -/
theorem advance {k : Unit → Reading β} (hk : Gives f (k ()) next' Q) :
    Gives e (Reading.advance f >>= k) next' Q :=
  advance_self.bind fun _ _ ↦ hk

/-- The token that is looked at was read as one of those expected. -/
theorem token {k : Token → Reading β} (hk : ∀ t, t.IsRead e → Gives e (k t) next' Q) :
    Gives e (Reading.token >>= k) next' Q :=
  fun r b s hr hrun ↦ hk r.token hr r b s hr hrun

theorem get {k : Reader → Reading β} (hk : ∀ r, Gives e (k r) next' Q) :
    Gives e (MonadState.get >>= k) next' Q :=
  fun r b s hr hrun ↦ hk r r b s hr hrun

/-- Both ways of a test of the token have to give what is said. -/
theorem isAt {mark : String} {p q : Reading β} (hp : Gives e p next' Q) (hq : Gives e q next' Q) :
    Gives e (Reading.isAt mark >>= fun b ↦ if b = true then p else q) next' Q := by
  intro r b s hr hrun
  replace hrun : (if (r.token == .mark mark) = true then p else q).run r = .ok (b, s) := hrun
  split at hrun
  · exact hp r b s hr hrun
  · exact hq r b s hr hrun

theorem pass_self {mark : String} : Gives e (Reading.pass mark f) (fun _ ↦ f) fun _ ↦ True :=
  isAt advance_self refuse

theorem pass {mark : String} {k : Unit → Reading β} (hk : Gives f (k ()) next' Q) :
    Gives e (Reading.pass mark f >>= k) next' Q :=
  pass_self.bind fun _ _ ↦ hk

theorem globalName : Gives e (Reading.globalName f) (fun _ ↦ f) fun x ↦ isSymbolName x = true :=
  token fun t ht ↦ by
    cases t with
    | global x => exact advance (pure ht rfl)
    | mark | intType | structName | var | ident | const | stop => exact refuse

theorem constValue : Gives e (Reading.constValue f) (fun _ ↦ f) fun _ ↦ True :=
  token fun t ht ↦ by
    cases t with
    | const v => exact advance (pure ⟨⟩ rfl)
    | mark | intType | structName | var | ident | global | stop => exact refuse

/-- Phrases that each follow a comma. -/
theorem commas (more : Nat → Reading (List α)) {item : Nat → Reading α} {after : Expect}
    (hzero : more 0 = Reading.refuse)
    (hmore : ∀ n, more (n + 1) = do
      if ← Reading.isAt "," then
        Reading.advance e
        let a ← item n
        return a :: (← more n)
      else return [])
    (hitem : ∀ n, Gives e (item n) (fun _ ↦ after) P) (n : Nat) :
    Gives after (more n) (fun _ ↦ after) fun as ↦ ∀ a ∈ as, P a := by
  induction n with
  | zero =>
    rw [hzero]
    exact refuse
  | succ n ih =>
    rw [hmore]
    refine isAt (advance ((hitem n).bind fun a ha ↦ ih.bind fun as has ↦ pure ?_ rfl)) (pure ?_ rfl)
    · exact List.forall_mem_cons.2 ⟨ha, has⟩
    · exact List.forall_mem_nil P

end Gives

/-! ## Types and constants -/

namespace TypeTree

mutual

def IsSpelled : TypeTree → Prop
  | .int _ | .ptr => True
  | .named name => isIdentifier name = true
  | .literal fields => AreSpelled fields
  | .array _ element => IsSpelled element

def AreSpelled : List TypeTree → Prop
  | [] => True
  | t :: ts => IsSpelled t ∧ AreSpelled ts

end

/-- The rules for types call each other, so their claims go together. -/
theorem gives_all (n : Nat) :
    (∀ e, Gives e (typeTree n) (fun _ ↦ .afterType) IsSpelled) ∧
      (∀ e, Gives e (typeList n) (fun _ ↦ {}) AreSpelled) ∧
      Gives .afterType (moreTypes n) (fun _ ↦ .afterType) AreSpelled := by
  induction n with
  | zero =>
    rw [typeTree, typeList, moreTypes]
    exact ⟨fun _ ↦ .refuse, fun _ ↦ .refuse, .refuse⟩
  | succ n ih =>
    obtain ⟨htype, hlist, hmore⟩ := ih
    refine ⟨fun e ↦ ?_, fun e ↦ ?_, ?_⟩
    · rw [typeTree]
      refine .token fun t ht ↦ ?_
      split
      · exact .advance (.pure ⟨⟩ rfl)
      · exact .advance (.pure ⟨⟩ rfl)
      · exact .advance (.pure ht rfl)
      · exact .advance ((hlist _).bind fun fields hfields ↦ .pass (.pure hfields rfl))
      · exact .advance (Gives.constValue.bind fun _ _ ↦ .pass ((htype _).bind fun element he ↦
          .pass (.pure he rfl)))
      · exact .refuse
    · rw [typeList]
      exact .isAt (.pure_empty ⟨⟩) ((htype e).bind fun t ht ↦ hmore.bind fun ts hts ↦
        .pure_empty ⟨ht, hts⟩)
    · rw [moreTypes]
      exact .isAt (.advance ((htype _).bind fun t ht ↦ hmore.bind fun ts hts ↦
        .pure ⟨ht, hts⟩ rfl)) (.pure ⟨⟩ rfl)

/-- A tree that is given is spelled with names that can be written. -/
theorem gives (n : Nat) (e : Expect) : Gives e (typeTree n) (fun _ ↦ .afterType) IsSpelled :=
  (gives_all n).1 e

end TypeTree

namespace ConstantTree

mutual

def IsSpelled : ConstantTree → Prop
  | .int _ | .zero => True
  | .symbol name => isSymbolName name = true
  | .struct elements | .array elements => AreSpelled elements

def AreSpelled : List ConstantTree → Prop
  | [] => True
  | c :: cs => IsSpelled c ∧ AreSpelled cs

end

/-- The rules for constants call each other, so their claims go together. -/
theorem gives_all (n : Nat) :
    (∀ e, Gives e (constant n) (fun _ ↦ .afterConstant) IsSpelled) ∧
      (∀ e close, Gives e (constantList close n) (fun _ ↦ {}) AreSpelled) ∧
      Gives .afterConstant (moreConstants n) (fun _ ↦ .afterConstant) AreSpelled := by
  induction n with
  | zero =>
    refine ⟨fun _ ↦ ?_, fun _ _ ↦ ?_, ?_⟩
    · rw [constant]
      exact .refuse
    · rw [constantList]
      exact .refuse
    · rw [moreConstants]
      exact .refuse
  | succ n ih =>
    obtain ⟨hconstant, hlist, hmore⟩ := ih
    refine ⟨fun e ↦ ?_, fun e close ↦ ?_, ?_⟩
    · rw [constant]
      refine .token fun t ht ↦ ?_
      split
      · exact .advance (.pure ⟨⟩ rfl)
      · exact .advance (.pure ht rfl)
      · exact .advance (.pure ⟨⟩ rfl)
      · exact .advance ((hlist _ _).bind fun elements he ↦ .pass (.pure he rfl))
      · exact .advance ((hlist _ _).bind fun elements he ↦ .pass (.pure he rfl))
      · exact .refuse
    · rw [constantList]
      exact .isAt (.pure_empty ⟨⟩) ((hconstant e).bind fun c hc ↦ hmore.bind fun cs hcs ↦
        .pure_empty ⟨hc, hcs⟩)
    · rw [moreConstants]
      exact .isAt (.advance ((hconstant _).bind fun c hc ↦ hmore.bind fun cs hcs ↦
        .pure ⟨hc, hcs⟩ rfl)) (.pure ⟨⟩ rfl)

end ConstantTree

/-! ## Operands and calls -/

def Atom.IsSpelled : Atom → Prop
  | .var x => isVarName x = true
  | .symbol x => isSymbolName x = true
  | .const _ => True

theorem Atom.gives (e : Expect) : Gives e atom (fun _ ↦ .afterOperand) Atom.IsSpelled := by
  refine .token fun t ht ↦ ?_
  split
  · exact .advance (.pure ht rfl)
  · exact .advance (.pure ⟨⟩ rfl)
  · exact .advance (.pure ht rfl)
  · exact .refuse

theorem Atom.gives_comma (e : Expect) :
    Gives e commaAtom (fun _ ↦ .afterOperand) Atom.IsSpelled :=
  .pass (Atom.gives _)

theorem gives_commaLabel (e : Expect) :
    Gives e commaLabel (fun _ ↦ .afterLabel) fun l ↦ isSymbolName l = true :=
  .pass .globalName

/-- After `void` its own tokens are expected. -/
theorem gives_typeOrVoid (n : Nat) (e afterVoid : Expect) :
    Gives e (typeOrVoid n afterVoid) (fun t ↦ t.elim afterVoid fun _ ↦ .afterType)
      fun t ↦ ∀ tree ∈ t, tree.IsSpelled := by
  refine .isAt (.advance (.pure ?_ rfl)) ((TypeTree.gives n e).bind fun t ht ↦ .pure ?_ rfl)
  · rintro tree ⟨⟩
  · rintro tree ⟨⟩
    exact ht

namespace CallTree

def IsSpelled (c : CallTree) : Prop :=
  (∀ t ∈ c.returns, t.IsSpelled) ∧ c.callee.operand.IsSpelled ∧
    ∀ a ∈ c.args, a.1.IsSpelled ∧ a.2.IsSpelled

theorem gives_callee (e : Expect) :
    Gives e Source.callee (fun _ ↦ .ofMarks ["("]) fun c ↦ c.operand.IsSpelled := by
  refine .token fun t ht ↦ ?_
  split
  · exact .advance (.pure ht rfl)
  · exact .advance (.pure ⟨ht, ⟨⟩⟩ rfl)
  · exact .refuse

theorem gives_arg (n : Nat) (e : Expect) :
    Gives e (callArg n) (fun _ ↦ .afterOperand) fun a ↦ a.1.IsSpelled ∧ a.2.IsSpelled :=
  (TypeTree.gives n e).bind fun _ ht ↦ (Atom.gives _).bind fun _ ha ↦ .pure ⟨ht, ha⟩ rfl

theorem gives_args (n : Nat) (e : Expect) :
    Gives e (callArgs n) (fun _ ↦ {}) fun args ↦ ∀ a ∈ args, a.1.IsSpelled ∧ a.2.IsSpelled := by
  refine .isAt (.pure_empty (List.forall_mem_nil _)) ((gives_arg n e).bind fun a ha ↦ ?_)
  have hmore :=
    Gives.commas moreCallArgs rfl (fun n ↦ by rw [moreCallArgs]) (fun n ↦ gives_arg n _) n
  exact hmore.bind fun as has ↦ .pure_empty (List.forall_mem_cons.2 ⟨ha, has⟩)

/-- A call that is given is spelled with names that can be written. -/
theorem gives (n : Nat) (e : Expect) : Gives e (callTree n) (fun _ ↦ .body) IsSpelled :=
  .advance ((gives_typeOrVoid n _ _).bind fun _ hreturns ↦ (gives_callee _).bind fun _ hcallee ↦
    .pass ((gives_args n _).bind fun _ hargs ↦ .pass (.pure ⟨hreturns, hcallee, hargs⟩ rfl)))

end CallTree

/-! ## Values -/

namespace ValueTree

def IsSpelled : ValueTree → Prop
  | .binary _ t a b | .compare _ t a b => t.IsSpelled ∧ a.IsSpelled ∧ b.IsSpelled
  | .cast _ s a t => s.IsSpelled ∧ a.IsSpelled ∧ t.IsSpelled
  | .select t c a b => t.IsSpelled ∧ c.IsSpelled ∧ a.IsSpelled ∧ b.IsSpelled
  | .phi t entries =>
    t.IsSpelled ∧ entries ≠ [] ∧ ∀ e ∈ entries, isSymbolName e.1 = true ∧ e.2.IsSpelled
  | .load t p => t.IsSpelled ∧ p.IsSpelled
  | .alloca t => t.IsSpelled
  | .field t p _ => t.IsSpelled ∧ p.IsSpelled
  | .elem t p it i => t.IsSpelled ∧ p.IsSpelled ∧ it.IsSpelled ∧ i.IsSpelled
  | .call c => c.IsSpelled

/-- What is expected after a value. -/
def after : ValueTree → Expect
  | .binary _ _ _ _ | .compare _ _ _ _ | .select _ _ _ _ | .phi _ _ | .load _ _ | .elem _ _ _ _ =>
    .afterOperand
  | .cast _ _ _ _ | .alloca _ => .afterType
  | .field _ _ _ | .call _ => .body

theorem gives_entry (e : Expect) :
    Gives e phiEntry (fun _ ↦ .afterOperand) fun e ↦ isSymbolName e.1 = true ∧ e.2.IsSpelled :=
  Gives.globalName.bind fun _ hl ↦ (Atom.gives_comma _).bind fun _ ha ↦ .pure ⟨hl, ha⟩ rfl

theorem gives_other (n : Nat) (e : Expect) (word : String) :
    Gives e (otherValue n word) after IsSpelled := by
  unfold otherValue
  split
  · exact .advance ((TypeTree.gives n _).bind fun _ ht ↦ (Atom.gives _).bind fun _ hc ↦
      (Atom.gives_comma _).bind fun _ ha ↦ (Atom.gives_comma _).bind fun _ hb ↦
        .pure ⟨ht, hc, ha, hb⟩ rfl)
  · have hmore :=
      Gives.commas morePhiEntries rfl (fun n ↦ by rw [morePhiEntries]) (fun n ↦ gives_entry _) n
    exact .advance ((TypeTree.gives n _).bind fun _ ht ↦ (gives_entry _).bind fun _ hfirst ↦
      hmore.bind fun _ hrest ↦
        .pure ⟨ht, List.cons_ne_nil _ _, List.forall_mem_cons.2 ⟨hfirst, hrest⟩⟩ rfl)
  · exact .advance ((TypeTree.gives n _).bind fun _ ht ↦ (Atom.gives _).bind fun _ hp ↦
      .pure ⟨ht, hp⟩ rfl)
  · exact .advance ((TypeTree.gives n _).bind fun _ ht ↦ .pure ht rfl)
  · exact .advance ((TypeTree.gives n _).bind fun _ ht ↦ (Atom.gives_comma _).bind fun _ hp ↦
      .pass (Gives.constValue.bind fun _ _ ↦ .pure ⟨ht, hp⟩ rfl))
  · exact .advance ((TypeTree.gives n _).bind fun _ ht ↦ (Atom.gives_comma _).bind fun _ hp ↦
      .pass ((TypeTree.gives n _).bind fun _ hit ↦ (Atom.gives _).bind fun _ hi ↦
        .pure ⟨ht, hp, hit, hi⟩ rfl))
  · exact (CallTree.gives n e).bind fun _ hc ↦ .pure hc rfl
  · exact .refuse

/-- A value that is given is spelled, and is followed by what may follow it. -/
theorem gives (n : Nat) (e : Expect) : Gives e (valueTree n) after IsSpelled := by
  refine .token fun t ht ↦ ?_
  split
  · split
    · exact .advance ((TypeTree.gives n _).bind fun _ ht ↦ (Atom.gives _).bind fun _ ha ↦
        (Atom.gives_comma _).bind fun _ hb ↦ .pure ⟨ht, ha, hb⟩ rfl)
    · exact .advance ((TypeTree.gives n _).bind fun _ ht ↦ (Atom.gives _).bind fun _ ha ↦
        (Atom.gives_comma _).bind fun _ hb ↦ .pure ⟨ht, ha, hb⟩ rfl)
    · exact .advance ((TypeTree.gives n _).bind fun _ hs ↦ (Atom.gives _).bind fun _ ha ↦
        .pass ((TypeTree.gives n _).bind fun _ ht ↦ .pure ⟨hs, ha, ht⟩ rfl))
    · exact gives_other n e _
  · exact .refuse

end ValueTree

/-! ## Statements and bodies -/

namespace StatementTree

def IsSpelled : StatementTree → Prop
  | .assign x v => isVarName x = true ∧ v.IsSpelled
  | .store t v p => t.IsSpelled ∧ v.IsSpelled ∧ p.IsSpelled
  | .call c => c.IsSpelled
  | .jmp l => isSymbolName l = true
  | .jnz c l r => c.IsSpelled ∧ isSymbolName l = true ∧ isSymbolName r = true
  | .switch t c l cases => t.IsSpelled ∧ c.IsSpelled ∧ isSymbolName l = true ∧
    ∀ k ∈ cases, isSymbolName k.2 = true
  | .ret t v => t.IsSpelled ∧ v.IsSpelled
  | .retVoid | .unreachable => True

def after : StatementTree → Expect
  | .assign _ v => v.after
  | .store _ _ _ | .ret _ _ => .afterOperand
  | .jmp _ | .jnz _ _ _ | .switch _ _ _ _ => .afterLabel
  | .call _ | .retVoid | .unreachable => .body

theorem gives_case (e : Expect) :
    Gives e switchCase (fun _ ↦ .afterLabel) fun k ↦ isSymbolName k.2 = true :=
  Gives.constValue.bind fun _ _ ↦ (gives_commaLabel _).bind fun _ hl ↦ .pure hl rfl

theorem gives_keyword (n : Nat) (e : Expect) (word : String) :
    Gives e (keywordStatement n word) after IsSpelled := by
  unfold keywordStatement
  split
  · exact .advance ((TypeTree.gives n _).bind fun _ ht ↦ (Atom.gives _).bind fun _ hv ↦
      (Atom.gives_comma _).bind fun _ hp ↦ .pure ⟨ht, hv, hp⟩ rfl)
  · exact (CallTree.gives n e).bind fun _ hc ↦ .pure hc rfl
  · exact .advance (Gives.globalName.bind fun _ hl ↦ .pure hl rfl)
  · exact .advance ((Atom.gives _).bind fun _ hc ↦ (gives_commaLabel _).bind fun _ hl ↦
      (gives_commaLabel _).bind fun _ hr ↦ .pure ⟨hc, hl, hr⟩ rfl)
  · have hcases :=
      Gives.commas switchCases rfl (fun n ↦ by rw [switchCases]) (fun n ↦ gives_case _) n
    exact .advance ((TypeTree.gives n _).bind fun _ ht ↦ (Atom.gives _).bind fun _ hc ↦
      (gives_commaLabel _).bind fun _ hl ↦ hcases.bind fun _ hks ↦ .pure ⟨ht, hc, hl, hks⟩ rfl)
  · refine .advance ((gives_typeOrVoid n _ _).bind fun t ht ↦ ?_)
    cases t with
    | none => exact .pure ⟨⟩ rfl
    | some t => exact (Atom.gives _).bind fun _ hv ↦ .pure ⟨ht t rfl, hv⟩ rfl
  · exact .advance (.pure ⟨⟩ rfl)
  · exact .refuse

/-- A statement that is given is spelled, and is followed by what may follow it. -/
theorem gives (n : Nat) (e : Expect) : Gives e (statement n) after IsSpelled := by
  refine .token fun t ht ↦ ?_
  split
  · exact .advance (.pass ((ValueTree.gives n _).bind fun _ hv ↦ .pure ⟨ht, hv⟩ rfl))
  · exact gives_keyword n e _
  · exact .refuse

end StatementTree

namespace BodyItem

/-- The names in a label or a statement can be read where `e` is expected. -/
def IsSpelled (e : Expect) : BodyItem → Prop
  | .label l => isIdentifier l = true ∧ l ∉ e.words
  | .statement _ s => s.IsSpelled

def after : BodyItem → Expect
  | .label _ => .body
  | .statement _ s => s.after

/-- The names in a body can be read one after the other. -/
def AreSpelled (e : Expect) : List BodyItem → Prop
  | [] => True
  | item :: items => item.IsSpelled e ∧ AreSpelled item.after items

/-- A label or a statement that is given is spelled. -/
theorem gives (n : Nat) (e : Expect) : Gives e (bodyItem n) after (IsSpelled e) := by
  refine .token fun t ht ↦ ?_
  split
  · exact .advance (.pass (.pure ht rfl))
  · exact .get fun r ↦ (StatementTree.gives n e).bind fun _ hs ↦ .pure hs rfl

/-- The items of a body that are given are spelled, and no label follows where it would be read as
something else. -/
theorem gives_all (n : Nat) (e : Expect) :
    Gives e (bodyItems n) (fun _ ↦ {}) (AreSpelled e) := by
  induction n generalizing e with
  | zero => exact .refuse
  | succ n ih =>
    exact .isAt (.pure_empty ⟨⟩) ((gives n e).bind fun _ hitem ↦ (ih _).bind fun _ hitems ↦
      .pure_empty ⟨hitem, hitems⟩)

end BodyItem

/-! ## Items -/

def ParamTree.IsSpelled : ParamTree → Prop
  | .param t name => t.IsSpelled ∧ ∀ x ∈ name, isVarName x = true
  | .ellipsis => True

namespace HeadTree

structure IsSpelled (h : HeadTree) : Prop where
  name : isSymbolName h.name = true
  params : ∀ p ∈ h.params, p.IsSpelled
  returns : ∀ t ∈ h.returns, t.IsSpelled

theorem gives_param (n : Nat) (e : Expect) :
    Gives e (param n) (fun _ ↦ {}) ParamTree.IsSpelled := by
  refine .isAt (.advance (.pure_empty ⟨⟩)) ((TypeTree.gives n e).bind fun _ ht ↦
    .token fun t hread ↦ ?_)
  split
  · refine .advance (.pure_empty ⟨ht, ?_⟩)
    rintro x ⟨⟩
    exact hread
  · refine .pure_empty ⟨ht, ?_⟩
    rintro x ⟨⟩

theorem gives_paramList (n : Nat) (e : Expect) :
    Gives e (paramList n) (fun _ ↦ {}) fun ps ↦ ∀ p ∈ ps, p.IsSpelled := by
  refine .isAt (.pure_empty (List.forall_mem_nil _)) ((gives_param n e).bind fun p hp ↦ ?_)
  have hmore := Gives.commas moreParams rfl (fun n ↦ by rw [moreParams]) (fun n ↦ gives_param n _) n
  exact hmore.bind fun ps hps ↦ .pure_empty (List.forall_mem_cons.2 ⟨hp, hps⟩)

theorem gives_returnType (n : Nat) (e : Expect) :
    Gives e (returnType n) (fun _ ↦ {}) fun t ↦ ∀ tree ∈ t, tree.IsSpelled := by
  refine .isAt (.advance (gives_typeOrVoid n _ _).to_empty) (.pure_empty ?_)
  rintro tree ⟨⟩

theorem gives (n : Nat) (e afterParams : Expect) :
    Gives e (headTree n afterParams) (fun _ ↦ {}) IsSpelled :=
  Gives.globalName.bind fun _ hname ↦ .pass ((gives_paramList n _).bind fun _ hparams ↦
    .pass ((gives_returnType n _).bind fun _ hreturns ↦ .pure ⟨hname, hparams, hreturns⟩ rfl))

end HeadTree

namespace Item

def IsSpelled : Item → Prop
  | .struct name fields => isIdentifier name = true ∧ TypeTree.AreSpelled fields
  | .global name t init => isSymbolName name = true ∧ t.IsSpelled ∧ ∀ c ∈ init, c.IsSpelled
  | .declare head => head.IsSpelled
  | .function head body => head.IsSpelled ∧ BodyItem.AreSpelled .body body

theorem gives (n : Nat) (e : Expect) : Gives e (item n) (fun _ ↦ {}) IsSpelled := by
  refine .token fun t _ ↦ ?_
  split
  · refine .advance (.token fun t ht ↦ ?_)
    split
    · exact .advance (.pass (.pass (((TypeTree.gives_all n).2.1 _).bind fun _ hfields ↦
        .pass (.pure_empty ⟨ht, hfields⟩))))
    · exact .refuse
  · refine .advance (Gives.globalName.bind fun _ hname ↦ .pass ((TypeTree.gives n _).bind
      fun _ ht ↦ .isAt (.advance (((ConstantTree.gives_all n).1 _).bind fun _ hc ↦
        .pure_empty ⟨hname, ht, ?_⟩)) (.pure_empty ⟨hname, ht, ?_⟩)))
    · rintro c ⟨⟩
      exact hc
    · rintro c ⟨⟩
  · exact .advance (.pass ((HeadTree.gives n _ _).bind fun _ hhead ↦ .pure_empty hhead))
  · exact .advance ((HeadTree.gives n _ _).bind fun _ hhead ↦ .pass
      ((BodyItem.gives_all n _).bind fun _ hbody ↦ .pass (.pure_empty ⟨hhead, hbody⟩)))
  · exact .refuse

theorem gives_all (n : Nat) (e : Expect) :
    Gives e (programItems n) (fun _ ↦ {}) fun items ↦ ∀ i ∈ items, i.IsSpelled := by
  induction n generalizing e with
  | zero => exact .refuse
  | succ n ih =>
    refine .token fun t _ ↦ ?_
    split
    · exact .pure_empty (List.forall_mem_nil _)
    · exact (gives n e).bind fun _ hitem ↦ (ih _).bind fun _ hitems ↦
        .pure_empty (List.forall_mem_cons.2 ⟨hitem, hitems⟩)

/-- The names in the items of a text can be read. -/
theorem isSpelled_of_parseItems {text : String} {items : List Item}
    (h : parseItems text = .ok items) : ∀ i ∈ items, i.IsSpelled := by
  rw [parseItems, bind_eq_ok] at h
  obtain ⟨r, hr, h⟩ := h
  rw [bind_eq_ok] at h
  obtain ⟨⟨items', s⟩, hrun, h⟩ := h
  cases h
  exact (gives_all _ _ r items s (isRead_of_readToken hr) hrun).1

end Item

end RangeFlow.Source
