import RangeFlow.Proofs.Source.Built
import RangeFlow.Proofs.Source.Phrases

/-!
# Reading the tokens of functions and programs

A label is read as one only if it is no keyword of the place where it stands: what is expected
there depends on the instruction before it (`LabelsFit`).
-/

namespace RangeFlow

open Source

/-! ## Bodies -/

/-- Whether labels and statements are read at a place. -/
def Source.Expect.takesBody (e : Expect) : Bool :=
  e.var && !e.structName && e.ident && !e.intType && e.takes (.mark "\x7d") &&
    Expect.body.words.all fun m ↦ e.takes (.mark m)

theorem Value.takesBody_after (v : Value) : v.after.takesBody = true := by
  cases v <;> rfl

theorem Terminator.takesBody_after (t : Terminator) : t.after.takesBody = true := by
  cases t <;> rfl

theorem Action.takesBody_after (a : Action) : a.after.takesBody = true := by
  cases a with
  | assign x v => exact v.takesBody_after
  | store | call => rfl
  | finish t => exact t.takesBody_after

/-- An action starts with a variable or with a keyword. -/
theorem Action.exists_tokens (a : Action) : (∃ x ts, a.tokens = .var x :: ts) ∨
    ∃ m ∈ Expect.body.words, ∃ ts, a.tokens = .mark m :: ts := by
  cases a with
  | assign x v => exact .inl ⟨x, _, rfl⟩
  | store t v p => exact .inr ⟨"store", by decide, _, rfl⟩
  | call c => exact .inr ⟨"call", by decide, _, rfl⟩
  | finish t =>
    right
    cases t with
    | jmp l => exact ⟨"jmp", by decide, _, rfl⟩
    | jnz c l r => exact ⟨"jnz", by decide, _, rfl⟩
    | switch t c l cases => exact ⟨"switch", by decide, _, rfl⟩
    | ret t v => exact ⟨"ret", by decide, _, rfl⟩
    | retVoid => exact ⟨"ret", by decide, _, rfl⟩
    | unreachable => exact ⟨"unreachable", by decide, _, rfl⟩

namespace Source

/-- No label is a keyword of the place where it stands; the first one stands where `e` is
expected. -/
def LabelsFit (e : Expect) : List BodyPart → Prop
  | [] => True
  | .label l :: parts => l ∉ e.words ∧ LabelsFit .body parts
  | .instr i :: parts => LabelsFit i.action.after parts

namespace BodyPart

/-- The trees of a label or an instruction, which may stand on any line. -/
inductive Tree : BodyPart → BodyItem → Prop
  | label (l : String) : Tree (.label l) (.label l)
  | instr (i : Instr) (line : Nat) : Tree (.instr i) (.statement line i.action.tree)

def after : BodyPart → Expect
  | .label _ => .body
  | .instr i => i.action.after

/-- After a line of a body the rest of it may follow. -/
theorem takesBody_after (part : BodyPart) : part.after.takesBody = true := by
  cases part with
  | label l => rfl
  | instr i => exact i.action.takesBody_after

/-- A line of a body starts with a token that may follow the line before. -/
theorem starts {part : BodyPart} {parts : List BodyPart} {e : Expect} (he : e.takesBody = true)
    (hlabels : LabelsFit e (part :: parts)) : e.Starts part.tokens := by
  simp only [Expect.takesBody, Bool.and_eq_true, List.all_eq_true] at he
  obtain ⟨⟨⟨⟨⟨hvar, hname⟩, hident⟩, hint⟩, -⟩, hwords⟩ := he
  cases part with
  | label l =>
    refine Expect.starts_cons ?_
    simp only [Expect.takes, hident, hint, Bool.and_true, Bool.true_and, List.contains_eq_mem,
      Bool.not_eq_true', decide_eq_false_iff_not]
    exact hlabels.1
  | instr i =>
    rcases i.action.exists_tokens with ⟨x, ts, hts⟩ | ⟨m, hm, ts, hts⟩
    · exact ⟨_, _, hts, Bool.and_eq_true_iff.2 ⟨hvar, hname⟩⟩
    · exact ⟨_, _, hts, hwords m hm⟩

/-- A line of a body does not start with a mark that ends something. -/
theorem not_closes (part : BodyPart) {mark : String} (hmark : mark ∉ Expect.body.words)
    (us : List Token) : ¬Closes mark (part.tokens ++ us) := by
  rintro ⟨vs, hvs⟩
  cases part with
  | label l => cases hvs
  | instr i =>
    rcases i.action.exists_tokens with ⟨x, ts, hts⟩ | ⟨m, hm, ts, hts⟩
    · rw [tokens, hts] at hvs
      cases hvs
    · rw [tokens, hts] at hvs
      cases hvs
      exact hmark hm

theorem one_le_length_tokens (part : BodyPart) : 1 ≤ part.tokens.length := by
  cases part with
  | label l => exact Nat.le_succ 1
  | instr i =>
    rcases i.action.exists_tokens with ⟨x, ts, hts⟩ | ⟨m, -, ts, hts⟩ <;>
    · rw [tokens, hts]
      exact Nat.succ_pos _

/-- Labels fit in the rest of a body if they do in all of it. -/
theorem fits_tail {part : BodyPart} {parts : List BodyPart} {e : Expect}
    (h : LabelsFit e (part :: parts)) : LabelsFit part.after parts := by
  cases part with
  | label l => exact h.2
  | instr i => exact h

end BodyPart

theorem Reads.get {β : Type} {f : Reader → Reading β} {ts : List Token} {F : List Token → Prop}
    {Q : β → Prop} (hf : ∀ r, Reads (f r) ts F Q) : Reads (MonadState.get >>= f) ts F Q :=
  fun vs r hvs hr ↦ hf r vs r hvs hr

theorem BodyPart.reads {part : BodyPart} (hpart : part.IsSpelled) {n : Nat}
    (hn : 2 * part.tokens.length ≤ n) :
    Reads (bodyItem n) part.tokens part.after.Ends part.Tree := by
  cases part with
  | label l =>
    refine .token (.advance (fun _ _ ↦ (Expect.starts_cons rfl).meets) ?_)
    exact .pass (fun _ h ↦ h.1) (.pure (.label l))
  | instr i =>
    have hstatement : Reads (do
        let line := (← MonadState.get).pos.line
        return BodyItem.statement line (← statement n)) i.action.tokens i.action.after.Ends
        (BodyPart.instr i).Tree := by
      refine .get fun r ↦ ?_
      exact (Action.reads hpart.1 hn).last (fun _ h ↦ h) (.pure (.instr i _))
    rw [tokens, after]
    rcases i.action.exists_tokens with ⟨x, ts, hts⟩ | ⟨m, -, ts, hts⟩
    · rw [hts] at hstatement ⊢
      exact .token hstatement
    · rw [hts] at hstatement ⊢
      exact .token hstatement

/-- Before the parts of a body and its end, what starts them has to be expected. -/
theorem ends_body {parts : List BodyPart} {e : Expect} {us : List Token} (he : e.takesBody = true)
    (hlabels : LabelsFit e parts) (hus : Closes "\x7d" us) :
    e.Ends (parts.flatMap BodyPart.tokens ++ us) := by
  cases parts with
  | nil =>
    simp only [Expect.takesBody, Bool.and_eq_true] at he
    exact Expect.ends_of_closes he.1.2 (by decide) hus
  | cons part parts =>
    have hstart := BodyPart.starts he hlabels
    rw [List.flatMap_cons, List.append_assoc]
    exact ⟨(hstart.append _).meets, part.not_closes (by decide) _⟩

/-- The lines of a body are read from their tokens, up to the closing brace. -/
theorem reads_bodyItems {parts : List BodyPart} (hparts : ∀ part ∈ parts, part.IsSpelled)
    {e : Expect} (hlabels : LabelsFit e parts) {n : Nat}
    (hn : 2 * (parts.flatMap BodyPart.tokens).length + 1 ≤ n) :
    Reads (bodyItems n) (parts.flatMap BodyPart.tokens) (Closes "\x7d")
      (List.Forall₂ BodyPart.Tree parts) := by
  induction parts generalizing e n with
  | nil =>
    obtain ⟨n, rfl⟩ : ∃ k, n = k + 1 := ⟨n - 1, by omega⟩
    exact .isAt_true (fun vs hvs ↦ hvs) (.pure .nil)
  | cons part parts ih =>
    have hfits := BodyPart.fits_tail hlabels
    have hpos := part.one_le_length_tokens
    rw [List.flatMap_cons, List.length_append] at hn
    obtain ⟨n, rfl⟩ : ∃ k, n = k + 1 := ⟨n - 1, by omega⟩
    rw [List.flatMap_cons]
    refine .isAt_false (fun vs _ ↦ ?_) ?_
    · rw [List.append_assoc]
      exact part.not_closes (by decide) _
    · refine (BodyPart.reads (hparts part List.mem_cons_self) (by omega)).bind (fun vs hvs ↦ ?_) ?_
      · exact ends_body part.takesBody_after hfits hvs
      · intro item hitem
        have ih := ih (fun part hpart ↦ hparts part (List.mem_cons_of_mem _ hpart)) hfits (n := n)
          (by omega)
        rw [← List.append_nil (parts.flatMap BodyPart.tokens)]
        exact ih.bind (fun _ h ↦ h) fun items hitems ↦ .pure (.cons hitem hitems)

/-! ## Heads of functions -/

namespace ParamPart

def tokens : ParamPart → List Token
  | .param t (some x) => t.tokens ++ [.var x]
  | .param t none => t.tokens
  | .ellipsis => [.mark "..."]

def tree : ParamPart → ParamTree
  | .param t name => .param t.tree name
  | .ellipsis => .ellipsis

/-- The names in a parameter can be read, and it has one. -/
def IsSpelled : ParamPart → Prop
  | .param t (some x) => isVarName x = true ∧ t.IsSpelled
  | .param _ none => False
  | .ellipsis => True

theorem starts {part : ParamPart} (hpart : part.IsSpelled) {e : Expect}
    (he : e.takesTypes = true) (hmark : e.takes (.mark "...") = true) :
    e.Starts part.tokens := by
  match part, hpart with
  | .param t (some x), hpart => exact (Ty.starts hpart.2 he).append _
  | .ellipsis, _ => exact Expect.starts_cons hmark

/-- A parameter is read from its tokens. -/
theorem reads {part : ParamPart} (hpart : part.IsSpelled) {n : Nat}
    (hn : 2 * part.tokens.length ≤ n) :
    Reads (Source.param n) part.tokens (Expect.ofMarks [")", ","]).Meets (part.tree = ·) := by
  match part, hpart with
  | .param t (some x), hpart =>
    simp only [tokens, List.length_append] at hn
    have hstart : Expect.types.Starts t.tokens := Ty.starts hpart.2 rfl
    refine .isAt_false (fun vs _ ↦ ((hstart.append _).append vs).not_closes rfl) ?_
    refine .seq (Ty.reads hpart.2 (by omega)) (Expect.starts_cons rfl) ?_
    exact .token (.advance (fun _ h ↦ h) (.pure rfl))
  | .ellipsis, _ =>
    exact .isAt_true (fun vs _ ↦ ⟨vs, rfl⟩) (.advance (fun _ h ↦ h) (.pure rfl))

end ParamPart

end Source

namespace Function

/-- The parameters of a function as they are written. -/
def paramParts (f : Function) : List ParamPart :=
  (f.params.map fun p ↦ .param p.ty (some p.name)) ++ if f.isVararg then [.ellipsis] else []

theorem paramTokens_eq (f : Function) : f.paramTokens = f.paramParts.map ParamPart.tokens := by
  unfold paramTokens paramParts
  split <;> simp [Function.comp_def, ParamPart.tokens]

/-- The parameters of a spelled function are spelled. -/
theorem IsSpelled.paramParts {f : Function} (hf : f.IsSpelled) :
    ∀ part ∈ f.paramParts, part.IsSpelled := by
  intro part hpart
  rcases List.mem_append.1 hpart with hpart | hpart
  · obtain ⟨p, hp, rfl⟩ := List.mem_map.1 hpart
    exact hf.params p hp
  · split at hpart
    · rw [List.mem_singleton.1 hpart]
      exact ⟨⟩
    · exact absurd hpart List.not_mem_nil

def head (f : Function) : HeadTree :=
  ⟨f.name, f.paramParts.map ParamPart.tree, f.returns.tree?⟩

/-- The parameters of a function are read from their tokens. -/
theorem reads_paramList {f : Function} (hf : f.IsSpelled) {n : Nat}
    (hn : 2 * (separated f.paramTokens).length + 1 ≤ n) :
    Reads (paramList n) (separated f.paramTokens) (Closes ")")
      (f.paramParts.map ParamPart.tree = ·) := by
  rw [paramTokens_eq] at hn ⊢
  exact .commaList (Expect.types.orMarks ["..."]) (fun n ↦ by rw [moreParams]) rfl rfl (by decide)
    (fun part hpart ↦ ParamPart.starts (hf.paramParts part hpart) rfl rfl) rfl
    (fun part hpart _ hn ↦ ParamPart.reads (hf.paramParts part hpart) hn) hn

/-- The type of the result is read from its tokens, if it is written. -/
theorem reads_returnType {f : Function} (hf : f.IsSpelled) {n : Nat}
    (hn : 2 * f.returnTokens.length ≤ n) :
    Reads (returnType n) f.returnTokens
      (fun us ↦ ¬Closes "->" us ∧ Expect.afterType.Meets us) (f.returns.tree? = ·) := by
  unfold returnTokens at hn ⊢
  split at hn <;> rename_i hvoid
  · rw [if_pos hvoid, hvoid]
    exact .isAt_false (fun vs hvs ↦ hvs.1) (.pure rfl)
  · have hty := hf.returns.resolve_left hvoid
    rw [if_neg hvoid]
    rw [List.length_cons] at hn
    refine .isAt_true (fun vs _ ↦ ⟨_, rfl⟩) (.advance (fun vs _ ↦ ?_) ?_)
    · exact ((Ty.starts_void hf.returns).append vs).meets
    · refine (Ty.reads_void hf.returns (by omega)).mono fun vs hvs ↦ ⟨fun h ↦ ?_, fun _ ↦ hvs.2⟩
      exact absurd h hvoid

/-- The head of a function is read where neither an arrow nor the rest of a type follows. -/
theorem reads_head {f : Function} (hf : f.IsSpelled) {afterParams : Expect}
    (hparams : (afterParams.orMarks ["->"]).takes (.mark "->") = true) {n : Nat}
    (hn : 2 * f.headTokens.length ≤ n) :
    Reads (headTree n afterParams) f.headTokens
      (fun us ↦ (afterParams.orMarks ["->"]).Meets us ∧ ¬Closes "->" us ∧
        Expect.afterType.Meets us) (f.head = ·) := by
  simp only [headTokens, List.length_cons, List.length_append] at hn
  refine .seq .globalName (Expect.starts_cons rfl) (.pass (fun vs _ ↦ ?_) ?_)
  · refine ((Expect.starts_separated rfl ?_).append vs).meets
    rw [paramTokens_eq]
    exact List.forall_mem_map.2 fun part hpart ↦
      ParamPart.starts (hf.paramParts part hpart) rfl rfl
  · refine (reads_paramList hf (by omega)).bind (fun vs _ ↦ ⟨_, rfl⟩) ?_
    rintro _ rfl
    refine .pass (fun vs hvs ↦ ?_) ?_
    · unfold returnTokens
      split
      · exact hvs.1
      · exact (Expect.starts_cons hparams).meets
    · exact (reads_returnType hf (by omega)).last (fun _ h ↦ h.2) (.pure rfl)

/-- The trees of a function, whose instructions may stand on any lines. -/
def Tree (f : Function) (item : Item) : Prop :=
  if f.isDeclaration then item = .declare f.head
  else ∃ body, List.Forall₂ BodyPart.Tree f.parts body ∧ item = .function f.head body

end Function

/-! ## Items -/

namespace Source

/-- The text ends or goes on with an item. -/
def Continues (us : List Token) : Prop :=
  ∀ t ∈ us.head?, ∃ m ∈ Expect.items.words, t = .mark m

/-- An item or the end may follow where items are expected. -/
theorem Continues.meets {us : List Token} (h : Continues us) {e : Expect}
    (he : (Expect.items.words.all fun m ↦ e.takes (.mark m)) = true) : e.Meets us := by
  intro t ht
  obtain ⟨m, hm, rfl⟩ := h t ht
  exact List.all_eq_true.1 he m hm

/-- An item does not start with a mark of another kind. -/
theorem Continues.not_closes {us : List Token} (h : Continues us) {mark : String}
    (hmark : mark ∉ Expect.items.words) : ¬Closes mark us := by
  rintro ⟨vs, rfl⟩
  obtain ⟨m, hm, heq⟩ := h _ rfl
  cases heq
  exact hmark hm

end Source

theorem StructDecl.reads {name : String} {fields : List Ty} (hfields : Ty.AreSpelled fields)
    {n : Nat} (hn : 2 * (Ty.literal fields).tokens.length + 6 ≤ n) :
    Reads (item n) (.mark "struct" :: .structName name :: .mark "=" :: (Ty.literal fields).tokens)
      Continues (Item.struct name (Ty.trees fields) = ·) := by
  simp only [Ty.tokens, List.length_cons, List.length_append] at hn ⊢
  have hfields := Ty.areSpelled_iff.1 hfields
  have hlist := Ty.reads_list hfields (fun t ht _ hn ↦ Ty.reads (hfields t ht) hn) (n := n)
    (by omega)
  refine .token (.advance (fun _ _ ↦ (Expect.starts_cons rfl).meets) ?_)
  refine .token (.advance (fun _ _ ↦ (Expect.starts_cons rfl).meets) ?_)
  refine .pass (fun _ _ ↦ (Expect.starts_cons rfl).meets) (.pass (fun vs _ ↦ ?_) ?_)
  · refine ((Expect.starts_separated rfl ?_).append vs).meets
    rw [Ty.tokensOf_eq]
    exact List.forall_mem_map.2 fun t ht ↦ Ty.starts (hfields t ht) rfl
  · refine hlist.bind (fun vs _ ↦ ⟨_, rfl⟩) ?_
    rintro _ rfl
    exact .pass (fun _ h ↦ h.meets rfl) (.pure rfl)

theorem Global.reads {g : Global} (hg : g.IsSpelled) {n : Nat} (hn : 2 * g.tokens.length ≤ n) :
    Reads (item n) g.tokens Continues
      (Item.global g.name g.ty.tree (g.init.map Constant.tree) = ·) := by
  obtain ⟨-, hty, -⟩ := hg
  have hstart : Expect.types.Starts g.ty.tokens := Ty.starts hty rfl
  simp only [tokens, List.length_cons, List.length_append] at hn
  refine .token (.advance (fun _ _ ↦ (Expect.starts_cons rfl).meets) ?_)
  refine .seq .globalName (Expect.starts_cons rfl) ?_
  refine .pass (fun vs _ ↦ ((hstart.append _).append vs).meets) ?_
  cases hinit : g.init with
  | none =>
    refine (Ty.reads hty (by omega)).bind (fun vs hvs ↦ hvs.meets rfl) ?_
    rintro _ rfl
    exact .isAt_false (fun vs hvs ↦ hvs.not_closes (by decide)) (.pure rfl)
  | some c =>
    have hconstant : Expect.constants.Starts c.tokens := Constant.starts rfl
    simp only [hinit, List.length_cons] at hn
    refine .seq (Ty.reads hty (by omega)) (Expect.starts_cons rfl) ?_
    refine .isAt_true (fun vs _ ↦ ⟨_, rfl⟩) (.advance (fun vs _ ↦ (hconstant.append vs).meets) ?_)
    exact (Constant.reads (by omega)).last (fun vs hvs ↦ hvs.meets rfl) (.pure rfl)

theorem Function.reads {f : Function} (hf : f.IsSpelled) (hlabels : LabelsFit .body f.parts)
    {n : Nat} (hn : 2 * f.tokens.length ≤ n) : Reads (item n) f.tokens Continues f.Tree := by
  unfold tokens at hn ⊢
  split at hn <;> rename_i hdeclared
  · rw [if_pos hdeclared]
    simp only [List.length_cons] at hn
    refine .token (.advance (fun _ _ ↦ (Expect.starts_cons rfl).meets) ?_)
    refine .pass (fun _ _ ↦ (Expect.starts_cons rfl).meets) ?_
    refine (reads_head hf rfl (by omega)).last (fun vs hvs ↦ ?_) (.pure ?_)
    · exact ⟨hvs.meets rfl, hvs.not_closes (by decide), hvs.meets rfl⟩
    · exact (if_pos hdeclared).mpr rfl
  · rw [if_neg hdeclared]
    simp only [List.length_cons, List.length_append] at hn
    refine .token (.advance (fun _ _ ↦ (Expect.starts_cons rfl).meets) ?_)
    refine (reads_head hf rfl (by omega)).bind (fun vs _ ↦ ⟨?_, ?_, ?_⟩) ?_
    · exact (Expect.starts_cons rfl).meets
    · rintro ⟨us, hus⟩
      exact absurd (List.cons.inj hus).1 (by decide)
    · exact (Expect.starts_cons rfl).meets
    · rintro _ rfl
      refine .pass (fun vs _ ↦ ?_) ?_
      · rw [List.append_assoc]
        exact (ends_body rfl hlabels ⟨_, rfl⟩).1
      · refine (reads_bodyItems hf.parts hlabels (by omega)).bind (fun vs _ ↦ ⟨_, rfl⟩) ?_
        intro body hbody
        exact .pass (fun _ h ↦ h.meets rfl) (.pure ((if_neg hdeclared).mpr ⟨body, hbody, rfl⟩))

/-! ## Programs -/

namespace Source

/-- Some tokens start an item, which is read as one that satisfies `Q`. -/
def ReadsItem (ts : List Token) (Q : Item → Prop) : Prop :=
  (∃ m ∈ Expect.items.words, ∃ us, ts = .mark m :: us) ∧
    ∀ n, 2 * ts.length ≤ n → Reads (item n) ts Continues Q

/-- Where the tokens of some items begin, an item or the end follows. -/
theorem continues_flatten {tss : List (List Token)} {Qs : List (Item → Prop)}
    (h : List.Forall₂ ReadsItem tss Qs) : Continues tss.flatten := by
  cases h with
  | nil =>
    intro t ht
    cases ht
  | cons hts hrest =>
    obtain ⟨⟨m, hm, us, rfl⟩, -⟩ := hts
    rintro t ht
    cases ht
    exact ⟨m, hm, rfl⟩

/-- Items one after the other up to the end of a text. -/
theorem reads_programItems {tss : List (List Token)} {Qs : List (Item → Prop)}
    (h : List.Forall₂ ReadsItem tss Qs) {n : Nat} (hn : 2 * tss.flatten.length + 1 ≤ n) :
    Reads (programItems n) tss.flatten (· = []) (List.Forall₂ (fun Q i ↦ Q i) Qs) := by
  induction h generalizing n with
  | nil =>
    obtain ⟨n, rfl⟩ : ∃ k, n = k + 1 := ⟨n - 1, by omega⟩
    rintro _ r rfl hr
    have hstop : r.token = .stop := hr
    refine ⟨[], r, ?_, .nil, hr⟩
    show (if (r.token == .stop) = true then (pure [] : Reading (List Item)) else _).run r = _
    rw [hstop]
    rfl
  | @cons ts Q tss Qs hts hrest ih =>
    obtain ⟨⟨m, hm, us, rfl⟩, hreads⟩ := hts
    rw [List.flatten_cons, List.length_append, List.length_cons] at hn
    obtain ⟨n, rfl⟩ : ∃ k, n = k + 1 := ⟨n - 1, by omega⟩
    have hitem := hreads n (by rw [List.length_cons]; omega)
    rw [List.flatten_cons]
    refine .token (hitem.bind (fun vs hvs ↦ ?_) fun i hi ↦ ?_)
    · rw [hvs, List.append_nil]
      exact continues_flatten hrest
    · rw [← List.append_nil tss.flatten]
      exact (ih (by omega)).bind (fun _ h ↦ h) fun items hitems ↦ .pure (.cons hi hitems)

/-- A text that spells items is read as these items. -/
theorem exists_parseItems_of_spells {text : String} {tss : List (List Token)}
    {Qs : List (Item → Prop)} (h : List.Forall₂ ReadsItem tss Qs)
    (hspells : Spells tss.flatten text.toList) :
    ∃ items, parseItems text = .ok items ∧ List.Forall₂ (fun Q i ↦ Q i) Qs items := by
  obtain ⟨r, hr, hstands⟩ := exists_readToken_of_spells (e := .items) (c := ⟨text.toList, .start⟩)
    hspells ((continues_flatten h).meets rfl) .start
  have hlength := hspells.length_le
  obtain ⟨items, s, hrun, htrees, -⟩ := reads_programItems h
    (n := 2 * text.toList.length + 2) (by omega) [] r rfl (by rwa [List.append_nil])
  refine ⟨items, ?_, htrees⟩
  rw [parseItems, bind_eq_ok]
  refine ⟨r, hr, ?_⟩
  rw [bind_eq_ok]
  exact ⟨(_, s), hrun, rfl⟩

end Source

namespace Program

def structItems (structs : List StructDecl) : List Item :=
  structs.filterMap fun d ↦ d.fields.map fun fields ↦ .struct d.name (Ty.trees fields)

def globalItems (globals : List Global) : List Item :=
  globals.map fun g ↦ .global g.name g.ty.tree (g.init.map Constant.tree)

/-- The structs with a body are read from their tokens. -/
theorem readsItem_structs {structs : List StructDecl} (h : ∀ d ∈ structs, d.IsSpelled) :
    List.Forall₂ ReadsItem (structs.filterMap StructDecl.tokens?)
      ((structItems structs).map Eq) := by
  induction structs with
  | nil => exact .nil
  | cons d structs ih =>
    have ih := ih fun d hd ↦ h d (List.mem_cons_of_mem _ hd)
    unfold structItems at ih ⊢
    cases hd : d.fields with
    | none => simpa [List.filterMap_cons, StructDecl.tokens?, hd] using ih
    | some fields =>
      simp only [List.filterMap_cons, StructDecl.tokens?, hd, Option.map_some, List.map_cons]
      refine .cons ⟨⟨"struct", by decide, _, rfl⟩, fun n hn ↦ ?_⟩ ih
      have hfields := (h d List.mem_cons_self).2 fields hd
      exact StructDecl.reads hfields (by simp only [List.length_cons] at hn; omega)

theorem readsItem_globals {globals : List Global} (h : ∀ g ∈ globals, g.IsSpelled) :
    List.Forall₂ ReadsItem (globals.map Global.tokens) ((globalItems globals).map Eq) := by
  rw [globalItems, List.map_map, List.forall₂_map_left_iff, List.forall₂_map_right_iff,
    List.forall₂_same]
  exact fun g hg ↦ ⟨⟨"global", by decide, _, rfl⟩, fun n ↦ Global.reads (h g hg)⟩

theorem readsItem_functions {functions : List Function} (h : ∀ f ∈ functions, f.IsSpelled)
    (hlabels : ∀ f ∈ functions, LabelsFit .body f.parts) :
    List.Forall₂ ReadsItem (functions.map Function.tokens) (functions.map Function.Tree) := by
  rw [List.forall₂_map_left_iff, List.forall₂_map_right_iff, List.forall₂_same]
  intro f hf
  refine ⟨?_, fun n hn ↦ Function.reads (h f hf) (hlabels f hf) hn⟩
  unfold Function.tokens
  split
  · exact ⟨"declare", by decide, _, rfl⟩
  · exact ⟨"function", by decide, _, rfl⟩

/-- Items that are given come first, the others are as they are asked for. -/
theorem exists_eq_append {known items : List Item} {Qs : List (Item → Prop)}
    (h : List.Forall₂ (fun Q i ↦ Q i) (known.map Eq ++ Qs) items) :
    ∃ rest, items = known ++ rest ∧ List.Forall₂ (fun Q i ↦ Q i) Qs rest := by
  induction known generalizing items with
  | nil => exact ⟨items, rfl, h⟩
  | cons i known ih =>
    cases h with
    | cons hi hrest =>
      obtain ⟨rest, rfl, hQs⟩ := ih hrest
      cases hi
      exact ⟨rest, rfl, hQs⟩

/-- The text of a program is read as the trees of its items. -/
theorem exists_parseItems {p : Program} (hp : p.IsSpelled)
    (hlabels : ∀ f ∈ p.functions, LabelsFit .body f.parts) :
    ∃ items, parseItems p.text = .ok (structItems p.structs ++ globalItems p.globals ++ items) ∧
      List.Forall₂ Function.Tree p.functions items := by
  have hitems : List.Forall₂ ReadsItem (p.structs.filterMap StructDecl.tokens? ++
      p.globals.map Global.tokens ++ p.functions.map Function.tokens)
      ((structItems p.structs ++ globalItems p.globals).map Eq ++
        p.functions.map Function.Tree) := by
    rw [List.map_append]
    exact List.rel_append (List.rel_append (readsItem_structs hp.structs)
      (readsItem_globals hp.globals)) (readsItem_functions hp.functions hlabels)
  have hspells := Program.renders hp breaks_nil (Spells.nil rfl)
  have hflatten : p.tokens = (p.structs.filterMap StructDecl.tokens? ++
      p.globals.map Global.tokens ++ p.functions.map Function.tokens).flatten := by
    simp [tokens, List.flatMap]
  rw [List.append_nil, List.append_nil, hflatten] at hspells
  obtain ⟨items, hparse, htrees⟩ := exists_parseItems_of_spells hitems hspells
  obtain ⟨rest, rfl, hrest⟩ := exists_eq_append htrees
  rw [List.forall₂_map_left_iff] at hrest
  exact ⟨rest, hparse, hrest⟩

end Program

end RangeFlow
