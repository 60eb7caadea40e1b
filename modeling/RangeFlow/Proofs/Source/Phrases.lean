import RangeFlow.Proofs.Source.Reading

/-!
# Reading the tokens of a program

Every phrase of a program has a tree, and the grammar reads the tokens of the phrase as this tree.
-/

namespace RangeFlow

open Source

/-! ## Types -/

namespace Ty

/-- Induction over types, with the hypothesis for all fields of a literal struct. -/
@[elab_as_elim] theorem induct {P : Ty → Prop} (int : ∀ w, P (.int w)) (ptr : P .ptr)
    (void : P .void) (array : ∀ count element, P element → P (.array count element))
    (named : ∀ name, P (.named name))
    (literal : ∀ fields, (∀ t ∈ fields, P t) → P (.literal fields)) (t : Ty) : P t :=
  @Ty.rec P (fun ts ↦ ∀ t ∈ ts, P t) int ptr void array named literal
    (fun _ h ↦ absurd h List.not_mem_nil)
    (fun _ _ ht hts _ h ↦ (List.mem_cons.1 h).elim (fun hs ↦ hs ▸ ht) (hts _)) t

theorem areSpelled_iff {ts : List Ty} : AreSpelled ts ↔ ∀ t ∈ ts, t.IsSpelled := by
  induction ts with
  | nil => simp [AreSpelled]
  | cons t ts ih => simp [AreSpelled, ih]

theorem tokensOf_eq (ts : List Ty) : tokensOf ts = ts.map tokens := by
  induction ts with
  | nil => rfl
  | cons t ts ih => rw [tokensOf, ih, List.map_cons]

mutual

/-- The tree of a type; `void`, which is no part of a type, has none of its own. -/
def tree : Ty → TypeTree
  | .int w => .int (decimal w.bits)
  | .ptr | .void => .ptr
  | .array count element => .array (decimal count) (tree element)
  | .named name => .named name
  | .literal fields => .literal (trees fields)

def trees : List Ty → List TypeTree
  | [] => []
  | t :: ts => tree t :: trees ts

end

theorem trees_eq (ts : List Ty) : trees ts = ts.map tree := by
  induction ts with
  | nil => rfl
  | cons t ts ih => rw [trees, ih, List.map_cons]

end Ty

/-- Whether types are read at a place. -/
def Source.Expect.takesTypes (e : Expect) : Bool :=
  e.intType && e.structName && e.takes (.mark "ptr") && e.takes (.mark "[") &&
    e.takes (.mark "\x7b")

namespace Ty

theorem starts {t : Ty} {e : Expect} (ht : t.IsSpelled) (he : e.takesTypes = true) :
    e.Starts t.tokens := by
  simp only [Expect.takesTypes, Bool.and_eq_true] at he
  obtain ⟨⟨⟨⟨hint, hname⟩, hptr⟩, harray⟩, hliteral⟩ := he
  cases t with
  | int w => exact Expect.starts_cons hint
  | ptr => exact Expect.starts_cons hptr
  | void => exact ht.elim
  | array count element => exact Expect.starts_cons harray
  | named name => exact Expect.starts_cons hname
  | literal fields => exact Expect.starts_cons hliteral

/-- The fields of a struct type are read from their tokens, up to the closing brace. -/
theorem reads_list {fields : List Ty} (hfields : ∀ t ∈ fields, t.IsSpelled)
    (hreads : ∀ t ∈ fields, ∀ n, 2 * t.tokens.length ≤ n →
      Reads (typeTree n) t.tokens Expect.afterType.Meets (t.tree = ·)) {n : Nat}
    (hn : 2 * (separated (tokensOf fields)).length + 2 ≤ n) :
    Reads (typeList n) (separated (tokensOf fields)) (Closes "\x7d") (trees fields = ·) := by
  obtain ⟨n, rfl⟩ : ∃ k, n = k + 1 := ⟨n - 1, by omega⟩
  rw [tokensOf_eq] at hn ⊢
  rw [trees_eq, typeList]
  exact .commaList Expect.types (fun n ↦ by rw [moreTypes]) rfl rfl (by decide)
    (fun t ht ↦ starts (hfields t ht) rfl) rfl hreads (by omega)

/-- A type is read from its tokens. -/
theorem reads {t : Ty} (ht : t.IsSpelled) {n : Nat} (hn : 2 * t.tokens.length ≤ n) :
    Reads (typeTree n) t.tokens Expect.afterType.Meets (t.tree = ·) := by
  induction t using Ty.induct generalizing n with
  | int w | ptr | named name =>
    obtain ⟨n, rfl⟩ : ∃ k, n = k + 1 :=
      ⟨n - 1, by simp only [tokens, List.length_cons] at hn; omega⟩
    rw [typeTree]
    exact .token (.advance (fun _ h ↦ h) (.pure rfl))
  | void => exact ht.elim
  | array count element ih =>
    simp only [tokens, List.length_cons, List.length_append] at hn
    obtain ⟨n, rfl⟩ : ∃ k, n = k + 1 := ⟨n - 1, by omega⟩
    have helement : Expect.types.Starts element.tokens := starts ht rfl
    rw [typeTree]
    refine .token (.advance (fun _ _ ↦ (Expect.starts_cons rfl).meets) ?_)
    refine .seq .constValue (Expect.starts_cons rfl) ?_
    refine .pass (fun vs _ ↦ ((helement.append _).append vs).meets) ?_
    refine .seq (ih ht (by omega)) (Expect.starts_cons rfl) ?_
    exact .pass (fun _ h ↦ h) (.pure rfl)
  | literal fields ih =>
    simp only [tokens, List.length_cons, List.length_append] at hn
    obtain ⟨n, rfl⟩ : ∃ k, n = k + 1 := ⟨n - 1, by omega⟩
    have hfields := areSpelled_iff.1 ht
    have hlist := reads_list hfields (fun t ht _ ↦ ih t ht (hfields t ht)) (n := n) (by omega)
    rw [typeTree]
    refine .token (.advance (fun vs _ ↦ ?_) ?_)
    · refine ((Expect.starts_separated rfl ?_).append vs).meets
      rw [tokensOf_eq]
      exact List.forall_mem_map.2 fun t ht ↦ starts (hfields t ht) rfl
    · refine hlist.bind (fun vs _ ↦ ⟨_, rfl⟩) ?_
      rintro _ rfl
      exact .pass (fun _ h ↦ h) (.pure rfl)

end Ty

/-! ## Constants -/

namespace Constant

/-- Induction over constants, with the hypothesis for all elements. -/
@[elab_as_elim] theorem induct {P : Constant → Prop} (int : ∀ v, P (.int v))
    (symbol : ∀ name, P (.symbol name)) (zero : P .zero)
    (struct : ∀ elements, (∀ c ∈ elements, P c) → P (.struct elements))
    (array : ∀ elements, (∀ c ∈ elements, P c) → P (.array elements)) (c : Constant) : P c :=
  @Constant.rec P (fun cs ↦ ∀ c ∈ cs, P c) int symbol zero struct array
    (fun _ h ↦ absurd h List.not_mem_nil)
    (fun _ _ hc hcs _ h ↦ (List.mem_cons.1 h).elim (fun hs ↦ hs ▸ hc) (hcs _)) c

theorem tokensOf_eq (cs : List Constant) : tokensOf cs = cs.map tokens := by
  induction cs with
  | nil => rfl
  | cons c cs ih => rw [tokensOf, ih, List.map_cons]

mutual

def tree : Constant → ConstantTree
  | .int v => .int (decimal v)
  | .symbol name => .symbol name
  | .zero => .zero
  | .struct elements => .struct (trees elements)
  | .array elements => .array (trees elements)

def trees : List Constant → List ConstantTree
  | [] => []
  | c :: cs => tree c :: trees cs

end

theorem trees_eq (cs : List Constant) : trees cs = cs.map tree := by
  induction cs with
  | nil => rfl
  | cons c cs ih => rw [trees, ih, List.map_cons]

end Constant

def Source.Expect.takesConstants (e : Expect) : Bool :=
  e.const && e.global && e.takes (.mark "zeroinitializer") && e.takes (.mark "[") &&
    e.takes (.mark "\x7b")

namespace Constant

theorem starts {c : Constant} {e : Expect} (he : e.takesConstants = true) :
    e.Starts c.tokens := by
  simp only [Expect.takesConstants, Bool.and_eq_true] at he
  obtain ⟨⟨⟨⟨hconst, hglobal⟩, hzero⟩, harray⟩, hstruct⟩ := he
  cases c with
  | int v => exact Expect.starts_cons hconst
  | symbol name => exact Expect.starts_cons hglobal
  | zero => exact Expect.starts_cons hzero
  | struct elements => exact Expect.starts_cons hstruct
  | array elements => exact Expect.starts_cons harray

/-- A list of constants between two marks is read from its tokens. -/
theorem reads_list (mark close : String) {elements : List Constant}
    (build : List ConstantTree → ConstantTree)
    (hstart : (Expect.constants.orMarks [close]).takesConstants = true)
    (hclose : (Expect.constants.orMarks [close]).takes (.mark close) = true)
    (hafter : Expect.afterConstant.takes (.mark close) = true)
    (hopen : Expect.constants.takes (.mark close) = false) (hne : close ≠ ",")
    (hreads : ∀ c ∈ elements, ∀ n, 2 * c.tokens.length ≤ n →
      Reads (constant n) c.tokens Expect.afterConstant.Meets (c.tree = ·)) {n : Nat}
    (hn : 2 * (separated (tokensOf elements)).length + 2 ≤ n) :
    Reads (do
      Reading.advance (Expect.constants.orMarks [close])
      let elements ← constantList close n
      Reading.pass close .afterConstant
      return build elements) (.mark mark :: (separated (tokensOf elements) ++ [.mark close]))
      Expect.afterConstant.Meets (build (trees elements) = ·) := by
  rw [tokensOf_eq] at hn ⊢
  rw [trees_eq]
  have hlist : Reads (constantList close n) (separated (elements.map tokens)) (Closes close)
      (elements.map tree = ·) := by
    obtain ⟨n, rfl⟩ : ∃ k, n = k + 1 := ⟨n - 1, by omega⟩
    rw [constantList]
    exact .commaList Expect.constants (fun n ↦ by rw [moreConstants]) rfl hafter hne
      (fun c _ ↦ starts rfl) hopen hreads (by omega)
  refine .advance (fun vs _ ↦ ?_) (hlist.bind (fun vs _ ↦ ⟨_, rfl⟩) ?_)
  · refine ((Expect.starts_separated hclose ?_).append vs).meets
    exact List.forall_mem_map.2 fun c _ ↦ starts hstart
  · rintro _ rfl
    exact .pass (fun _ h ↦ h) (.pure rfl)

theorem reads {c : Constant} {n : Nat} (hn : 2 * c.tokens.length ≤ n) :
    Reads (constant n) c.tokens Expect.afterConstant.Meets (c.tree = ·) := by
  induction c using Constant.induct generalizing n with
  | int v | symbol name | zero =>
    obtain ⟨n, rfl⟩ : ∃ k, n = k + 1 :=
      ⟨n - 1, by simp only [tokens, List.length_cons] at hn; omega⟩
    rw [constant]
    exact .token (.advance (fun _ h ↦ h) (.pure rfl))
  | struct elements ih =>
    simp only [tokens, List.length_cons, List.length_append] at hn
    obtain ⟨n, rfl⟩ : ∃ k, n = k + 1 := ⟨n - 1, by omega⟩
    rw [constant]
    exact .token (reads_list "\x7b" "\x7d" .struct rfl rfl rfl rfl (by decide)
      (fun c hc _ ↦ ih c hc) (by omega))
  | array elements ih =>
    simp only [tokens, List.length_cons, List.length_append] at hn
    obtain ⟨n, rfl⟩ : ∃ k, n = k + 1 := ⟨n - 1, by omega⟩
    rw [constant]
    exact .token (reads_list "[" "]" .array rfl rfl rfl rfl (by decide)
      (fun c hc _ ↦ ih c hc) (by omega))

end Constant

/-! ## Operands and labels -/

def Source.Expect.takesOperands (e : Expect) : Bool :=
  e.var && !e.structName && e.global && e.const

namespace Operand

def atom : Operand → Atom
  | .var x _ => .var x
  | .literal v _ => .const (literalNumeral v)
  | .symbol x => .symbol x

theorem takes_token (o : Operand) {e : Expect} (he : e.takesOperands = true) :
    e.takes o.token = true := by
  simp only [Expect.takesOperands, Bool.and_eq_true] at he
  obtain ⟨⟨⟨hvar, hname⟩, hglobal⟩, hconst⟩ := he
  cases o with
  | var x t => exact Bool.and_eq_true_iff.2 ⟨hvar, hname⟩
  | literal v w => exact hconst
  | symbol x => exact hglobal

theorem reads (o : Operand) :
    Reads Source.atom [o.token] Expect.afterOperand.Meets (o.atom = ·) := by
  cases o with
  | var x t | literal v w | symbol x => exact .token (.advance (fun _ h ↦ h) (.pure rfl))

theorem reads_comma (o : Operand) :
    Reads commaAtom [.mark ",", o.token] Expect.afterOperand.Meets (o.atom = ·) :=
  .pass (fun _ _ ↦ (Expect.starts_cons (o.takes_token rfl)).meets) o.reads

end Operand

theorem reads_commaLabel (l : String) :
    Reads commaLabel [.mark ",", .global l] Expect.afterLabel.Meets (l = ·) :=
  .pass (fun _ _ ↦ (Expect.starts_cons rfl).meets) .globalName

/-- A keyword and a type. -/
theorem Source.Reads.typed {β : Type} {t : Ty} {n : Nat} {m : String} {f : TypeTree → Reading β}
    {us : List Token} {G : List Token → Prop} {Q : β → Prop} (ht : t.IsSpelled)
    (hn : 2 * t.tokens.length ≤ n) (hus : Expect.afterType.Starts us)
    (hf : Reads (f t.tree) us G Q) :
    Reads (do Reading.advance .types; f (← typeTree n)) (.mark m :: (t.tokens ++ us)) G Q := by
  have hstart : Expect.types.Starts t.tokens := Ty.starts ht rfl
  exact .advance (fun vs _ ↦ ((hstart.append us).append vs).meets) (.seq (Ty.reads ht hn) hus hf)

/-! ## Calls -/

/-- The tree of a type that is returned; none stands for `void`. -/
def Ty.tree? (t : Ty) : Option TypeTree := if t = .void then none else some t.tree

theorem Ty.tree?_of_isSpelled {t : Ty} (ht : t.IsSpelled) : t.tree? = some t.tree := by
  refine if_neg ?_
  rintro rfl
  exact ht

/-- A type is read from its tokens, also if it is the one of nothing. -/
theorem Ty.reads_void {t : Ty} (ht : t = .void ∨ t.IsSpelled) {e : Expect} {n : Nat}
    (hn : 2 * t.tokens.length ≤ n) :
    Reads (typeOrVoid n e) t.tokens
      (fun us ↦ (t = .void → e.Meets us) ∧ (t.IsSpelled → Expect.afterType.Meets us))
      (t.tree? = ·) := by
  rcases ht with rfl | ht
  · exact .isAt_true (fun vs _ ↦ ⟨vs, rfl⟩) (.advance (fun vs hvs ↦ hvs.1 rfl) (.pure rfl))
  · have hstart : Expect.types.Starts t.tokens := Ty.starts ht rfl
    rw [Ty.tree?_of_isSpelled ht]
    refine .isAt_false (fun vs _ ↦ (hstart.append vs).not_closes rfl) ?_
    exact (Ty.reads ht hn).last (fun vs hvs ↦ hvs.2 ht) (.pure rfl)

theorem Ty.starts_void {t : Ty} (ht : t = .void ∨ t.IsSpelled) :
    Expect.typesOrVoid.Starts t.tokens := by
  rcases ht with rfl | ht
  · exact Expect.starts_cons rfl
  · exact Ty.starts ht rfl

theorem Callee.reads (c : Callee) :
    Reads callee [c.operand.token] (Expect.ofMarks ["("]).Meets (c = ·) := by
  cases c with
  | direct name | indirect pointer => exact .token (.advance (fun _ h ↦ h) (.pure rfl))

namespace Call

def tree (c : Call) : CallTree :=
  ⟨c.returns.tree?, c.callee, c.args.map fun a ↦ (a.ty.tree, a.atom)⟩

theorem reads_arg {a : Operand} (ha : a.IsSpelled) {n : Nat}
    (hn : 2 * (a.ty.tokens ++ [a.token]).length ≤ n) :
    Reads (callArg n) (a.ty.tokens ++ [a.token]) Expect.afterOperand.Meets
      ((a.ty.tree, a.atom) = ·) := by
  rw [List.length_append] at hn
  refine .seq (Ty.reads ha.ty (by omega)) (Expect.starts_cons (a.takes_token rfl)) ?_
  exact a.reads.last (fun _ h ↦ h) (.pure rfl)

/-- The arguments of a call are read from their tokens. -/
theorem reads_args {args : List Operand} (hargs : ∀ a ∈ args, a.IsSpelled) {n : Nat}
    (hn : 2 * (separated (args.map fun a ↦ a.ty.tokens ++ [a.token])).length + 1 ≤ n) :
    Reads (callArgs n) (separated (args.map fun a ↦ a.ty.tokens ++ [a.token])) (Closes ")")
      (args.map (fun a ↦ (a.ty.tree, a.atom)) = ·) :=
  .commaList Expect.types (fun n ↦ by rw [moreCallArgs]) rfl rfl (by decide)
    (fun a ha ↦ (Ty.starts (hargs a ha).ty rfl).append _) rfl
    (fun a ha _ hn ↦ reads_arg (hargs a ha) hn) hn

theorem reads {c : Call} (hc : c.IsSpelled) {n : Nat} (hn : 2 * c.tokens.length ≤ n) :
    Reads (callTree n) c.tokens Expect.body.Meets (c.tree = ·) := by
  obtain ⟨hreturns, hcallee, hargs⟩ := hc
  simp only [tokens, List.length_cons, List.length_append] at hn
  have hcallees : Expect.callees.takes c.callee.operand.token = true := by
    cases c.callee <;> rfl
  refine .advance (fun vs _ ↦ (((Ty.starts_void hreturns).append _).append vs).meets) ?_
  refine (Ty.reads_void hreturns (by omega)).bind (fun vs _ ↦ ⟨fun _ ↦ ?_, fun _ ↦ ?_⟩) ?_
  · exact (Expect.starts_cons hcallees).meets
  · exact (Expect.starts_cons (c.callee.operand.takes_token rfl)).meets
  · rintro _ rfl
    refine .seq c.callee.reads (Expect.starts_cons rfl) ?_
    have hlist := reads_args hargs (n := n) (by omega)
    refine .pass (fun vs _ ↦ ?_) (hlist.bind (fun vs _ ↦ ⟨_, rfl⟩) ?_)
    · refine ((Expect.starts_separated rfl ?_).append vs).meets
      exact List.forall_mem_map.2 fun a ha ↦ (Ty.starts (hargs a ha).ty rfl).append _
    · rintro _ rfl
      exact .pass (fun _ h ↦ h) (.pure rfl)

end Call

/-! ## Values -/

/-- Pairs of phrases, each after a comma. -/
theorem flatMap_pairs {β : Type} (f g : β → List Token) (xs : List β) :
    (xs.flatMap fun x ↦ [f x, g x]).flatMap (.mark "," :: ·) =
      xs.flatMap fun x ↦ .mark "," :: (f x ++ .mark "," :: g x) := by
  induction xs with
  | nil => rfl
  | cons x xs ih => simp [List.flatMap_cons, ih]

namespace Value

def tree : Value → ValueTree
  | .binary op t a b => .binary op t.tree a.atom b.atom
  | .compare op t a b => .compare op t.tree a.atom b.atom
  | .cast op s a t => .cast op s.tree a.atom t.tree
  | .select t c a b => .select t.tree c.atom a.atom b.atom
  | .phi t entries => .phi t.tree (entries.map fun e ↦ (e.label, e.value.atom))
  | .load t p => .load t.tree p.atom
  | .alloca t => .alloca t.tree
  | .field t p i => .field t.tree p.atom (literalNumeral i)
  | .elem t p i => .elem t.tree p.atom i.ty.tree i.atom
  | .call c => .call c.tree

def after : Value → Expect
  | .binary _ _ _ _ | .compare _ _ _ _ | .select _ _ _ _ | .phi _ _ | .load _ _ | .elem _ _ _ =>
    .afterOperand
  | .cast _ _ _ _ | .alloca _ => .afterType
  | .field _ _ _ | .call _ => .body

theorem ofName?_binaryOp (op : BinaryOp) : BinaryOp.ofName? op.name = some op := by
  cases op <;> rfl

/-- A comparison is found by its name, which is no name of another operation. -/
theorem ofName?_comparison (op : Comparison) :
    BinaryOp.ofName? op.name = none ∧ Comparison.ofName? op.name = some op := by
  cases op <;> exact ⟨rfl, rfl⟩

/-- A cast is found by its name, which is no name of another operation. -/
theorem ofName?_castOp (op : CastOp) : BinaryOp.ofName? op.name = none ∧
    Comparison.ofName? op.name = none ∧ CastOp.ofName? op.name = some op := by
  cases op <;> exact ⟨rfl, rfl, rfl⟩

theorem starts (v : Value) : Expect.values.Starts v.tokens := by
  cases v with
  | binary op t a b =>
    have hop : Expect.values.takes (.mark op.name) = true := by cases op <;> rfl
    exact Expect.starts_cons hop
  | compare op t a b =>
    have hop : Expect.values.takes (.mark op.name) = true := by cases op <;> rfl
    exact Expect.starts_cons hop
  | cast op s a t =>
    have hop : Expect.values.takes (.mark op.name) = true := by cases op <;> rfl
    exact Expect.starts_cons hop
  | select | phi | load | alloca | field | elem | call => exact Expect.starts_cons rfl

theorem reads_entry (e : PhiEntry) :
    Reads phiEntry [.global e.label, .mark ",", e.value.token] Expect.afterOperand.Meets
      ((e.label, e.value.atom) = ·) :=
  .seq .globalName (Expect.starts_cons rfl) (e.value.reads_comma.last (fun _ h ↦ h) (.pure rfl))

/-- The entries of a phi are read from their tokens. -/
theorem reads_entries {entries : List PhiEntry} {n : Nat}
    (hn : 2 * ((entryTokens entries).flatMap (.mark "," :: ·)).length + 1 ≤ n) :
    Reads (morePhiEntries n) ((entryTokens entries).flatMap (.mark "," :: ·))
      Expect.afterOperand.Ends (entries.map (fun e ↦ (e.label, e.value.atom)) = ·) := by
  rw [entryTokens, flatMap_pairs] at hn ⊢
  exact .commas Expect.globals (fun n ↦ by rw [morePhiEntries]) rfl
    (fun e _ ↦ Expect.starts_cons rfl) (fun e _ _ _ ↦ reads_entry e) hn

theorem reads {v : Value} (hv : v.IsSpelled) {n : Nat} (hn : 2 * v.tokens.length ≤ n) :
    Reads (valueTree n) v.tokens v.after.Ends (v.tree = ·) := by
  cases v with
  | binary op t a b =>
    obtain ⟨ht, -⟩ := hv
    simp only [tokens, List.length_cons, List.length_append] at hn
    refine .token ?_
    simp only [ofName?_binaryOp]
    refine .typed ht (by omega) (Expect.starts_cons (a.takes_token rfl)) ?_
    refine .seq a.reads (Expect.starts_cons rfl) ?_
    exact b.reads_comma.last (fun _ h ↦ h.1) (.pure rfl)
  | compare op t a b =>
    obtain ⟨ht, -⟩ := hv
    simp only [tokens, List.length_cons, List.length_append] at hn
    refine .token ?_
    simp only [ofName?_comparison]
    refine .typed ht (by omega) (Expect.starts_cons (a.takes_token rfl)) ?_
    refine .seq a.reads (Expect.starts_cons rfl) ?_
    exact b.reads_comma.last (fun _ h ↦ h.1) (.pure rfl)
  | cast op s a t =>
    obtain ⟨hs, -, ht⟩ := hv
    simp only [tokens, List.length_cons, List.length_append] at hn
    have hstart : Expect.types.Starts t.tokens := Ty.starts ht rfl
    refine .token ?_
    simp only [ofName?_castOp]
    refine .typed hs (by omega) (Expect.starts_cons (a.takes_token rfl)) ?_
    refine .seq a.reads (Expect.starts_cons rfl) ?_
    refine .pass (fun vs _ ↦ (hstart.append vs).meets) ?_
    exact (Ty.reads ht (by omega)).last (fun _ h ↦ h.1) (.pure rfl)
  | select t c a b =>
    obtain ⟨ht, -⟩ := hv
    simp only [tokens, List.length_cons, List.length_append] at hn
    refine .token ?_
    refine .typed ht (by omega) (Expect.starts_cons (c.takes_token rfl)) ?_
    refine .seq c.reads (Expect.starts_cons rfl) ?_
    refine .seq a.reads_comma (Expect.starts_cons rfl) ?_
    exact b.reads_comma.last (fun _ h ↦ h.1) (.pure rfl)
  | phi t entries =>
    obtain ⟨ht, hne, -⟩ := hv
    obtain ⟨e, entries, rfl⟩ := List.exists_cons_of_ne_nil hne
    have htokens : (Value.phi t (e :: entries)).tokens = .mark "phi" :: (t.tokens ++
        ([.global e.label, .mark ",", e.value.token] ++
          (entryTokens entries).flatMap (.mark "," :: ·))) := rfl
    rw [htokens] at hn ⊢
    simp only [List.length_cons, List.length_append] at hn
    refine .token ?_
    refine .typed ht (by omega) (Expect.starts_cons rfl) ?_
    refine (reads_entry e).bind (fun vs hvs ↦ hvs.1.flatMap rfl _) ?_
    rintro _ rfl
    exact (reads_entries (by omega)).last (fun _ h ↦ h) (.pure rfl)
  | load t p =>
    obtain ⟨ht, -⟩ := hv
    simp only [tokens, List.length_cons, List.length_append] at hn
    refine .token ?_
    refine .typed ht (by omega) (Expect.starts_cons (p.takes_token rfl)) ?_
    exact p.reads.last (fun _ h ↦ h.1) (.pure rfl)
  | alloca t =>
    simp only [tokens, List.length_cons] at hn
    have hstart : Expect.types.Starts t.tokens := Ty.starts hv rfl
    refine .token ?_
    refine .advance (fun vs _ ↦ (hstart.append vs).meets) ?_
    exact (Ty.reads hv (by omega)).last (fun _ h ↦ h.1) (.pure rfl)
  | field t p i =>
    obtain ⟨ht, -⟩ := hv
    simp only [tokens, List.length_cons, List.length_append] at hn
    refine .token ?_
    refine .typed ht (by omega) (Expect.starts_cons rfl) ?_
    refine .seq p.reads_comma (Expect.starts_cons rfl) ?_
    refine .pass (fun _ _ ↦ (Expect.starts_cons rfl).meets) ?_
    exact Reads.constValue.last (fun _ h ↦ h.1) (.pure rfl)
  | elem t p i =>
    obtain ⟨ht, -, hi⟩ := hv
    simp only [tokens, List.length_cons, List.length_append] at hn
    have hstart : Expect.types.Starts i.ty.tokens := Ty.starts hi.ty rfl
    refine .token ?_
    refine .typed ht (by omega) (Expect.starts_cons rfl) ?_
    refine .seq p.reads_comma (Expect.starts_cons rfl) ?_
    refine .pass (fun vs _ ↦ ((hstart.append _).append vs).meets) ?_
    refine .seq (Ty.reads hi.ty (by omega)) (Expect.starts_cons (i.takes_token rfl)) ?_
    exact i.reads.last (fun _ h ↦ h.1) (.pure rfl)
  | call c =>
    refine .token ?_
    exact (Call.reads hv hn).last (fun _ h ↦ h.1) (.pure rfl)

end Value

/-! ## Statements -/

namespace Terminator

def tree : Terminator → StatementTree
  | .jmp l => .jmp l
  | .jnz c l r => .jnz c.atom l r
  | .switch t c l cases =>
    .switch t.tree c.atom l (cases.map fun k ↦ (literalNumeral k.value, k.label))
  | .ret t v => .ret t.tree v.atom
  | .retVoid => .retVoid
  | .unreachable => .unreachable

def after : Terminator → Expect
  | .jmp _ | .jnz _ _ _ | .switch _ _ _ _ => .afterLabel
  | .ret _ _ => .afterOperand
  | .retVoid | .unreachable => .body

theorem reads_case (k : SwitchCase) :
    Reads switchCase [.const (literalNumeral k.value), .mark ",", .global k.label]
      Expect.afterLabel.Meets ((literalNumeral k.value, k.label) = ·) :=
  .seq .constValue (Expect.starts_cons rfl)
    ((reads_commaLabel k.label).last (fun _ h ↦ h) (.pure rfl))

/-- The cases of a switch are read from their tokens. -/
theorem reads_cases {cases : List SwitchCase} {n : Nat}
    (hn : 2 * ((caseTokens cases).flatMap (.mark "," :: ·)).length + 1 ≤ n) :
    Reads (switchCases n) ((caseTokens cases).flatMap (.mark "," :: ·))
      Expect.afterLabel.Ends (cases.map (fun k ↦ (literalNumeral k.value, k.label)) = ·) := by
  rw [caseTokens, flatMap_pairs] at hn ⊢
  exact .commas Expect.consts (fun n ↦ by rw [switchCases]) rfl
    (fun k _ ↦ Expect.starts_cons rfl) (fun k _ _ _ ↦ reads_case k) hn

theorem reads {t : Terminator} (ht : t.IsSpelled) {n : Nat} (hn : 2 * t.tokens.length ≤ n) :
    Reads (statement n) t.tokens t.after.Ends (t.tree = ·) := by
  cases t with
  | jmp l =>
    refine .token (.advance (fun _ _ ↦ (Expect.starts_cons rfl).meets) ?_)
    exact Reads.globalName.last (fun _ h ↦ h.1) (.pure rfl)
  | jnz c l r =>
    refine .token (.advance (fun _ _ ↦ (Expect.starts_cons (c.takes_token rfl)).meets) ?_)
    refine .seq c.reads (Expect.starts_cons rfl) ?_
    refine .seq (reads_commaLabel l) (Expect.starts_cons rfl) ?_
    exact (reads_commaLabel r).last (fun _ h ↦ h.1) (.pure rfl)
  | switch t c l cases =>
    obtain ⟨ht, -⟩ := ht
    have htokens : (Terminator.switch t c l cases).tokens = .mark "switch" :: (t.tokens ++
        c.token :: ([.mark ",", .global l] ++ (caseTokens cases).flatMap (.mark "," :: ·))) := rfl
    rw [htokens] at hn ⊢
    simp only [List.length_cons, List.length_append] at hn
    refine .token ?_
    refine .typed ht (by omega) (Expect.starts_cons (c.takes_token rfl)) ?_
    refine .seq c.reads (Expect.starts_cons rfl) ?_
    refine (reads_commaLabel l).bind (fun vs hvs ↦ hvs.1.flatMap rfl _) ?_
    rintro _ rfl
    exact (reads_cases (by omega)).last (fun _ h ↦ h) (.pure rfl)
  | ret t v =>
    obtain ⟨ht, -⟩ := ht
    simp only [tokens, List.length_cons, List.length_append] at hn
    refine .token (.advance (fun vs _ ↦ (((Ty.starts_void (.inr ht)).append _).append vs).meets) ?_)
    refine (Ty.reads_void (.inr ht) (by omega)).bind (fun vs _ ↦ ⟨fun h ↦ ?_, fun _ ↦ ?_⟩) ?_
    · rw [h] at ht
      exact ht.elim
    · exact (Expect.starts_cons (v.takes_token rfl)).meets
    · rintro _ rfl
      rw [Ty.tree?_of_isSpelled ht]
      exact v.reads.last (fun _ h ↦ h.1) (.pure rfl)
  | retVoid =>
    simp only [tokens, List.length_cons, List.length_nil] at hn
    refine .token (.advance (fun _ _ ↦ (Expect.starts_cons rfl).meets) ?_)
    have hvoid : Reads (typeOrVoid n .body) [.mark "void"] _ _ :=
      Ty.reads_void (.inl rfl) (by simp only [Ty.tokens, List.length_cons, List.length_nil]; omega)
    exact hvoid.last (fun vs hvs ↦ ⟨fun _ ↦ hvs.1, False.elim⟩) (.pure rfl)
  | unreachable =>
    exact .token (.advance (fun _ h ↦ h.1) (.pure rfl))

end Terminator

namespace Action

def tree : Action → StatementTree
  | .assign x v => .assign x v.tree
  | .store t v p => .store t.tree v.atom p.atom
  | .call c => .call c.tree
  | .finish t => t.tree

def after : Action → Expect
  | .assign _ v => v.after
  | .store _ _ _ => .afterOperand
  | .call _ => .body
  | .finish t => t.after

theorem reads {a : Action} (ha : a.IsSpelled) {n : Nat} (hn : 2 * a.tokens.length ≤ n) :
    Reads (statement n) a.tokens a.after.Ends (a.tree = ·) := by
  cases a with
  | assign x v =>
    simp only [tokens, List.length_cons] at hn
    refine .token (.advance (fun _ _ ↦ (Expect.starts_cons rfl).meets) ?_)
    refine .pass (fun vs _ ↦ (v.starts.append vs).meets) ?_
    exact (Value.reads ha.2.1 (by omega)).last (fun _ h ↦ h) (.pure rfl)
  | store t v p =>
    simp only [tokens, List.length_cons, List.length_append] at hn
    refine .token ?_
    refine .typed ha.1 (by omega) (Expect.starts_cons (v.takes_token rfl)) ?_
    refine .seq v.reads (Expect.starts_cons rfl) ?_
    exact p.reads_comma.last (fun _ h ↦ h.1) (.pure rfl)
  | call c =>
    refine .token ?_
    exact (Call.reads ha hn).last (fun _ h ↦ h.1) (.pure rfl)
  | finish t => exact Terminator.reads ha hn

end Action

end RangeFlow
