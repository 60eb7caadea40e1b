import Mathlib.Data.List.Forall2
import RangeFlow.Program.Text
import RangeFlow.Proofs.Source.Lexeme
import RangeFlow.Source.Build

/-!
# Programs as sequences of tokens

The text of a program spells a sequence of tokens: at every place the reader finds the next token
of the sequence, provided that it is expected there.  What is asked of the names in a program is
what the reader asks of them (`IsSpelled`).
-/

namespace RangeFlow.Source

/-! ## Texts and tokens -/

/-- A text reads as tokens wherever these are expected. -/
inductive Spells : List Token → List Char → Prop
  | nil {cs : List Char} : skipped cs = [] → Spells [] cs
  | cons {t : Token} {ts : List Token} {cs rest : List Char} :
    (∀ e : Expect, e.takes t = true → lex e cs = some (t, rest)) → rest.length < cs.length →
    Spells ts rest → Spells (t :: ts) cs

namespace Spells

variable {ts : List Token} {cs : List Char} {x m : String}

/-- A text has at least as many characters as tokens. -/
theorem length_le (h : Spells ts cs) : ts.length ≤ cs.length := by
  induction h with
  | nil => exact Nat.zero_le _
  | cons _ hlt _ ih => exact Nat.succ_le_of_lt (ih.trans_lt hlt)

theorem blank {c : Char} (hc : isBlank c = true) (h : Spells ts cs) : Spells ts (c :: cs) := by
  cases h with
  | nil h => exact .nil (by rw [skipped_blank hc, h])
  | cons hlex hlt hrest =>
    refine .cons (fun e he ↦ ?_) (Nat.lt_succ_of_lt hlt) hrest
    rw [lex_blank hc, hlex e he]

theorem intType {n : Nat} (hcs : Stops cs) (h : Spells ts cs) :
    Spells (.intType (decimal n) :: ts) ('i' :: (Nat.toDigits 10 n ++ cs)) := by
  refine .cons (fun e he ↦ lex_intType he hcs) ?_ h
  simp only [List.length_cons, List.length_append]
  omega

theorem structName (hx : isIdentifier x = true) (hcs : Stops cs) (h : Spells ts cs) :
    Spells (.structName x :: ts) ('%' :: (x.toList ++ cs)) := by
  refine .cons (fun e he ↦ lex_structName he hx hcs) ?_ h
  simp only [List.length_cons, List.length_append]
  omega

theorem var (hx : isVarName x = true) (hcs : Breaks cs) (h : Spells ts cs) :
    Spells (.var x :: ts) ('%' :: (x.toList ++ cs)) := by
  refine .cons (fun e he ↦ lex_var he hx hcs) ?_ h
  simp only [List.length_cons, List.length_append]
  omega

/-- The name of a global in front is one more token. -/
theorem global (hx : isSymbolName x = true) (hcs : Stops cs) (h : Spells ts cs) :
    Spells (.global x :: ts) ('@' :: (x.toList ++ cs)) := by
  refine .cons (fun e he ↦ lex_global he hx hcs) ?_ h
  simp only [List.length_cons, List.length_append]
  omega

theorem decimal {v : Int} (hcs : Stops cs) (h : Spells ts cs) :
    Spells (.const (decimal v) :: ts) (decimalChars v ++ cs) := by
  refine .cons (fun e he ↦ lex_decimal he hcs) ?_ h
  have hpos : 0 < (decimalChars v).length := by
    cases v with
    | ofNat n => exact Nat.length_toDigits_pos
    | negSucc n => exact Nat.succ_pos _
  simp only [List.length_append]
  omega

/-- A hexadecimal number in front is one more token. -/
theorem hexadecimal {n : Nat} (hcs : Stops cs) (h : Spells ts cs) :
    Spells (.const (hexadecimal n) :: ts) ('0' :: 'x' :: (Nat.toDigits 16 n ++ cs)) := by
  refine .cons (fun e he ↦ lex_hexadecimal he hcs) ?_ h
  simp only [List.length_cons, List.length_append]
  omega

theorem length_lt_of_isIdentifier (hx : isIdentifier x = true) :
    cs.length < (x.toList ++ cs).length := by
  obtain ⟨c, s, hxs, -⟩ := isIdentifier_iff.1 hx
  simp only [hxs, List.length_append, List.length_cons]
  omega

theorem ident (hx : isIdentifier x = true) (hcs : Stops cs) (h : Spells ts cs) :
    Spells (.ident x :: ts) (x.toList ++ cs) :=
  .cons (fun _ he ↦ lex_ident he hx hcs) (length_lt_of_isIdentifier hx) h

theorem word (m : String) (hm : isIdentifier m = true) (hcs : Stops cs) (h : Spells ts cs) :
    Spells (.mark m :: ts) (m.toList ++ cs) :=
  .cons (fun _ he ↦ lex_word he hm hcs) (length_lt_of_isIdentifier hm) h

theorem mark (m : String) (hm : m ∈ punctuation) (h : Spells ts cs) :
    Spells (.mark m :: ts) (m.toList ++ cs) := by
  refine .cons (fun e he ↦ lex_punctuation he hm cs) ?_ h
  obtain ⟨c, s, hms, -⟩ := exists_cons_of_punctuation hm cs
  simp only [hms, List.length_append, List.length_cons]
  omega

end Spells

/-- A text spells tokens before any text that ends its last name or number. -/
def Renders (s : String) (ts : List Token) : Prop :=
  ∀ ⦃us : List Token⦄ ⦃cs : List Char⦄, Breaks cs → Spells us cs →
    Spells (ts ++ us) (s.toList ++ cs)

theorem renders_empty : Renders "" [] := fun _ _ _ h ↦ h

/-- Phrases with commas between them. -/
def separated : List (List Token) → List Token
  | [] => []
  | ts :: tss => ts ++ tss.flatMap (.mark "," :: ·)

theorem separated_cons (ts : List Token) (tss : List (List Token)) :
    separated (ts :: tss) = ts ++ tss.flatMap (.mark "," :: ·) := rfl

theorem separated_cons_cons (ts us : List Token) (tss : List (List Token)) :
    separated (ts :: us :: tss) = ts ++ .mark "," :: separated (us :: tss) := rfl

/-- A list with commas renders the tokens of its elements with commas between them. -/
theorem Renders.commaList {ss : List String} {tss : List (List Token)}
    (h : List.Forall₂ Renders ss tss) : Renders (commaList ss) (separated tss) := by
  intro us cs hcs hus
  induction h with
  | nil => exact hus
  | @cons s ts ss tss hs hss ih =>
    cases hss with
    | nil =>
      rw [RangeFlow.commaList, String.intercalate_singleton]
      simpa [separated] using hs hcs hus
    | cons hs' hss' =>
      rw [separated_cons_cons]
      simp only [RangeFlow.commaList, String.intercalate_cons_cons, String.toList_append,
        String.reduceToList, List.append_assoc, List.cons_append, List.nil_append] at ih ⊢
      exact hs (breaks_cons rfl) (.mark "," (by decide) (.blank rfl ih))

theorem Renders.lines {ss : List String} {tss : List (List Token)}
    (h : List.Forall₂ Renders ss tss) : Renders ("\n".intercalate ss) tss.flatten := by
  intro us cs hcs hus
  induction h with
  | nil => exact hus
  | @cons s ts ss tss hs hss ih =>
    cases hss with
    | nil =>
      rw [String.intercalate_singleton]
      simpa using hs hcs hus
    | cons hs' hss' =>
      simp only [String.intercalate_cons_cons, String.toList_append, String.reduceToList,
        List.flatten_cons, List.append_assoc, List.cons_append, List.nil_append] at ih ⊢
      exact hs (breaks_cons rfl) (.blank rfl ih)

theorem toList_toString (v : Int) : (toString v).toList = decimalChars v := by
  cases v with
  | ofNat n =>
    show (toString n).toList = decimalChars (.ofNat n)
    rw [Nat.toString_eq_repr, Nat.toList_repr, decimalChars]
  | negSucc n =>
    show ("-" ++ toString (n + 1)).toList = decimalChars (.negSucc n)
    rw [String.toList_append, Nat.toString_eq_repr, Nat.toList_repr]
    rfl

end RangeFlow.Source

namespace RangeFlow

open Source

/-! ## Types and constants -/

namespace Ty

mutual

/-- The names in a type can be read, and `void` is no part of it. -/
def IsSpelled : Ty → Prop
  | .int _ | .ptr => True
  | .void => False
  | .array _ element => IsSpelled element
  | .named name => isIdentifier name = true
  | .literal fields => AreSpelled fields

def AreSpelled : List Ty → Prop
  | [] => True
  | t :: ts => IsSpelled t ∧ AreSpelled ts

end

mutual

def tokens : Ty → List Token
  | .int w => [.intType (decimal w.bits)]
  | .ptr => [.mark "ptr"]
  | .void => [.mark "void"]
  | .array count element =>
    .mark "[" :: .const (decimal count) :: .mark "x" :: (tokens element ++ [.mark "]"])
  | .named name => [.structName name]
  | .literal fields => .mark "\x7b" :: (separated (tokensOf fields) ++ [.mark "\x7d"])

def tokensOf : List Ty → List (List Token)
  | [] => []
  | t :: ts => tokens t :: tokensOf ts

end

mutual

/-- The text of a type renders its tokens. -/
theorem renders : (t : Ty) → t.IsSpelled → Renders t.text t.tokens
  | .int w, _ => fun us cs hcs h ↦ by
    show Spells (.intType (decimal w.bits) :: us) (("i" ++ toString w.bits).toList ++ cs)
    rw [String.toList_append, Nat.toString_eq_repr, Nat.toList_repr]
    exact .intType hcs.stops h
  | .ptr, _ => fun us cs hcs h ↦ .word "ptr" rfl hcs.stops h
  | .array count element, ht => fun us cs hcs h ↦ by
    show Spells (.mark "[" :: .const (decimal count) :: .mark "x" ::
      (element.tokens ++ [.mark "]"]) ++ us)
      (("[" ++ toString count ++ " x " ++ element.text ++ "]").toList ++ cs)
    simp only [String.toList_append, toList_toString, String.reduceToList, List.append_assoc,
      List.cons_append, List.nil_append]
    refine .mark "[" (by decide) (.decimal (breaks_cons rfl).stops (.blank rfl ?_))
    refine .word "x" rfl (breaks_cons rfl).stops (.blank rfl ?_)
    exact renders element ht (breaks_cons rfl) (.mark "]" (by decide) h)
  | .named name, ht => fun us cs hcs h ↦ by
    rw [text, String.toList_append]
    exact .structName ht hcs.stops h
  | .literal fields, ht => fun us cs hcs h ↦ by
    have hfields := Renders.commaList (renders_texts fields ht)
    simp only [text, tokens, String.toList_append, String.reduceToList, List.append_assoc,
      List.cons_append, List.nil_append]
    refine .mark "\x7b" (by decide) (.blank rfl (hfields (breaks_cons rfl) (.blank rfl ?_)))
    exact .mark "\x7d" (by decide) h

theorem renders_texts : (ts : List Ty) → AreSpelled ts →
    List.Forall₂ Renders (texts ts) (tokensOf ts)
  | [], _ => .nil
  | t :: ts, h => .cons (renders t h.1) (renders_texts ts h.2)

end

end Ty

namespace Constant

mutual

/-- The symbols in a constant can be read. -/
def IsSpelled : Constant → Prop
  | .int _ | .zero => True
  | .symbol name => isSymbolName name = true
  | .struct elements | .array elements => AreSpelled elements

def AreSpelled : List Constant → Prop
  | [] => True
  | c :: cs => IsSpelled c ∧ AreSpelled cs

end

mutual

def tokens : Constant → List Token
  | .int v => [.const (decimal v)]
  | .symbol name => [.global name]
  | .zero => [.mark "zeroinitializer"]
  | .struct elements => .mark "\x7b" :: (separated (tokensOf elements) ++ [.mark "\x7d"])
  | .array elements => .mark "[" :: (separated (tokensOf elements) ++ [.mark "]"])

def tokensOf : List Constant → List (List Token)
  | [] => []
  | c :: cs => tokens c :: tokensOf cs

end

mutual

theorem renders : (c : Constant) → c.IsSpelled → Renders c.text c.tokens
  | .int v, _ => fun us cs hcs h ↦ by
    rw [text, toList_toString]
    exact .decimal hcs.stops h
  | .symbol name, hc => fun us cs hcs h ↦ by
    rw [text, String.toList_append]
    exact .global hc hcs.stops h
  | .zero, _ => fun us cs hcs h ↦ .word "zeroinitializer" rfl hcs.stops h
  | .struct elements, hc => fun us cs hcs h ↦ by
    have helements := Renders.commaList (renders_texts elements hc)
    simp only [text, tokens, String.toList_append, String.reduceToList, List.append_assoc,
      List.cons_append, List.nil_append]
    refine .mark "\x7b" (by decide) (.blank rfl (helements (breaks_cons rfl) (.blank rfl ?_)))
    exact .mark "\x7d" (by decide) h
  | .array elements, hc => fun us cs hcs h ↦ by
    have helements := Renders.commaList (renders_texts elements hc)
    simp only [text, tokens, String.toList_append, String.reduceToList, List.append_assoc,
      List.cons_append, List.nil_append]
    exact .mark "[" (by decide) (helements (breaks_cons rfl) (.mark "]" (by decide) h))

theorem renders_texts : (cs : List Constant) → AreSpelled cs →
    List.Forall₂ Renders (texts cs) (tokensOf cs)
  | [], _ => .nil
  | c :: cs, h => .cons (renders c h.1) (renders_texts cs h.2)

end

end Constant

/-! ## Instructions -/

/-- A number as the operand of an instruction is written. -/
def literalNumeral (v : Int) : Numeral := if v.natAbs < 1024 then decimal v else hexadecimal v

/-- A negative number is read as it is written as long as it is written in decimal. -/
theorem renders_literalText {v : Int} (hv : -1024 < v) :
    Renders (literalText v) [.const (literalNumeral v)] := by
  intro us cs hcs h
  unfold literalText literalNumeral
  split
  · rw [toList_toString]
    exact .decimal hcs.stops h
  · have hnonneg : 0 ≤ v := by omega
    obtain ⟨n, rfl⟩ := Int.eq_ofNat_of_zero_le hnonneg
    simp only [if_neg (Int.not_lt.2 hnonneg), String.toList_append, String.toList_ofList,
      String.reduceToList, Int.natAbs_natCast, List.cons_append, List.nil_append]
    exact .hexadecimal hcs.stops h

theorem renders_labelText {l : String} (hl : isSymbolName l = true) :
    Renders (labelText l) [.global l] := by
  intro us cs hcs h
  rw [labelText, String.toList_append]
  exact .global hl hcs.stops h

namespace Operand

def IsSpelled : Operand → Prop
  | .var x t => isVarName x = true ∧ t.IsSpelled
  | .literal v _ => 0 ≤ v
  | .symbol x => isSymbolName x = true

def token : Operand → Token
  | .var x _ => .var x
  | .literal v _ => .const (literalNumeral v)
  | .symbol x => .global x

theorem renders {o : Operand} (ho : o.IsSpelled) : Renders o.text [o.token] := by
  cases o with
  | var x t =>
    intro us cs hcs h
    rw [text, String.toList_append]
    exact .var ho.1 hcs h
  | literal v w =>
    refine renders_literalText ?_
    have hnonneg : 0 ≤ v := ho
    omega
  | symbol x => exact renders_labelText ho

theorem IsSpelled.ty {o : Operand} (ho : o.IsSpelled) : o.ty.IsSpelled := by
  cases o with
  | var x t => exact ho.2
  | literal v w => exact ⟨⟩
  | symbol x => exact ⟨⟩

/-- An operand with its type renders the tokens of both. -/
theorem renders_typedText {o : Operand} (ho : o.IsSpelled) :
    Renders o.typedText (o.ty.tokens ++ [o.token]) := by
  intro us cs hcs h
  simp only [typedText, String.toList_append, String.reduceToList, List.append_assoc,
    List.cons_append, List.nil_append]
  exact o.ty.renders ho.ty (breaks_cons rfl) (.blank rfl (renders ho hcs h))

end Operand

/-- A keyword, a type and what follows render their tokens. -/
theorem Source.Renders.typed {t : Ty} {s : String} {ts : List Token} (m : String)
    (hm : isIdentifier m = true) (ht : t.IsSpelled) (hs : Renders s ts) :
    Renders (m ++ " " ++ t.text ++ " " ++ s) (.mark m :: (t.tokens ++ ts)) := by
  intro us cs hcs h
  simp only [String.toList_append, String.reduceToList, List.append_assoc, List.cons_append,
    List.nil_append]
  refine .word m hm (breaks_cons rfl).stops (.blank rfl ?_)
  exact t.renders ht (breaks_cons rfl) (.blank rfl (hs hcs h))

theorem Source.Renders.pair {r s : String} {rs ss : List Token} (hr : Renders r rs)
    (hs : Renders s ss) : Renders (RangeFlow.commaList [r, s]) (rs ++ .mark "," :: ss) := by
  have h := Renders.commaList (.cons hr (.cons hs .nil))
  rwa [separated_cons_cons, separated_cons, List.flatMap_nil, List.append_nil] at h

namespace Call

def IsSpelled (c : Call) : Prop :=
  (c.returns = .void ∨ c.returns.IsSpelled) ∧ c.callee.operand.IsSpelled ∧
    ∀ a ∈ c.args, a.IsSpelled

def tokens (c : Call) : List Token :=
  .mark "call" :: (c.returns.tokens ++ c.callee.operand.token :: .mark "(" ::
    (separated (c.args.map fun a ↦ a.ty.tokens ++ [a.token]) ++ [.mark ")"]))

theorem renders_returns {t : Ty} (h : t = .void ∨ t.IsSpelled) : Renders t.text t.tokens := by
  rcases h with rfl | h
  · exact fun us cs hcs hus ↦ .word "void" rfl hcs.stops hus
  · exact t.renders h

theorem renders {c : Call} (hc : c.IsSpelled) : Renders c.text c.tokens := by
  intro us cs hcs h
  obtain ⟨hreturns, hcallee, hargs⟩ := hc
  have hargs : Renders (commaList (c.args.map Operand.typedText))
      (separated (c.args.map fun a ↦ a.ty.tokens ++ [a.token])) := by
    apply Renders.commaList
    rw [List.forall₂_map_left_iff, List.forall₂_map_right_iff, List.forall₂_same]
    intro a ha
    exact Operand.renders_typedText (hargs a ha)
  simp only [text, tokens, String.toList_append, String.reduceToList, List.append_assoc,
    List.cons_append, List.nil_append]
  refine .word "call" rfl (breaks_cons rfl).stops (.blank rfl ?_)
  refine renders_returns hreturns (breaks_cons rfl) (.blank rfl ?_)
  refine Operand.renders hcallee (breaks_cons rfl) (.mark "(" (by decide) ?_)
  exact hargs (breaks_cons rfl) (.mark ")" (by decide) h)

end Call

namespace Value

/-- The names in a value can be read, and a field is one of a struct. -/
def IsSpelled : Value → Prop
  | .binary _ t a b | .compare _ t a b => t.IsSpelled ∧ a.IsSpelled ∧ b.IsSpelled
  | .cast _ s a t => s.IsSpelled ∧ a.IsSpelled ∧ t.IsSpelled
  | .select t c a b => t.IsSpelled ∧ c.IsSpelled ∧ a.IsSpelled ∧ b.IsSpelled
  | .phi t entries =>
    t.IsSpelled ∧ entries ≠ [] ∧ ∀ e ∈ entries, isSymbolName e.label = true ∧ e.value.IsSpelled
  | .load t p => t.IsSpelled ∧ p.IsSpelled
  | .alloca t => t.IsSpelled
  | .field t p _ => t.IsSpelled ∧ t.isStruct = true ∧ p.IsSpelled
  | .elem t p i => t.IsSpelled ∧ p.IsSpelled ∧ i.IsSpelled
  | .call c => c.IsSpelled

/-- The index of a field is written as a number is read. -/
def IsIndexed : Value → Prop
  | .field _ _ i => -1024 < i
  | _ => True

/-- The tokens of a phi after its first one, each with a comma. -/
def entryTokens (entries : List PhiEntry) : List (List Token) :=
  entries.flatMap fun e ↦ [[.global e.label], [e.value.token]]

def tokens : Value → List Token
  | .binary op t a b => .mark op.name :: (t.tokens ++ [a.token, .mark ",", b.token])
  | .compare op t a b => .mark op.name :: (t.tokens ++ [a.token, .mark ",", b.token])
  | .cast op s a t => .mark op.name :: (s.tokens ++ a.token :: .mark "to" :: t.tokens)
  | .select t c a b =>
    .mark "select" :: (t.tokens ++ [c.token, .mark ",", a.token, .mark ",", b.token])
  | .phi t entries =>
    .mark "phi" :: (t.tokens ++ separated (entryTokens entries))
  | .load t p => .mark "load" :: (t.tokens ++ [p.token])
  | .alloca t => .mark "alloca" :: t.tokens
  | .field t p i => .mark "field" ::
    (t.tokens ++ [.mark ",", p.token, .mark ",", .const (literalNumeral i)])
  | .elem t p i => .mark "elem" ::
    (t.tokens ++ .mark "," :: p.token :: .mark "," :: (i.ty.tokens ++ [i.token]))
  | .call c => c.tokens

theorem isIdentifier_binaryOp (op : BinaryOp) : isIdentifier op.name = true := by
  cases op <;> rfl

theorem isIdentifier_comparison (op : Comparison) : isIdentifier op.name = true := by
  cases op <;> rfl

theorem isIdentifier_castOp (op : CastOp) : isIdentifier op.name = true := by
  cases op <;> rfl

/-- The text of a value renders its tokens, if its index is not negative. -/
theorem renders {v : Value} (hv : v.IsSpelled) (hi : v.IsIndexed) : Renders v.text v.tokens := by
  cases v with
  | binary op t a b =>
    obtain ⟨ht, ha, hb⟩ := hv
    exact .typed op.name (isIdentifier_binaryOp op) ht (.pair (Operand.renders ha)
      (Operand.renders hb))
  | compare op t a b =>
    obtain ⟨ht, ha, hb⟩ := hv
    exact .typed op.name (isIdentifier_comparison op) ht (.pair (Operand.renders ha)
      (Operand.renders hb))
  | cast op s a t =>
    intro us cs hcs h
    simp only [text, tokens, String.toList_append, String.reduceToList, List.append_assoc,
      List.cons_append, List.nil_append]
    refine .word op.name (isIdentifier_castOp op) (breaks_cons rfl).stops (.blank rfl ?_)
    refine s.renders hv.1 (breaks_cons rfl) (.blank rfl ?_)
    refine Operand.renders hv.2.1 (breaks_cons rfl) (.blank rfl ?_)
    refine .word "to" rfl (breaks_cons rfl).stops (.blank rfl ?_)
    exact t.renders hv.2.2 hcs h
  | select t c a b =>
    obtain ⟨ht, hc, ha, hb⟩ := hv
    exact .typed "select" rfl ht (.commaList (.cons (Operand.renders hc)
      (.cons (Operand.renders ha) (.cons (Operand.renders hb) .nil))))
  | phi t entries =>
    obtain ⟨ht, -, hentries⟩ := hv
    refine .typed "phi" rfl ht (.commaList ?_)
    clear hi
    induction entries with
    | nil => exact .nil
    | cons e entries ih =>
      have he := hentries e List.mem_cons_self
      have ih := ih fun e he ↦ hentries e (List.mem_cons_of_mem _ he)
      exact .cons (renders_labelText he.1) (.cons (Operand.renders he.2) ih)
  | load t p => exact .typed "load" rfl hv.1 (Operand.renders hv.2)
  | alloca t =>
    intro us cs hcs h
    simp only [text, tokens, String.toList_append, String.reduceToList, List.cons_append,
      List.nil_append]
    exact .word "alloca" rfl (breaks_cons rfl).stops (.blank rfl (t.renders hv hcs h))
  | field t p i =>
    intro us cs hcs h
    obtain ⟨ht, -, hp⟩ := hv
    have hlist := Renders.pair (Operand.renders hp) (renders_literalText hi)
    simp only [text, tokens, String.toList_append, String.reduceToList, List.append_assoc,
      List.cons_append, List.nil_append]
    refine .word "field" rfl (breaks_cons rfl).stops (.blank rfl ?_)
    exact t.renders ht (breaks_cons rfl) (.mark "," (by decide) (.blank rfl (hlist hcs h)))
  | elem t p i =>
    intro us cs hcs h
    obtain ⟨ht, hp, hi⟩ := hv
    have hlist := Renders.pair (Operand.renders hp) (Operand.renders_typedText hi) hcs h
    simp only [text, tokens, String.toList_append, String.reduceToList, List.append_assoc,
      List.cons_append, List.nil_append] at hlist ⊢
    refine .word "elem" rfl (breaks_cons rfl).stops (.blank rfl ?_)
    exact t.renders ht (breaks_cons rfl) (.mark "," (by decide) (.blank rfl hlist))
  | call c => exact Call.renders hv

end Value

namespace Terminator

def IsSpelled : Terminator → Prop
  | .jmp l => isSymbolName l = true
  | .jnz c l r => c.IsSpelled ∧ isSymbolName l = true ∧ isSymbolName r = true
  | .switch t c l cases => t.IsSpelled ∧ c.IsSpelled ∧ isSymbolName l = true ∧
    ∀ k ∈ cases, 0 ≤ k.value ∧ isSymbolName k.label = true
  | .ret t v => t.IsSpelled ∧ v.IsSpelled
  | .retVoid | .unreachable => True

def caseTokens (cases : List SwitchCase) : List (List Token) :=
  cases.flatMap fun k ↦ [[.const (literalNumeral k.value)], [.global k.label]]

def tokens : Terminator → List Token
  | .jmp l => [.mark "jmp", .global l]
  | .jnz c l r => [.mark "jnz", c.token, .mark ",", .global l, .mark ",", .global r]
  | .switch t c l cases =>
    .mark "switch" :: (t.tokens ++ separated ([c.token] :: [.global l] :: caseTokens cases))
  | .ret t v => .mark "ret" :: (t.tokens ++ [v.token])
  | .retVoid => [.mark "ret", .mark "void"]
  | .unreachable => [.mark "unreachable"]

theorem renders {t : Terminator} (ht : t.IsSpelled) : Renders t.text t.tokens := by
  cases t with
  | jmp l =>
    intro us cs hcs h
    rw [text, String.toList_append, List.append_assoc]
    exact .word "jmp" rfl (breaks_cons rfl).stops (.blank rfl (renders_labelText ht hcs h))
  | jnz c l r =>
    intro us cs hcs h
    obtain ⟨hc, hl, hr⟩ := ht
    have hlist := Renders.commaList (.cons (Operand.renders hc)
      (.cons (renders_labelText hl) (.cons (renders_labelText hr) .nil))) hcs h
    rw [text, String.toList_append, List.append_assoc]
    exact .word "jnz" rfl (breaks_cons rfl).stops (.blank rfl hlist)
  | switch t c l cases =>
    obtain ⟨ht, hc, hl, hcases⟩ := ht
    refine .typed "switch" rfl ht (.commaList ?_)
    refine .cons (Operand.renders hc) (.cons (renders_labelText hl) ?_)
    induction cases with
    | nil => exact .nil
    | cons k cases ih =>
      have hk := hcases k List.mem_cons_self
      have ih := ih fun k hk ↦ hcases k (List.mem_cons_of_mem _ hk)
      exact .cons (renders_literalText (by omega)) (.cons (renders_labelText hk.2) ih)
  | ret t v => exact .typed "ret" rfl ht.1 (Operand.renders ht.2)
  | retVoid =>
    exact fun us cs hcs h ↦
      .word "ret" rfl (breaks_cons rfl).stops (.blank rfl (.word "void" rfl hcs.stops h))
  | unreachable => exact fun us cs hcs h ↦ .word "unreachable" rfl hcs.stops h

end Terminator

namespace Action

/-- The names in an action can be read, and what is assigned is a value. -/
def IsSpelled : Action → Prop
  | .assign x v => isVarName x = true ∧ v.IsSpelled ∧ v.ty ≠ .void
  | .store t v p => t.IsSpelled ∧ v.IsSpelled ∧ p.IsSpelled
  | .call c => c.IsSpelled
  | .finish t => t.IsSpelled

/-- The indices of fields are written as numbers are read. -/
def IsIndexed : Action → Prop
  | .assign _ v => v.IsIndexed
  | _ => True

def tokens : Action → List Token
  | .assign x v => .var x :: .mark "=" :: v.tokens
  | .store t v p => .mark "store" :: (t.tokens ++ [v.token, .mark ",", p.token])
  | .call c => c.tokens
  | .finish t => t.tokens

theorem renders {a : Action} (ha : a.IsSpelled) (hi : a.IsIndexed) :
    Renders a.text a.tokens := by
  cases a with
  | assign x v =>
    intro us cs hcs h
    simp only [text, tokens, String.toList_append, String.reduceToList, List.append_assoc,
      List.cons_append, List.nil_append]
    refine .var ha.1 (breaks_cons rfl) (.blank rfl (.mark "=" (by decide) (.blank rfl ?_)))
    exact Value.renders ha.2.1 hi hcs h
  | store t v p =>
    exact .typed "store" rfl ha.1 (.pair (Operand.renders ha.2.1) (Operand.renders ha.2.2))
  | call c => exact Call.renders ha
  | finish t => exact Terminator.renders ha

end Action

/-! ## Functions -/

namespace Source.BodyPart

def IsSpelled : BodyPart → Prop
  | .label l => isIdentifier l = true
  | .instr i => i.action.IsSpelled ∧ i.action.IsIndexed

def tokens : BodyPart → List Token
  | .label l => [.ident l, .mark ":"]
  | .instr i => i.action.tokens

/-- The line of a body that a label or an instruction stands on. -/
def line : BodyPart → String
  | .label l => "  " ++ l ++ ":"
  | .instr i => "      " ++ i.text

theorem renders {part : BodyPart} (h : part.IsSpelled) : Renders part.line part.tokens := by
  cases part with
  | label l =>
    intro us cs hcs hus
    simp only [line, String.toList_append, String.reduceToList, List.append_assoc,
      List.cons_append, List.nil_append]
    have hstop : Stops (':' :: cs) := stops_cons rfl
    exact .blank rfl (.blank rfl (.ident h hstop (.mark ":" (by decide) hus)))
  | instr i =>
    intro us cs hcs hus
    have haction := Action.renders h.1 h.2 hcs hus
    simp only [line, Instr.text, String.toList_append, String.reduceToList, List.cons_append,
      List.nil_append]
    exact .blank rfl (.blank rfl (.blank rfl (.blank rfl (.blank rfl (.blank rfl haction)))))

end Source.BodyPart

def Block.parts (b : Block) : List BodyPart := .label b.label :: b.instrs.map .instr

namespace Function

/-- The labels and the instructions of a body in order. -/
def parts (f : Function) : List BodyPart := f.blocks.flatMap Block.parts

theorem bodyLines_eq (f : Function) : f.bodyLines = f.parts.map BodyPart.line := by
  simp [bodyLines, parts, Block.parts, List.map_flatMap, Function.comp_def, BodyPart.line]

def paramTokens (f : Function) : List (List Token) :=
  (f.params.map fun p ↦ p.ty.tokens ++ [.var p.name]) ++ if f.isVararg then [[.mark "..."]] else []

def returnTokens (f : Function) : List Token :=
  if f.returns = .void then [] else .mark "->" :: f.returns.tokens

def headTokens (f : Function) : List Token :=
  .global f.name :: .mark "(" :: (separated f.paramTokens ++ .mark ")" :: f.returnTokens)

def tokens (f : Function) : List Token :=
  if f.isDeclaration then .mark "declare" :: .mark "function" :: f.headTokens
  else .mark "function" :: (f.headTokens ++
    .mark "\x7b" :: (f.parts.flatMap BodyPart.tokens ++ [.mark "\x7d"]))

structure IsSpelled (f : Function) : Prop where
  name : isSymbolName f.name = true
  params : ∀ p ∈ f.params, isVarName p.name = true ∧ p.ty.IsSpelled
  returns : f.returns = .void ∨ f.returns.IsSpelled
  parts : ∀ part ∈ f.parts, part.IsSpelled

/-- The signature of a function renders the tokens of its head. -/
theorem renders_signature {f : Function} (hf : f.IsSpelled) : Renders f.signature f.headTokens := by
  have hparams : List.Forall₂ Renders (f.params.map fun p ↦ p.ty.text ++ " %" ++ p.name)
      (f.params.map fun p ↦ p.ty.tokens ++ [.var p.name]) := by
    rw [List.forall₂_map_left_iff, List.forall₂_map_right_iff, List.forall₂_same]
    intro p hp us cs hcs h
    simp only [String.toList_append, String.reduceToList, List.append_assoc, List.cons_append,
      List.nil_append]
    have hvar := Spells.var (hf.params p hp).1 hcs h
    exact p.ty.renders (hf.params p hp).2 (breaks_cons rfl) (.blank rfl hvar)
  have hall : List.Forall₂ Renders
      (if f.isVararg then (f.params.map fun p ↦ p.ty.text ++ " %" ++ p.name) ++ ["..."]
        else f.params.map fun p ↦ p.ty.text ++ " %" ++ p.name) f.paramTokens := by
    unfold paramTokens
    split
    · refine List.rel_append hparams (.cons ?_ .nil)
      exact fun us cs _ h ↦ .mark "..." (by decide) h
    · simpa using hparams
  have hreturns : Renders (if f.returns = .void then "" else " -> " ++ f.returns.text)
      f.returnTokens := by
    unfold returnTokens
    split
    · exact renders_empty
    · rename_i hvoid
      intro us cs hcs h
      have hty := f.returns.renders (hf.returns.resolve_left hvoid) hcs h
      simp only [String.toList_append, String.reduceToList, List.cons_append, List.nil_append]
      exact .blank rfl (.mark "->" (by decide) (.blank rfl hty))
  intro us cs hcs h
  simp only [signature, headTokens, String.toList_append, String.reduceToList, List.append_assoc,
    List.cons_append, List.nil_append]
  refine .global hf.name (breaks_cons rfl).stops (.mark "(" (by decide) ?_)
  exact Renders.commaList hall (breaks_cons rfl) (.mark ")" (by decide) (hreturns hcs h))

theorem renders {f : Function} (hf : f.IsSpelled) : Renders f.text f.tokens := by
  have hsignature := renders_signature hf
  unfold text tokens
  split
  · intro us cs hcs h
    rw [String.toList_append, List.append_assoc]
    refine .word "declare" rfl (breaks_cons rfl).stops (.blank rfl ?_)
    exact .word "function" rfl (breaks_cons rfl).stops (.blank rfl (hsignature hcs h))
  · have hopen : Renders ("function " ++ f.signature ++ " \x7b")
        (.mark "function" :: (f.headTokens ++ [.mark "\x7b"])) := by
      intro us cs hcs h
      simp only [String.toList_append, String.reduceToList, List.append_assoc, List.cons_append,
        List.nil_append]
      refine .word "function" rfl (breaks_cons rfl).stops (.blank rfl ?_)
      exact hsignature (breaks_cons rfl) (.blank rfl (.mark "\x7b" (by decide) h))
    have hbody : List.Forall₂ Renders f.bodyLines (f.parts.map BodyPart.tokens) := by
      rw [bodyLines_eq, List.forall₂_map_left_iff, List.forall₂_map_right_iff, List.forall₂_same]
      intro part hpart
      exact BodyPart.renders (hf.parts part hpart)
    have hclose : Renders "\x7d" [.mark "\x7d"] := fun us cs _ h ↦ .mark "\x7d" (by decide) h
    have hlines := Renders.lines
      (List.Forall₂.cons hopen (List.rel_append hbody (.cons hclose .nil)))
    simpa [List.flatMap] using hlines

end Function

/-! ## Programs -/

namespace Global

def IsSpelled (g : Global) : Prop :=
  isSymbolName g.name = true ∧ g.ty.IsSpelled ∧ ∀ c ∈ g.init, c.IsSpelled

def tokens (g : Global) : List Token :=
  .mark "global" :: .global g.name :: .mark ":" :: (g.ty.tokens ++
    match g.init with
    | some c => .mark "=" :: c.tokens
    | none => [])

theorem renders {g : Global} (hg : g.IsSpelled) : Renders g.text g.tokens := by
  obtain ⟨hname, hty, hinit⟩ := hg
  intro us cs hcs h
  simp only [text, tokens, String.toList_append, String.reduceToList, List.append_assoc,
    List.cons_append, List.nil_append]
  refine .word "global" rfl (breaks_cons rfl).stops (.blank rfl ?_)
  refine .global hname (stops_cons rfl) (.mark ":" (by decide) (.blank rfl ?_))
  cases hinit' : g.init with
  | none => exact g.ty.renders hty hcs h
  | some c =>
    have hc := c.renders (hinit c hinit') hcs h
    simp only [String.toList_append, String.reduceToList, List.cons_append, List.nil_append]
    exact g.ty.renders hty (breaks_cons rfl) (.blank rfl (.mark "=" (by decide) (.blank rfl hc)))

end Global

namespace StructDecl

def IsSpelled (s : StructDecl) : Prop :=
  isIdentifier s.name = true ∧ ∀ fields ∈ s.fields, Ty.AreSpelled fields

def tokens? (s : StructDecl) : Option (List Token) :=
  s.fields.map fun fields ↦
    .mark "struct" :: .structName s.name :: .mark "=" :: (Ty.literal fields).tokens

end StructDecl

namespace Program

def tokens (p : Program) : List Token :=
  (p.structs.filterMap StructDecl.tokens?).flatten ++ p.globals.flatMap Global.tokens ++
    p.functions.flatMap Function.tokens

structure IsSpelled (p : Program) : Prop where
  structs : ∀ s ∈ p.structs, s.IsSpelled
  globals : ∀ g ∈ p.globals, g.IsSpelled
  functions : ∀ f ∈ p.functions, f.IsSpelled

/-- The texts of the structs with a body render their tokens. -/
theorem renders_structs {structs : List StructDecl} (h : ∀ s ∈ structs, s.IsSpelled) :
    List.Forall₂ Renders (structs.filterMap StructDecl.text?)
      (structs.filterMap StructDecl.tokens?) := by
  induction structs with
  | nil => exact .nil
  | cons s structs ih =>
    have ih := ih fun s hs ↦ h s (List.mem_cons_of_mem _ hs)
    obtain ⟨hname, hfields⟩ := h s List.mem_cons_self
    cases hs : s.fields with
    | none => simpa [List.filterMap_cons, StructDecl.text?, StructDecl.tokens?, hs] using ih
    | some fields =>
      simp only [List.filterMap_cons, StructDecl.text?, StructDecl.tokens?, hs, Option.map_some]
      refine .cons ?_ ih
      intro us cs hcs hus
      have hbody := (Ty.literal fields).renders (hfields fields hs) hcs hus
      simp only [Ty.bodyText, String.toList_append, String.reduceToList, List.append_assoc,
        List.cons_append, List.nil_append]
      refine .word "struct" rfl (breaks_cons rfl).stops (.blank rfl ?_)
      refine .structName hname (breaks_cons rfl).stops (.blank rfl ?_)
      exact .mark "=" (by decide) (.blank rfl hbody)

theorem renders_functions {functions : List Function} (h : ∀ f ∈ functions, f.IsSpelled) :
    List.Forall₂ Renders (functions.flatMap fun f ↦ [f.text, ""])
      (functions.flatMap fun f ↦ [f.tokens, []]) := by
  induction functions with
  | nil => exact .nil
  | cons f functions ih =>
    have ih := ih fun f hf ↦ h f (List.mem_cons_of_mem _ hf)
    exact .cons (Function.renders (h f List.mem_cons_self)) (.cons renders_empty ih)

/-- An empty line, if there are lines before it, adds no tokens. -/
theorem renders_data {ss : List String} {tss : List (List Token)}
    (h : List.Forall₂ Renders ss tss) :
    ∃ uss, List.Forall₂ Renders (if ss.isEmpty then [] else ss ++ [""]) uss ∧
      uss.flatten = tss.flatten := by
  cases h with
  | nil => exact ⟨[], .nil, rfl⟩
  | @cons s ts ss tss hs hss =>
    refine ⟨ts :: tss ++ [[]], ?_, by simp⟩
    exact List.rel_append (.cons hs hss) (.cons renders_empty .nil)

theorem renders {p : Program} (hp : p.IsSpelled) : Renders p.text p.tokens := by
  have hglobals : List.Forall₂ Renders (p.globals.map Global.text)
      (p.globals.map Global.tokens) := by
    rw [List.forall₂_map_left_iff, List.forall₂_map_right_iff, List.forall₂_same]
    exact fun g hg ↦ Global.renders (hp.globals g hg)
  obtain ⟨uss, hdata, huss⟩ :=
    renders_data (List.rel_append (renders_structs hp.structs) hglobals)
  have hlines := Renders.lines (List.rel_append hdata (renders_functions hp.functions))
  have hfunctions : (p.functions.flatMap fun f ↦ [f.tokens, []]).flatten =
      p.functions.flatMap Function.tokens := by
    induction p.functions with
    | nil => rfl
    | cons f functions ih => simp [List.flatMap_cons, ih]
  rw [List.flatten_append, huss, List.flatten_append, hfunctions] at hlines
  exact hlines

end Program

end RangeFlow
