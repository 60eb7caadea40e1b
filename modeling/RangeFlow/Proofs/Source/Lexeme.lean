import Mathlib.Data.List.Basic
import Mathlib.Data.Nat.Basic
import Mathlib.Order.Basic
import RangeFlow.Source.Reader

/-!
# Tokens that are read back

A name or a number that is followed by a character that cannot continue it is read as one token.
Positions have no influence on what is read: `lex` is the reader of tokens without them.
-/

namespace RangeFlow.Source

/-! ## Names -/

/-- The text does not go on with a character of a name. -/
def Stops (cs : List Char) : Prop := ∀ c ∈ cs.head?, isNameChar c = false

/-- The text does not go on with a character of a variable. -/
def Breaks (cs : List Char) : Prop := ∀ c ∈ cs.head?, isVarChar c = false

def isVarName (x : String) : Bool := !x.toList.isEmpty && x.toList.all isVarChar

def isSymbolName (x : String) : Bool := !x.toList.isEmpty && x.toList.all isNameChar

def isIdentifier (x : String) : Bool :=
  match x.toList with
  | [] => false
  | c :: cs => isNameStart c && cs.all isNameChar

theorem isVarChar_of_isNameChar {c : Char} (h : isNameChar c = true) : isVarChar c = true := by
  rw [isVarChar, h, Bool.true_or]

theorem isNameChar_of_isDigit {c : Char} (h : c.isDigit = true) : isNameChar c = true := by
  simp [isNameChar, Char.isAlphanum, h]

theorem isNameChar_of_isAlpha {c : Char} (h : c.isAlpha = true) : isNameChar c = true := by
  simp [isNameChar, Char.isAlphanum, h]

theorem isNameChar_of_isNameStart {c : Char} (h : isNameStart c = true) : isNameChar c = true := by
  simp only [isNameStart, Bool.or_eq_true] at h
  rcases h with h | h
  · exact isNameChar_of_isAlpha h
  · simp [isNameChar, h]

theorem isNameChar_of_isHexDigit {c : Char} (h : isHexDigit c = true) : isNameChar c = true := by
  simp only [isHexDigit, Bool.or_eq_true, Bool.and_eq_true, decide_eq_true_eq] at h
  rcases h with (h | ⟨hl, hu⟩) | ⟨hl, hu⟩
  · exact isNameChar_of_isDigit h
  · have hz : c ≤ 'z' := Char.le_trans hu (by decide)
    have hlower : c.isLower = true := by
      unfold Char.isLower
      simp only [Bool.and_eq_true, decide_eq_true_eq]
      exact ⟨hl, hz⟩
    apply isNameChar_of_isAlpha
    unfold Char.isAlpha
    rw [hlower, Bool.or_true]
  · have hz : c ≤ 'Z' := Char.le_trans hu (by decide)
    have hupper : c.isUpper = true := decide_eq_true ⟨hl, hz⟩
    apply isNameChar_of_isAlpha
    unfold Char.isAlpha
    rw [hupper, Bool.true_or]

theorem isBlank_of_isNameChar {c : Char} (h : isNameChar c = true) : isBlank c = false := by
  by_contra hblank
  simp only [Bool.not_eq_false, isBlank, Bool.or_eq_true, beq_iff_eq] at hblank
  rcases hblank with (((rfl | rfl) | rfl) | rfl) | rfl <;> cases h

/-- What breaks off a variable breaks off any name. -/
theorem Breaks.stops {cs : List Char} (h : Breaks cs) : Stops cs := by
  intro c hc
  by_contra hname
  have hvar := isVarChar_of_isNameChar (Bool.not_eq_false _ ▸ hname)
  rw [h c hc] at hvar
  cases hvar

/-- What breaks off a name breaks off a run of some of its characters. -/
theorem Stops.of_le {p : Char → Bool} {cs : List Char} (h : Stops cs)
    (hp : ∀ c, p c = true → isNameChar c = true) : ∀ c ∈ cs.head?, p c = false := by
  intro c hc
  by_contra hpc
  have hname := hp c (Bool.not_eq_false _ ▸ hpc)
  rw [h c hc] at hname
  cases hname

theorem breaks_nil : Breaks [] := by
  intro c hc
  cases hc

theorem breaks_cons {c : Char} {cs : List Char} (h : isVarChar c = false) : Breaks (c :: cs) := by
  intro d hd
  cases hd
  exact h

theorem stops_cons {c : Char} {cs : List Char} (h : isNameChar c = false) : Stops (c :: cs) := by
  intro d hd
  cases hd
  exact h

/-- The longest run of characters of a class. -/
theorem takeWhile_append {p : Char → Bool} {s rest : List Char} (hs : ∀ c ∈ s, p c = true)
    (hrest : ∀ c ∈ rest.head?, p c = false) : (s ++ rest).takeWhile p = s := by
  rw [List.takeWhile_append_of_pos hs]
  cases rest with
  | nil => rw [List.takeWhile_nil, List.append_nil]
  | cons c cs => rw [List.takeWhile_cons_of_neg (by rw [hrest c rfl]; decide), List.append_nil]

/-! ## Digits -/

theorem digitValue_digitChar : ∀ n < 16, digitValue n.digitChar = n := by decide

theorem isHexDigit_digitChar : ∀ n < 16, isHexDigit n.digitChar = true := by decide

/-- The digits of a number are read as the number. -/
theorem numeral_toDigits {b : Nat} (hb : 1 < b) (hb' : b ≤ 16) (n : Nat) :
    numeral b (Nat.toDigits b n) = n := by
  induction n using Nat.strong_induction_on with
  | h n ih =>
    by_cases hn : n < b
    · rw [Nat.toDigits_of_lt_base hn]
      simp [numeral, digitValue_digitChar n (hn.trans_le hb')]
    · rw [Nat.toDigits_of_base_le hb (Nat.not_lt.1 hn)]
      have hdiv : numeral b (Nat.toDigits b (n / b)) = n / b :=
        ih (n / b) (Nat.div_lt_self (by omega) hb)
      have hmod := digitValue_digitChar (n % b) ((Nat.mod_lt n (by omega)).trans_le hb')
      unfold numeral at hdiv ⊢
      rw [List.foldl_append, hdiv, List.foldl_cons, List.foldl_nil, hmod]
      exact Nat.div_add_mod' n b

/-- The digits to base sixteen are those that are scanned. -/
theorem isHexDigit_of_mem_toDigits {n : Nat} {c : Char} (h : c ∈ Nat.toDigits 16 n) :
    isHexDigit c = true := by
  induction n using Nat.strong_induction_on with
  | h n ih =>
    by_cases hn : n < 16
    · rw [Nat.toDigits_of_lt_base hn, List.mem_singleton] at h
      exact h ▸ isHexDigit_digitChar n hn
    · rw [Nat.toDigits_of_base_le (by decide) (Nat.not_lt.1 hn), List.mem_append,
        List.mem_singleton] at h
      rcases h with h | rfl
      · exact ih (n / 16) (by omega) h
      · exact isHexDigit_digitChar _ (Nat.mod_lt n (by decide))

def decimal (v : Int) : Numeral := ⟨v, (Nat.toDigits 10 v.natAbs).length⟩

def hexadecimal (v : Int) : Numeral := ⟨v, 0⟩

/-- A decimal number has its value unless it has too many digits. -/
theorem value?_decimal {v : Int} (h : Text.isWritable v = true) :
    (decimal v).value? = some v := by
  have hlen : ∀ k, 0 < k → v.natAbs < Nat.pow 10 k → (decimal v).digits ≤ k :=
    fun k hk hv ↦ (Nat.length_toDigits_le_iff (by decide) hk).2 hv
  replace h := hlen Text.digitLimit (by decide) (of_decide_eq_true h)
  rw [Numeral.value?, if_pos h]
  rfl

/-- A hexadecimal number has its value, however many digits it has. -/
theorem value?_hexadecimal (v : Int) : (hexadecimal v).value? = some v := rfl

/-! ## Reading a token -/

/-- What is left after the blanks does not depend on the position. -/
theorem rest_skipBlanks (b : Bool) (cs : List Char) (p q : Position) :
    (skipBlanks b cs p).rest = (skipBlanks b cs q).rest := by
  induction cs generalizing b p q with
  | nil => rfl
  | cons c cs ih =>
    unfold skipBlanks
    split
    · exact ih _ _ _
    · split
      · exact ih _ _ _
      · split
        · exact ih _ _ _
        · rfl

/-- The text after blanks and comments. -/
def skipped (cs : List Char) : List Char := (skipBlanks false cs .start).rest

/-- The token that a text starts with, and the rest of the text. -/
def lex (e : Expect) (cs : List Char) : Option (Token × List Char) :=
  match skipped cs with
  | [] => some (.stop, [])
  | c :: cs => (scan e (c :: cs)).map fun (t, n) ↦ (t, (c :: cs).drop n)

theorem lex_of_readToken {e : Expect} {c : Cursor} {last : Position} {r : Reader}
    (h : readToken e c last = .ok r) : lex e c.rest = some (r.token, r.next.rest) := by
  unfold readToken at h
  unfold lex skipped
  rw [rest_skipBlanks false c.rest .start c.pos]
  cases hrest : (skipBlanks false c.rest c.pos).rest with
  | nil =>
    simp only [hrest] at h
    cases h
    rw [hrest]
  | cons d ds =>
    simp only [hrest] at h ⊢
    cases hscan : scan e (d :: ds) with
    | none =>
      rw [hscan] at h
      cases h
    | some p =>
      rw [hscan] at h
      cases h
      rw [Cursor.drop, hrest, Option.map_some]

/-- Where there is a next token, the reader takes a step. -/
theorem exists_readToken {e : Expect} {c : Cursor} {t : Token} {cs : List Char} (last : Position)
    (h : lex e c.rest = some (t, cs)) :
    ∃ r, readToken e c last = .ok r ∧ r.token = t ∧ r.next.rest = cs := by
  cases hr : readToken e c last with
  | ok r =>
    have hlex := lex_of_readToken hr
    rw [h] at hlex
    cases hlex
    exact ⟨r, rfl, rfl, rfl⟩
  | error pos =>
    unfold readToken at hr
    unfold lex skipped at h
    rw [rest_skipBlanks false c.rest .start c.pos] at h
    dsimp only at hr
    split at hr
    · cases hr
    · rename_i d ds hcons
      split at hr
      · cases hr
      · rename_i hscan
        rw [hcons] at hscan h
        simp only [hscan] at h
        cases h

theorem skipped_blank {c : Char} (h : isBlank c = true) (cs : List Char) :
    skipped (c :: cs) = skipped cs := by
  unfold skipped
  rw [skipBlanks, if_neg Bool.false_ne_true, if_pos h]
  exact rest_skipBlanks _ _ _ _

/-- A blank in front is skipped. -/
theorem lex_blank {c : Char} (h : isBlank c = true) (e : Expect) (cs : List Char) :
    lex e (c :: cs) = lex e cs := by
  unfold lex
  rw [skipped_blank h]

/-- A token that is scanned at the front is the next one. -/
theorem lex_of_scan {e : Expect} {c : Char} {s cs : List Char} {t : Token}
    (hb : isBlank c = false) (hc : c ≠ ';')
    (h : scan e (c :: s ++ cs) = some (t, (c :: s).length)) :
    lex e (c :: s ++ cs) = some (t, cs) := by
  have hskip : skipped (c :: s ++ cs) = c :: s ++ cs := by
    unfold skipped
    rw [List.cons_append, skipBlanks, if_neg Bool.false_ne_true,
      if_neg (by rw [hb]; exact Bool.false_ne_true), if_neg hc]
  unfold lex
  rw [hskip]
  simp only [List.cons_append] at h ⊢
  rw [h]
  simp

/-! ## Expected tokens

Where a token is expected, and no other expected token starts alike, the token is read. -/

/-- The marks that are no words. -/
def punctuation : List String :=
  ["\x7b", "\x7d", "(", ")", "[", "]", ",", "=", ":", "->", "..."]

/-- Whether one of two texts begins with the other. -/
def isComparable (m w : String) : Bool :=
  m.toList.isPrefixOf w.toList || w.toList.isPrefixOf m.toList

/-- Whether a text is listed and cannot be confused with another one of the list. -/
def isFirm (ms : List String) (m : String) : Bool :=
  ms.contains m && ms.all fun w ↦ w == m || !isComparable m w

namespace Expect

/-- Whether a word is read as a mark. -/
def takesWord (e : Expect) (m : String) : Bool :=
  (if e.ident then e.words.contains m else isFirm e.words m) &&
    !(e.intType && m.toList.head? == some 'i')

/-- Whether a mark that is no word is read. -/
def takesPunctuation (e : Expect) (m : String) : Bool :=
  punctuation.contains m && isFirm e.marks m && (e.ident || !e.words.any (isComparable m))

/-- Whether a token is read when it stands at a place. -/
def takes (e : Expect) : Token → Bool
  | .intType _ => e.intType
  | .structName _ => e.structName
  | .var _ => e.var && !e.structName
  | .global _ => e.global
  | .const _ => e.const
  | .ident x => e.ident && !e.intType && !e.words.contains x
  | .mark m => if isIdentifier m then e.takesWord m else e.takesPunctuation m
  | .stop => true

end Expect

section Scan

variable {e : Expect} {n : Nat} {x m : String} {c : Char} {s cs : List Char}

theorem scanIntType_of_ne (h : c ≠ 'i') : scanIntType (c :: cs) = none := by
  unfold scanIntType
  split
  · rename_i heq
    cases heq
    exact absurd rfl h
  · rfl

theorem scanStructName_of_ne (h : c ≠ '%') : scanStructName (c :: cs) = none := by
  unfold scanStructName
  split
  · rename_i heq
    cases heq
    exact absurd rfl h
  · rfl

theorem scanVar_of_ne (h : c ≠ '%') : scanVar (c :: cs) = none := by
  unfold scanVar
  split
  · rename_i heq
    cases heq
    exact absurd rfl h
  · rfl

theorem scanGlobal_of_ne (h : c ≠ '@') : scanGlobal (c :: cs) = none := by
  unfold scanGlobal
  split
  · rename_i heq
    cases heq
    exact absurd rfl h
  · rfl

theorem scanDigits_of_not_isDigit (h : c.isDigit = false) : scanDigits (c :: cs) = none := by
  have hdigits : (c :: cs).takeWhile Char.isDigit = [] := by simp [h]
  simp only [scanDigits, hdigits]
  split
  · rename_i heq
    cases heq
    cases h
  · rfl

theorem scanConst_of_not_isDigit (hc : c ≠ '-') (h : c.isDigit = false) :
    scanConst (c :: cs) = none := by
  unfold scanConst
  split
  · rename_i heq
    cases heq
    exact absurd rfl hc
  · rw [scanDigits_of_not_isDigit h]
    rfl

/-- The only listed text that a text can begin with. -/
theorem scanMark_of_isFirm {ms : List String} (h : isFirm ms m = true) (cs : List Char) :
    scanMark ms (m.toList ++ cs) = some (.mark m, m.toList.length) := by
  simp only [isFirm, Bool.and_eq_true, List.contains_iff_mem, List.all_eq_true, Bool.or_eq_true,
    beq_iff_eq, Bool.not_eq_true'] at h
  obtain ⟨hmem, hall⟩ := h
  have hself : m.toList.isPrefixOf (m.toList ++ cs) = true :=
    List.isPrefixOf_iff_prefix.2 (List.prefix_append _ _)
  unfold scanMark
  cases hfind : ms.find? fun w ↦ w.toList.isPrefixOf (m.toList ++ cs) with
  | none => exact absurd hself (List.find?_eq_none.1 hfind m hmem)
  | some w =>
    have hprefix := List.find?_some hfind
    have hw := List.isPrefixOf_iff_prefix.1 hprefix
    rcases hall w (List.mem_of_find?_eq_some hfind) with rfl | hcomparable
    · rw [Option.map_some, String.length_toList]
    · exfalso
      simp only [isComparable, Bool.or_eq_false_iff] at hcomparable
      rcases List.prefix_or_prefix_of_prefix hw (List.prefix_append m.toList cs) with h | h
      · rw [List.isPrefixOf_iff_prefix.2 h] at hcomparable
        cases hcomparable.2
      · rw [List.isPrefixOf_iff_prefix.2 h] at hcomparable
        cases hcomparable.1

/-- A mark that neither begins another one nor begins with it is not scanned as the other. -/
theorem scanMark_of_not_isComparable {ms : List String}
    (h : ms.any (isComparable m) = false) (cs : List Char) :
    scanMark ms (m.toList ++ cs) = none := by
  unfold scanMark
  rw [Option.map_eq_none_iff, List.find?_eq_none]
  intro w hw hprefix
  have hcomparable : isComparable m w = true := by
    have hw := List.isPrefixOf_iff_prefix.1 hprefix
    simp only [isComparable, Bool.or_eq_true]
    exact (List.prefix_or_prefix_of_prefix (List.prefix_append m.toList cs) hw).imp
      List.isPrefixOf_iff_prefix.2 List.isPrefixOf_iff_prefix.2
  rw [List.any_eq_false] at h
  exact h w hw hcomparable

/-- An integer type is the next token where it is expected. -/
theorem lex_intType (he : e.takes (.intType (decimal n)) = true) (hcs : Stops cs) :
    lex e ('i' :: Nat.toDigits 10 n ++ cs) = some (.intType (decimal n), cs) := by
  have hdigits : (Nat.toDigits 10 n ++ cs).takeWhile Char.isDigit = Nat.toDigits 10 n :=
    takeWhile_append (fun c hc ↦ Nat.isDigit_of_mem_toDigits (by decide) (by decide) hc)
      (hcs.of_le fun _ ↦ isNameChar_of_isDigit)
  have hscan : scanIntType ('i' :: (Nat.toDigits 10 n ++ cs)) =
      some (.intType (decimal n), (Nat.toDigits 10 n).length + 1) := by
    simp only [scanIntType, hdigits]
    split
    · rename_i hnil
      exact absurd hnil Nat.toDigits_ne_nil
    · rw [numeral_toDigits (by decide) (by decide)]
      rfl
  apply lex_of_scan rfl (by decide)
  have he : e.intType = true := he
  simp [scan, he, hscan]

theorem isIdentifier_iff : isIdentifier x = true ↔
    ∃ c s, x.toList = c :: s ∧ isNameStart c = true ∧ ∀ d ∈ s, isNameChar d = true := by
  unfold isIdentifier
  split <;> rename_i heq
  · simp [heq]
  · simp [heq]

/-- The name of a struct is the next token where it is expected. -/
theorem lex_structName (he : e.takes (.structName x) = true) (hx : isIdentifier x = true)
    (hcs : Stops cs) : lex e ('%' :: x.toList ++ cs) = some (.structName x, cs) := by
  obtain ⟨c, s, hxs, hc, hs⟩ := isIdentifier_iff.1 hx
  have hname : (s ++ cs).takeWhile isNameChar = s := takeWhile_append hs hcs
  have hscan : scanStructName ('%' :: (x.toList ++ cs)) =
      some (.structName x, x.toList.length + 1) := by
    rw [hxs, List.cons_append, scanStructName, if_pos hc, hname, ← hxs]
    simp only [String.ofList_toList]
  apply lex_of_scan rfl (by decide)
  have he : e.structName = true := he
  simp [scan, he, hscan, scanIntType_of_ne]

/-- A variable is the next token where it is expected. -/
theorem lex_var (he : e.takes (.var x) = true) (hx : isVarName x = true) (hcs : Breaks cs) :
    lex e ('%' :: x.toList ++ cs) = some (.var x, cs) := by
  simp only [isVarName, Bool.and_eq_true, Bool.not_eq_true', List.all_eq_true] at hx
  have hname : (x.toList ++ cs).takeWhile isVarChar = x.toList := takeWhile_append hx.2 hcs
  have hscan : scanVar ('%' :: (x.toList ++ cs)) = some (.var x, x.toList.length + 1) := by
    simp only [scanVar, hname]
    split
    · rename_i hnil
      rw [hnil] at hx
      cases hx.1
    · rw [String.ofList_toList]
  apply lex_of_scan rfl (by decide)
  simp only [Expect.takes, Bool.and_eq_true, Bool.not_eq_true'] at he
  simp [scan, he, hscan, scanIntType_of_ne]

/-- The name of a global is the next token where it is expected. -/
theorem lex_global (he : e.takes (.global x) = true) (hx : isSymbolName x = true)
    (hcs : Stops cs) : lex e ('@' :: x.toList ++ cs) = some (.global x, cs) := by
  simp only [isSymbolName, Bool.and_eq_true, Bool.not_eq_true', List.all_eq_true] at hx
  have hname : (x.toList ++ cs).takeWhile isNameChar = x.toList := takeWhile_append hx.2 hcs
  have hscan : scanGlobal ('@' :: (x.toList ++ cs)) = some (.global x, x.toList.length + 1) := by
    simp only [scanGlobal, hname]
    split
    · rename_i hnil
      rw [hnil] at hx
      cases hx.1
    · rw [String.ofList_toList]
  apply lex_of_scan rfl (by decide)
  have he : e.global = true := he
  simp [scan, he, hscan, scanIntType_of_ne, scanStructName_of_ne, scanVar_of_ne]

/-- Decimal digits are scanned up to the end of the number. -/
theorem scanDigits_decimal {ds : List Char} (hne : ds ≠ []) (hds : ∀ c ∈ ds, c.isDigit = true)
    (hcs : Stops cs) :
    scanDigits (ds ++ cs) = some (⟨numeral 10 ds, ds.length⟩, ds.length) := by
  have hdigits : (ds ++ cs).takeWhile Char.isDigit = ds :=
    takeWhile_append hds (hcs.of_le fun _ ↦ isNameChar_of_isDigit)
  simp only [scanDigits, hdigits]
  split
  · -- `0x` are no digits, and `x` does not follow a number
    rename_i heq
    match ds, hds with
    | [], _ => exact absurd rfl hne
    | [_], _ =>
      cases heq
      cases hcs 'x' rfl
    | _ :: d :: _, hds =>
      cases heq
      cases hds 'x' (by simp)
  · rfl

/-- Hexadecimal digits are scanned up to the end of the number. -/
theorem scanDigits_hexadecimal {ds : List Char} (hne : ds ≠ [])
    (hds : ∀ c ∈ ds, isHexDigit c = true) (hcs : Stops cs) :
    scanDigits ('0' :: 'x' :: ds ++ cs) = some (⟨numeral 16 ds, 0⟩, ds.length + 2) := by
  have hdigits : (ds ++ cs).takeWhile isHexDigit = ds :=
    takeWhile_append hds (hcs.of_le fun _ ↦ isNameChar_of_isHexDigit)
  simp only [scanDigits, List.cons_append, hdigits]

theorem scan_const {c : Char} {v : Token × Nat} (he : e.const = true) (hi : c ≠ 'i') (hp : c ≠ '%')
    (ha : c ≠ '@') (h : scanConst (c :: cs) = some v) : scan e (c :: cs) = some v := by
  simp [scan, he, h, scanIntType_of_ne hi, scanStructName_of_ne hp, scanVar_of_ne hp,
    scanGlobal_of_ne ha]

def decimalChars : Int → List Char
  | .ofNat n => Nat.toDigits 10 n
  | .negSucc n => '-' :: Nat.toDigits 10 (n + 1)

/-- A decimal number is the next token where it is expected. -/
theorem lex_decimal {v : Int} (he : e.takes (.const (decimal v)) = true) (hcs : Stops cs) :
    lex e (decimalChars v ++ cs) = some (.const (decimal v), cs) := by
  have hdigits (n : Nat) : scanDigits (Nat.toDigits 10 n ++ cs) =
      some (decimal n, (Nat.toDigits 10 n).length) := by
    rw [scanDigits_decimal Nat.toDigits_ne_nil
      (fun c hc ↦ Nat.isDigit_of_mem_toDigits (by decide) (by decide) hc) hcs,
      numeral_toDigits (by decide) (by decide)]
    rfl
  cases v with
  | ofNat n =>
    obtain ⟨c, s, hs⟩ := List.exists_cons_of_ne_nil (Nat.toDigits_ne_nil (n := n) (b := 10))
    have hc : c.isDigit = true :=
      Nat.isDigit_of_mem_toDigits (n := n) (b := 10) (by decide) (by decide)
        (hs ▸ List.mem_cons_self)
    have hne (d : Char) (hd : d.isDigit = false) : c ≠ d := by
      rintro rfl
      rw [hc] at hd
      cases hd
    have hscan : scanConst (c :: s ++ cs) = some (.const (decimal n), (c :: s).length) := by
      unfold scanConst
      split
      · rename_i heq
        cases heq
        cases hc
      · rw [← hs, hdigits]
        rfl
    show lex e (Nat.toDigits 10 n ++ cs) = _
    rw [hs]
    apply lex_of_scan
    · exact isBlank_of_isNameChar (isNameChar_of_isDigit hc)
    · exact hne ';' rfl
    · exact scan_const he (hne 'i' rfl) (hne '%' rfl) (hne '@' rfl) hscan
  | negSucc n =>
    have hscan : scanConst ('-' :: (Nat.toDigits 10 (n + 1) ++ cs)) =
        some (.const (decimal (.negSucc n)), (Nat.toDigits 10 (n + 1)).length + 1) := by
      simp only [scanConst, hdigits]
      rfl
    apply lex_of_scan rfl (by decide)
    exact scan_const he (by decide) (by decide) (by decide) hscan

/-- A hexadecimal number is the next token where it is expected. -/
theorem lex_hexadecimal (he : e.takes (.const (hexadecimal n)) = true) (hcs : Stops cs) :
    lex e ('0' :: 'x' :: Nat.toDigits 16 n ++ cs) = some (.const (hexadecimal n), cs) := by
  have hscan : scanConst ('0' :: 'x' :: Nat.toDigits 16 n ++ cs) =
      some (.const (hexadecimal n), ('0' :: 'x' :: Nat.toDigits 16 n).length) := by
    unfold scanConst
    split
    · rename_i heq
      cases heq
    · rw [scanDigits_hexadecimal Nat.toDigits_ne_nil (fun c ↦ isHexDigit_of_mem_toDigits) hcs,
        numeral_toDigits (by decide) (by decide)]
      rfl
  apply lex_of_scan rfl (by decide)
  exact scan_const he (by decide) (by decide) (by decide) hscan

theorem isDigit_of_isNameStart (h : isNameStart c = true) : c.isDigit = false := by
  by_contra hdigit
  unfold isNameStart Char.isAlpha Char.isUpper Char.isLower at h
  simp only [Char.isDigit, Bool.or_eq_true, Bool.and_eq_true, decide_eq_true_eq, beq_iff_eq,
    Bool.not_eq_false, ge_iff_le, UInt32.le_iff_toNat_le] at h hdigit
  rcases h with (h | h) | rfl
  · exact absurd (h.1.trans hdigit.2) (by decide)
  · exact absurd (h.1.trans hdigit.2) (by decide)
  · exact absurd hdigit.2 (by decide)

/-- Where no name and no number starts, a word or a mark is read. -/
theorem scan_eq_of_none (hi : e.intType = true → c ≠ 'i') (hp : c ≠ '%') (ha : c ≠ '@')
    (hconst : scanConst (c :: cs) = none) :
    scan e (c :: cs) = (scanWord e (c :: cs) <|> scanMark e.marks (c :: cs)) := by
  have hint : (if e.intType = true then scanIntType (c :: cs) else none) = none := by
    split
    · rename_i he
      exact scanIntType_of_ne (hi he)
    · rfl
  simp [scan, hint, scanStructName_of_ne hp, scanVar_of_ne hp, scanGlobal_of_ne ha, hconst]

/-- A word is scanned as a keyword if it is an expected one, and else as an identifier. -/
theorem scanIdent_eq (words : List String) (hx : isIdentifier x = true) (hcs : Stops cs) :
    scanIdent words (x.toList ++ cs) =
      some (if x ∈ words then .mark x else .ident x, x.toList.length) := by
  obtain ⟨c, s, hxs, hc, hs⟩ := isIdentifier_iff.1 hx
  have hname : (s ++ cs).takeWhile isNameChar = s := takeWhile_append hs hcs
  rw [hxs, List.cons_append, scanIdent, if_pos hc, hname, ← hxs]
  simp only [String.ofList_toList]

theorem lex_of_isIdentifier {t : Token} (hx : isIdentifier x = true)
    (hi : e.intType = true → x.toList.head? ≠ some 'i')
    (h : scanWord e (x.toList ++ cs) = some (t, x.toList.length)) :
    lex e (x.toList ++ cs) = some (t, cs) := by
  obtain ⟨c, s, hxs, hc, -⟩ := isIdentifier_iff.1 hx
  have hname := isNameChar_of_isNameStart hc
  rw [hxs] at h hi ⊢
  apply lex_of_scan (isBlank_of_isNameChar hname)
  · rintro rfl
    cases hname
  · have hne (d : Char) (hd : isNameStart d = false) : c ≠ d := by
      rintro rfl
      rw [hc] at hd
      cases hd
    have hconst : scanConst (c :: (s ++ cs)) = none :=
      scanConst_of_not_isDigit (hne '-' rfl) (isDigit_of_isNameStart hc)
    have hi' : e.intType = true → c ≠ 'i' := fun he hci ↦ hi he (congrArg some hci)
    rw [List.cons_append, scan_eq_of_none hi' (hne '%' rfl) (hne '@' rfl) hconst,
      ← List.cons_append, h]
    rfl

/-- An identifier is the next token where no keyword of its spelling is expected. -/
theorem lex_ident (he : e.takes (.ident x) = true) (hx : isIdentifier x = true) (hcs : Stops cs) :
    lex e (x.toList ++ cs) = some (.ident x, cs) := by
  simp only [Expect.takes, Bool.and_eq_true, Bool.not_eq_true', List.contains_eq_mem,
    decide_eq_false_iff_not] at he
  obtain ⟨⟨hident, hint⟩, hmem⟩ := he
  apply lex_of_isIdentifier hx
  · intro hint'
    rw [hint] at hint'
    cases hint'
  · rw [scanWord, if_pos hident, scanIdent_eq _ hx hcs, if_neg hmem]

/-- A keyword is the next token where it is expected. -/
theorem lex_word (he : e.takes (.mark m) = true) (hm : isIdentifier m = true) (hcs : Stops cs) :
    lex e (m.toList ++ cs) = some (.mark m, cs) := by
  simp only [Expect.takes, hm, if_true, Expect.takesWord, Bool.and_eq_true,
    Bool.not_eq_true', Bool.and_eq_false_iff, beq_eq_false_iff_ne] at he
  apply lex_of_isIdentifier hm
  · intro hint
    exact he.2.resolve_left (by rw [hint]; decide)
  · unfold scanWord
    split
    · rename_i hident
      have hmem : m ∈ e.words := by simpa [hident] using he.1
      rw [scanIdent_eq _ hm hcs, if_pos hmem]
    · rename_i hident
      exact scanMark_of_isFirm (by simpa [hident] using he.1) cs

/-- No name and no number starts like punctuation. -/
theorem exists_cons_of_punctuation (hm : m ∈ punctuation) (cs : List Char) :
    ∃ c s, m.toList = c :: s ∧ isBlank c = false ∧ isNameStart c = false ∧
      c ≠ ';' ∧ c ≠ '%' ∧ c ≠ '@' ∧ scanConst (c :: (s ++ cs)) = none := by
  simp only [punctuation, List.mem_cons, List.not_mem_nil, or_false] at hm
  rcases hm with rfl | rfl | rfl | rfl | rfl | rfl | rfl | rfl | rfl | rfl | rfl <;>
    exact ⟨_, _, rfl, rfl, rfl, by decide, by decide, by decide, rfl⟩

theorem not_isIdentifier_of_punctuation : ∀ m ∈ punctuation, isIdentifier m = false := by decide

/-- A punctuation mark is the next token where it is expected. -/
theorem lex_punctuation (he : e.takes (.mark m) = true) (hm : m ∈ punctuation) (cs : List Char) :
    lex e (m.toList ++ cs) = some (.mark m, cs) := by
  simp only [Expect.takes, not_isIdentifier_of_punctuation m hm, Bool.false_eq_true, if_false,
    Expect.takesPunctuation, Bool.and_eq_true, Bool.or_eq_true, Bool.not_eq_true'] at he
  obtain ⟨⟨-, hfirm⟩, hwords⟩ := he
  have hmark := scanMark_of_isFirm hfirm cs
  have hword : scanWord e (m.toList ++ cs) = none := by
    obtain ⟨c, s, hms, -, hc, -⟩ := exists_cons_of_punctuation hm cs
    unfold scanWord
    split
    · rw [hms, List.cons_append, scanIdent, if_neg (by rw [hc]; decide)]
    · rename_i hident
      exact scanMark_of_not_isComparable (hwords.resolve_left hident) cs
  obtain ⟨c, s, hms, hblank, hc, hsemi, hp, ha, hconst⟩ := exists_cons_of_punctuation hm cs
  have hi : e.intType = true → c ≠ 'i' := by
    rintro - rfl
    cases hc
  rw [hms] at hmark hword ⊢
  apply lex_of_scan hblank hsemi
  rw [List.cons_append] at hmark hword ⊢
  rw [scan_eq_of_none hi hp ha hconst, hword, hmark]
  rfl

end Scan

end RangeFlow.Source
