import RangeFlow.Proofs.Source.Spelling
import RangeFlow.Source.Grammar

/-!
# Rules for readers of tokens

A rule of the grammar reads a phrase if it passes the tokens of the phrase, provided that the
tokens behind it can follow (`Reads`).  The rules below follow the construction of the grammar: to
read two phrases one after the other, the first one has to expect the first token of the second.
-/

namespace RangeFlow.Source

open Reading

/-- A reader stands at the first of some tokens, and its text spells the others. -/
def Stands : List Token → Reader → Prop
  | [], r => r.token = .stop
  | t :: ts, r => r.token = t ∧ Spells ts r.next.rest

/-- Some tokens start with a mark. -/
def Closes (mark : String) (ts : List Token) : Prop := ∃ us, ts = .mark mark :: us

namespace Expect

/-- The first of some tokens is read; the end of a text always is. -/
def Meets (e : Expect) (ts : List Token) : Prop := ∀ t ∈ ts.head?, e.takes t = true

/-- The first of some tokens is read, and it is no comma. -/
def Ends (e : Expect) (ts : List Token) : Prop := e.Meets ts ∧ ¬Closes "," ts

/-- Some tokens start with one that is read. -/
def Starts (e : Expect) (ts : List Token) : Prop := ∃ t us, ts = t :: us ∧ e.takes t = true

variable {e : Expect} {t : Token} {ts : List Token}

theorem starts_cons (h : e.takes t = true) : e.Starts (t :: ts) := ⟨t, ts, rfl, h⟩

theorem Starts.append (h : e.Starts ts) (us : List Token) : e.Starts (ts ++ us) := by
  obtain ⟨t, vs, rfl, ht⟩ := h
  exact starts_cons ht

theorem Starts.meets (h : e.Starts ts) : e.Meets ts := by
  obtain ⟨t, vs, rfl, ht⟩ := h
  intro u hu
  cases hu
  exact ht

/-- What starts as expected does not start with another mark. -/
theorem Starts.not_closes {mark : String} (h : e.Starts ts) (hmark : e.takes (.mark mark) = false) :
    ¬Closes mark ts := by
  obtain ⟨t, us, rfl, ht⟩ := h
  rintro ⟨vs, hvs⟩
  cases hvs
  rw [hmark] at ht
  cases ht

/-- An expected mark other than a comma ends a list. -/
theorem ends_of_closes {mark : String} (hmark : e.takes (.mark mark) = true) (hne : mark ≠ ",")
    (h : Closes mark ts) : e.Ends ts := by
  obtain ⟨us, rfl⟩ := h
  refine ⟨(starts_cons hmark).meets, ?_⟩
  rintro ⟨vs, hvs⟩
  cases hvs
  exact hne rfl

/-- Before further phrases, each after a comma, a comma has to be expected. -/
theorem Meets.flatMap {β : Type} {tok : β → List Token} {us : List Token} (h : e.Meets us)
    (hcomma : e.takes (.mark ",") = true) (xs : List β) :
    e.Meets ((xs.flatMap fun x ↦ .mark "," :: tok x) ++ us) := by
  cases xs with
  | nil => exact h
  | cons x xs => exact (starts_cons hcomma).meets

/-- Before phrases with commas between them, the closing mark has to be expected, too. -/
theorem starts_separated {mark : String} {tss : List (List Token)} {us : List Token}
    (hmark : e.takes (.mark mark) = true) (h : ∀ ts ∈ tss, e.Starts ts) :
    e.Starts (separated tss ++ .mark mark :: us) := by
  cases tss with
  | nil => exact starts_cons hmark
  | cons ts tss => exact ((h ts List.mem_cons_self).append _).append _

end Expect

/-- A reader passes the tokens of a phrase, if the tokens behind them can follow. -/
def Reads {α : Type} (m : Reading α) (ts : List Token) (F : List Token → Prop) (Q : α → Prop) :
    Prop :=
  ∀ us r, F us → Stands (ts ++ us) r → ∃ a s, m.run r = .ok (a, s) ∧ Q a ∧ Stands us s

/-- Where a text spells tokens that are expected, the reader takes a step and stands at them. -/
theorem exists_readToken_of_spells {e : Expect} {ts : List Token} {c : Cursor}
    (h : Spells ts c.rest) (he : e.Meets ts) (last : Position) :
    ∃ r, readToken e c last = .ok r ∧ Stands ts r := by
  cases h with
  | nil hnil =>
    have hlex : lex e c.rest = some (.stop, []) := by
      unfold lex
      rw [hnil]
    obtain ⟨r, hr, htoken, -⟩ := exists_readToken last hlex
    exact ⟨r, hr, htoken⟩
  | @cons t ts cs rest hlex hlt hrest =>
    obtain ⟨r, hr, htoken, hnext⟩ := exists_readToken last (hlex e (he t rfl))
    exact ⟨r, hr, htoken, hnext ▸ hrest⟩

theorem run_advance (e : Expect) (r : Reader) :
    (advance e).run r = (readToken e r.next r.pos).map fun s ↦ ((), s) := by
  simp only [advance, StateT.run_bind, StateT.run_get, StateT.run_monadLift, monadLift_self,
    bind_pure_comp, StateT.run_set, Functor.map_map, pure_bind]
  rfl

namespace Reads

variable {α β : Type} {m : Reading α} {ts us : List Token} {t : Token} {e : Expect}
  {F G : List Token → Prop} {P : α → Prop} {Q : β → Prop}

theorem pure {b : β} (h : Q b) : Reads (Pure.pure b) [] F Q :=
  fun _ r _ hr ↦ ⟨b, r, rfl, h, hr⟩

/-- What is read before some tokens is read before fewer of them. -/
theorem mono (hm : Reads m ts F P) (hF : ∀ vs, G vs → F vs) : Reads m ts G P :=
  fun vs r hvs hr ↦ hm vs r (hF vs hvs) hr

/-- Two rules read their tokens one after the other. -/
theorem bind {f : α → Reading β} (hm : Reads m ts F P) (hF : ∀ vs, G vs → F (us ++ vs))
    (hf : ∀ a, P a → Reads (f a) us G Q) : Reads (m >>= f) (ts ++ us) G Q := by
  intro vs r hvs hr
  rw [List.append_assoc] at hr
  obtain ⟨a, s, hrun, ha, hs⟩ := hm (us ++ vs) r (hF vs hvs) hr
  obtain ⟨b, s', hrun', hb, hs'⟩ := hf a ha vs s hvs hs
  refine ⟨b, s', ?_, hb, hs'⟩
  rw [StateT.run_bind, hrun]
  exact hrun'

/-- One phrase after another. -/
theorem seq {a : α} {f : α → Reading β} (hm : Reads m ts e.Meets (a = ·)) (hus : e.Starts us)
    (hf : Reads (f a) us G Q) : Reads (m >>= f) (ts ++ us) G Q := by
  refine hm.bind (fun vs _ ↦ (hus.append vs).meets) ?_
  rintro _ rfl
  exact hf

/-- The last phrase of several. -/
theorem last {a : α} {f : α → Reading β} (hm : Reads m ts F (a = ·)) (hF : ∀ vs, G vs → F vs)
    (hf : Reads (f a) [] G Q) : Reads (m >>= f) ts G Q := by
  rw [← List.append_nil ts]
  refine hm.bind (fun vs hvs ↦ hF vs hvs) ?_
  rintro _ rfl
  exact hf

theorem advance_self : Reads (Reading.advance e) [t] e.Meets fun _ ↦ True := by
  intro vs r hvs hr
  obtain ⟨s, hs, hstands⟩ := exists_readToken_of_spells hr.2 hvs r.pos
  refine ⟨(), s, ?_, ⟨⟩, hstands⟩
  rw [run_advance, hs]
  rfl

theorem advance {f : Unit → Reading β} (hG : ∀ vs, G vs → e.Meets (us ++ vs))
    (hf : Reads (f ()) us G Q) : Reads (Reading.advance e >>= f) (t :: us) G Q :=
  advance_self.bind hG fun _ _ ↦ hf

theorem token {f : Token → Reading β} (hf : Reads (f t) (t :: ts) F Q) :
    Reads (Reading.token >>= f) (t :: ts) F Q := by
  intro vs r hvs hr
  have ht : r.token = t := hr.1
  have hrun := hf vs r hvs hr
  rw [← ht] at hrun
  exact hrun

/-- A test for a mark succeeds where the mark stands. -/
theorem isAt_true {mark : String} {p q : Reading β}
    (hF : ∀ vs, F vs → Closes mark (ts ++ vs)) (hp : Reads p ts F Q) :
    Reads (Reading.isAt mark >>= fun b ↦ if b = true then p else q) ts F Q := by
  intro vs r hvs hr
  have ht : r.token = .mark mark := by
    obtain ⟨us, hus⟩ := hF vs hvs
    rw [hus] at hr
    exact hr.1
  obtain ⟨b, s, hrun, hb⟩ := hp vs r hvs hr
  refine ⟨b, s, ?_, hb⟩
  show (if (r.token == .mark mark) = true then p else q).run r = _
  rw [ht, beq_self_eq_true, if_pos rfl, hrun]

/-- A test for a mark fails where the mark does not stand. -/
theorem isAt_false {mark : String} {p q : Reading β}
    (hF : ∀ vs, F vs → ¬Closes mark (ts ++ vs)) (hq : Reads q ts F Q) :
    Reads (Reading.isAt mark >>= fun b ↦ if b = true then p else q) ts F Q := by
  intro vs r hvs hr
  have hne : r.token ≠ .mark mark := by
    intro ht
    cases hts : ts ++ vs with
    | nil =>
      rw [hts] at hr
      have hstop : r.token = .stop := hr
      rw [ht] at hstop
      cases hstop
    | cons u us =>
      rw [hts] at hr
      have hu : r.token = u := hr.1
      exact hF vs hvs ⟨us, by rw [hts, ← hu, ht]⟩
  obtain ⟨b, s, hrun, hb⟩ := hq vs r hvs hr
  refine ⟨b, s, ?_, hb⟩
  show (if (r.token == .mark mark) = true then p else q).run r = _
  rw [beq_eq_false_iff_ne.2 hne, if_neg Bool.false_ne_true, hrun]

theorem pass_self {mark : String} : Reads (Reading.pass mark e) [.mark mark] e.Meets fun _ ↦ True :=
  isAt_true (fun vs _ ↦ ⟨vs, rfl⟩) advance_self

theorem pass {mark : String} {f : Unit → Reading β} (hG : ∀ vs, G vs → e.Meets (us ++ vs))
    (hf : Reads (f ()) us G Q) : Reads (Reading.pass mark e >>= f) (.mark mark :: us) G Q :=
  pass_self.bind hG fun _ _ ↦ hf

theorem globalName {x : String} : Reads (Reading.globalName e) [.global x] e.Meets (x = ·) :=
  token (advance (fun _ h ↦ h) (pure rfl))

theorem constValue {v : Numeral} : Reads (Reading.constValue e) [.const v] e.Meets (v = ·) :=
  token (advance (fun _ h ↦ h) (pure rfl))

section Lists

variable {tok : β → List Token} {res : β → α} {more : Nat → Reading (List α)}
  {item : Nat → Reading α} (next : Expect) {after : Expect} {xs : List β} {n : Nat}

/-- Phrases that each follow a comma, up to one that does not. -/
theorem commas
    (hmore : ∀ n, more (n + 1) = do
      if ← Reading.isAt "," then
        Reading.advance next
        let a ← item n
        return a :: (← more n)
      else return [])
    (hcomma : after.takes (.mark ",") = true) (hnext : ∀ x ∈ xs, next.Starts (tok x))
    (hitem : ∀ x ∈ xs, ∀ n, 2 * (tok x).length ≤ n →
      Reads (item n) (tok x) after.Meets (res x = ·))
    (hn : 2 * (xs.flatMap fun x ↦ .mark "," :: tok x).length + 1 ≤ n) :
    Reads (more n) (xs.flatMap fun x ↦ .mark "," :: tok x) after.Ends (xs.map res = ·) := by
  induction xs generalizing n with
  | nil =>
    obtain ⟨n, rfl⟩ : ∃ k, n = k + 1 := ⟨n - 1, by omega⟩
    rw [hmore]
    exact isAt_false (fun vs hvs ↦ hvs.2) (pure rfl)
  | cons x xs ih =>
    simp only [List.flatMap_cons, List.length_append, List.length_cons] at hn
    obtain ⟨n, rfl⟩ : ∃ k, n = k + 1 := ⟨n - 1, by omega⟩
    have ih := ih (fun y hy ↦ hnext y (List.mem_cons_of_mem _ hy))
      (fun y hy ↦ hitem y (List.mem_cons_of_mem _ hy)) (n := n) (by omega)
    rw [hmore, List.flatMap_cons, List.cons_append]
    refine isAt_true (fun vs _ ↦ ⟨_, rfl⟩) (advance (fun vs _ ↦ ?_) ?_)
    · exact (((hnext x List.mem_cons_self).append _).append vs).meets
    · refine (hitem x List.mem_cons_self n (by omega)).bind (fun vs hvs ↦ ?_) ?_
      · exact hvs.1.flatMap hcomma xs
      · rintro _ rfl
        exact ih.last (fun _ h ↦ h) (pure rfl)

/-- Phrases with commas between them before a closing mark. -/
theorem commaList {close : String}
    (hmore : ∀ n, more (n + 1) = do
      if ← Reading.isAt "," then
        Reading.advance next
        let a ← item n
        return a :: (← more n)
      else return [])
    (hcomma : after.takes (.mark ",") = true) (hclose : after.takes (.mark close) = true)
    (hne : close ≠ ",") (hnext : ∀ x ∈ xs, next.Starts (tok x))
    (hopen : next.takes (.mark close) = false)
    (hitem : ∀ x ∈ xs, ∀ n, 2 * (tok x).length ≤ n →
      Reads (item n) (tok x) after.Meets (res x = ·))
    (hn : 2 * (separated (xs.map tok)).length + 1 ≤ n) :
    Reads (do
      if ← Reading.isAt close then return []
      let a ← item n
      return a :: (← more n)) (separated (xs.map tok)) (Closes close) (xs.map res = ·) := by
  cases xs with
  | nil => exact isAt_true (fun vs hvs ↦ hvs) (pure rfl)
  | cons x xs =>
    simp only [List.map_cons, separated_cons, List.flatMap_map, List.length_append] at hn ⊢
    have hx := hnext x List.mem_cons_self
    refine isAt_false (fun vs _ ↦ ((hx.append _).append vs).not_closes hopen) ?_
    refine (hitem x List.mem_cons_self n (by omega)).bind (fun vs hvs ↦ ?_) ?_
    · exact (Expect.ends_of_closes hclose hne hvs).1.flatMap hcomma xs
    · rintro _ rfl
      have hxs := commas next hmore hcomma (fun y hy ↦ hnext y (List.mem_cons_of_mem _ hy))
        (fun y hy ↦ hitem y (List.mem_cons_of_mem _ hy)) (n := n) (by omega)
      exact hxs.last (fun _ hvs ↦ Expect.ends_of_closes hclose hne hvs) (pure rfl)

end Lists

end Reads

end RangeFlow.Source
