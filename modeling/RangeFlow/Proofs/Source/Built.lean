import Mathlib.Data.List.Forall2
import RangeFlow.Proofs.Range.Resize
import RangeFlow.Source.Build

/-!
# What trees are built into

A tree that can be built is taken apart into parts that can be built.  The struct names met on the
way have no influence on the result, so they are left out (`Yields`).  In a program that was built,
an operand has the type that is written with it, unless it is the address of a symbol.
-/

namespace RangeFlow

/-- An operand can be written at a type. -/
def Operand.Suits (t : Ty) : Operand → Prop
  | .var _ s => s = t
  | .symbol _ => True
  | .literal v w => t = .int w ∧ countable w.bits = .ok () ∧ v = w.wrap v

/-- The operands of a value have the types that are written. -/
def Value.IsTyped : Value → Prop
  | .binary _ t a b | .compare _ t a b => a.Suits t ∧ b.Suits t
  | .cast _ s a _ => a.Suits s
  | .select t c a b => c.Suits .i1 ∧ a.Suits t ∧ b.Suits t
  | .phi t entries => ∀ e ∈ entries, e.value.Suits t
  | .load _ p | .field _ p _ => p.Suits .ptr
  | .alloca _ => True
  | .elem _ p i => p.Suits .ptr ∧ i.Suits i.ty
  | .call c => ∀ a ∈ c.args, a.Suits a.ty

def Action.IsTyped : Action → Prop
  | .assign _ v => v.IsTyped
  | .store t v p => v.Suits t ∧ p.Suits .ptr
  | .call c => ∀ a ∈ c.args, a.Suits a.ty
  | .finish (.jnz c _ _) => c.Suits .i1
  | .finish (.switch t c _ cases) =>
    c.Suits t ∧ ∀ k ∈ cases, ∃ w, t = .int w ∧ countable w.bits = .ok () ∧ k.value = w.wrap k.value
  | .finish (.ret t v) => v.Suits t
  | .finish (.jmp _) | .finish .retVoid | .finish .unreachable => True

/-- An integer operand that suits a type is of this type. -/
theorem Operand.Suits.ty_eq {o : Operand} {t : Ty} (h : o.Suits t) (hint : o.ty.isInt = true) :
    o.ty = t := by
  cases o with
  | var => exact h
  | literal => exact h.1.symm
  | symbol => cases hint

theorem Operand.Suits.self {o : Operand} {t : Ty} (h : o.Suits t) : o.Suits o.ty := by
  cases o with
  | var => rfl
  | literal => exact ⟨rfl, h.2⟩
  | symbol => exact ⟨⟩

namespace Source

/-! ## Parts that can be built -/

section Yields

variable {α β : Type}

/-- A part can be built into something, after some struct names. -/
def Yields (m : Build α) (a : α) : Prop := ∃ s t, m.run s = .ok (a, t)

@[simp] theorem yields_pure {a b : α} : Yields (pure a) b ↔ a = b := by
  constructor
  · rintro ⟨s, t, h⟩
    cases h
    rfl
  · rintro rfl
    exact ⟨∅, ∅, rfl⟩

/-- What two steps yield after each other, the second one yields from what the first one does. -/
theorem Yields.of_bind {m : Build α} {k : α → Build β} {b : β} (h : Yields (m >>= k) b) :
    ∃ a, Yields m a ∧ Yields (k a) b := by
  obtain ⟨s, t, h⟩ := h
  rw [StateT.run_bind] at h
  cases hm : m.run s with
  | error e =>
    rw [hm] at h
    cases h
  | ok r =>
    obtain ⟨a, u⟩ := r
    rw [hm] at h
    exact ⟨a, ⟨s, u, hm⟩, u, t, h⟩

@[simp] theorem yields_liftM {x : Except SourceError α} {a : α} :
    Yields (liftM x) a ↔ x = .ok a := by
  cases x with
  | error e =>
    constructor
    · rintro ⟨s, t, h⟩
      cases h
    · intro h
      cases h
  | ok b =>
    constructor
    · rintro ⟨s, t, h⟩
      cases h
      rfl
    · intro h
      cases h
      exact ⟨∅, ∅, rfl⟩

theorem not_yields_throw {e : SourceError} {a : α} : ¬Yields (throw e) a := by
  rintro ⟨s, t, h⟩
  cases h

/-- If a list is yielded, then each of its elements is yielded. -/
theorem Yields.of_mapM {f : α → Build β} {xs : List α} {ys : List β} (h : Yields (xs.mapM f) ys) :
    List.Forall₂ (fun x y ↦ Yields (f x) y) xs ys := by
  induction xs generalizing ys with
  | nil =>
    rw [List.mapM_nil, yields_pure] at h
    subst h
    exact .nil
  | cons x xs ih =>
    rw [List.mapM_cons] at h
    obtain ⟨y, hy, h⟩ := h.of_bind
    obtain ⟨zs, hzs, h⟩ := h.of_bind
    rw [yields_pure] at h
    subst h
    exact .cons hy (ih hzs)

end Yields

theorem bind_eq_ok {α β ε : Type} {x : Except ε α} {k : α → Except ε β} {b : β} :
    (x >>= k) = .ok b ↔ ∃ a, x = .ok a ∧ k a = .ok b := by
  cases x with
  | error e => simp [bind, Except.bind]
  | ok a => simp [bind, Except.bind]

theorem map_eq_ok {α β ε : Type} {f : α → β} {x : Except ε α} {b : β} :
    x.map f = .ok b ↔ ∃ a, x = .ok a ∧ f a = b := by
  cases x with
  | error e => simp [Except.map]
  | ok a => simp [Except.map]

theorem forall₂_of_mapM_eq_ok {α β ε : Type} {f : α → Except ε β} {xs : List α} {ys : List β}
    (h : xs.mapM f = .ok ys) : List.Forall₂ (fun x y ↦ f x = .ok y) xs ys := by
  induction xs generalizing ys with
  | nil =>
    cases h
    exact .nil
  | cons x xs ih =>
    rw [List.mapM_cons] at h
    cases hx : f x with
    | error e =>
      rw [hx] at h
      cases h
    | ok y =>
      cases hxs : xs.mapM f with
      | error e =>
        rw [hx, hxs] at h
        cases h
      | ok zs =>
        rw [hx, hxs] at h
        cases h
        exact .cons hx (ih hxs)

theorem exists_of_forall₂ {α β : Type} {R : α → β → Prop} {xs : List α} {ys : List β}
    (h : List.Forall₂ R xs ys) {y : β} (hy : y ∈ ys) : ∃ x ∈ xs, R x y := by
  induction h with
  | nil => exact absurd hy List.not_mem_nil
  | cons hxy _ ih =>
    rcases List.mem_cons.1 hy with rfl | hy
    · exact ⟨_, List.mem_cons_self, hxy⟩
    · obtain ⟨x, hx, hR⟩ := ih hy
      exact ⟨x, List.mem_cons_of_mem _ hx, hR⟩

theorem forall₂_trans {α β γ : Type} {R : α → β → Prop} {S : β → γ → Prop} {xs : List α}
    {ys : List β} {zs : List γ} (h : List.Forall₂ R xs ys) (h' : List.Forall₂ S ys zs) :
    List.Forall₂ (fun x z ↦ ∃ y, R x y ∧ S y z) xs zs := by
  induction h generalizing zs with
  | nil =>
    cases h'
    exact .nil
  | cons hxy _ ih =>
    cases h' with
    | cons hyz hrest => exact .cons ⟨_, hxy, hyz⟩ (ih hrest)

theorem forall₂_zip_map {α β γ : Type} {R : α → β → Prop} (f : α → γ) {xs : List α} {ys : List β}
    (h : List.Forall₂ R xs ys) :
    List.Forall₂ (fun x pair ↦ pair.2 = f x) xs (ys.zip (xs.map f)) := by
  induction h with
  | nil => exact .nil
  | cons _ _ ih => exact .cons rfl ih

/-! ## Operands -/

/-- A literal is wrapped at its type, which must be an integer type whose words can be counted. -/
theorem literalAt_eq_ok {t : Ty} {v : Int} {n : Nat} {w : Width} :
    literalAt t v = .ok (n, w) ↔ t = .int w ∧ countable w.bits = .ok () ∧ n = w.wrap v := by
  unfold literalAt
  cases t with
  | int u =>
    simp only [map_eq_ok, Width.counted, Ty.int.injEq]
    cases hu : countable u.bits with
    | error e =>
      constructor
      · rintro ⟨a, h, -⟩
        cases h
      · rintro ⟨rfl, hw, -⟩
        rw [hu] at hw
        cases hw
    | ok =>
      constructor
      · rintro ⟨a, h, hn⟩
        cases h
        cases hn
        exact ⟨rfl, hu, rfl⟩
      · rintro ⟨rfl, -, rfl⟩
        exact ⟨u, rfl, rfl⟩
  | ptr | void | array | named | literal => simp

/-- An operand that is read at a type suits it. -/
theorem suits_of_operandAt {t : Ty} {a : Atom} {o : Operand} (h : operandAt t a = .ok o) :
    o.Suits t := by
  cases a with
  | var name =>
    cases h
    rfl
  | symbol name =>
    cases h
    exact ⟨⟩
  | const n =>
    obtain ⟨⟨v, w⟩, hlit, ho⟩ := map_eq_ok.1 h
    obtain ⟨ht, hw, rfl⟩ := literalAt_eq_ok.1 hlit
    subst ho
    exact ⟨ht, hw, by rw [Width.wrap_wrap le_rfl]⟩

/-! ## Values and statements -/

/-- What a call is built into. -/
def CallTree.Turns (tree : CallTree) (c : Call) : Prop :=
  Yields (buildReturns tree.returns) c.returns ∧ c.callee = tree.callee ∧
    List.Forall₂ (fun arg o ↦ ∃ t, Yields (buildType arg.1) t ∧ operandAt t arg.2 = .ok o)
      tree.args c.args

inductive ValueTree.Turns : ValueTree → Value → Prop
  | binary {op : BinaryOp} {t : TypeTree} {a b : Atom} {ty : Ty} {x y : Operand} :
    Yields (buildType t) ty → operandAt ty a = .ok x → operandAt ty b = .ok y →
    Turns (.binary op t a b) (.binary op ty x y)
  | compare {op : Comparison} {t : TypeTree} {a b : Atom} {ty : Ty} {x y : Operand} :
    Yields (buildType t) ty → operandAt ty a = .ok x → operandAt ty b = .ok y →
    Turns (.compare op t a b) (.compare op ty x y)
  | cast {op : CastOp} {s t : TypeTree} {a : Atom} {source target : Ty} {x : Operand} :
    Yields (buildType s) source → Yields (buildType t) target → operandAt source a = .ok x →
    Turns (.cast op s a t) (.cast op source x target)
  | select {t : TypeTree} {c a b : Atom} {ty : Ty} {z x y : Operand} :
    Yields (buildType t) ty → operandAt .i1 c = .ok z → operandAt ty a = .ok x →
    operandAt ty b = .ok y → Turns (.select t c a b) (.select ty z x y)
  | phi {t : TypeTree} {entries : List (String × Atom)} {ty : Ty} {es : List PhiEntry} :
    Yields (buildType t) ty →
    List.Forall₂ (fun entry e ↦ e.label = entry.1 ∧ operandAt ty entry.2 = .ok e.value)
      entries es → Turns (.phi t entries) (.phi ty es)
  | load {t : TypeTree} {p : Atom} {ty : Ty} {x : Operand} :
    Yields (buildType t) ty → operandAt .ptr p = .ok x → Turns (.load t p) (.load ty x)
  | alloca {t : TypeTree} {ty : Ty} : Yields (buildType t) ty → Turns (.alloca t) (.alloca ty)
  | field {t : TypeTree} {p : Atom} {n : Numeral} {ty : Ty} {x : Operand} {i : Int} :
    Yields (buildType t) ty → ty.isStruct = true → operandAt .ptr p = .ok x →
    Turns (.field t p n) (.field ty x i)
  | elem {t it : TypeTree} {p i : Atom} {ty ity : Ty} {x y : Operand} :
    Yields (buildType t) ty → Yields (buildType it) ity → operandAt .ptr p = .ok x →
    operandAt ity i = .ok y → Turns (.elem t p it i) (.elem ty x y)
  | call {tree : CallTree} {c : Call} : tree.Turns c → Turns (.call tree) (.call c)

inductive StatementTree.Turns : StatementTree → Action → Prop
  | assign {x : String} {tree : ValueTree} {v : Value} :
    tree.Turns v → v.ty ≠ .void → Turns (.assign x tree) (.assign x v)
  | store {t : TypeTree} {v p : Atom} {ty : Ty} {x y : Operand} :
    Yields (buildType t) ty → operandAt ty v = .ok x → operandAt .ptr p = .ok y →
    Turns (.store t v p) (.store ty x y)
  | call {tree : CallTree} {c : Call} : tree.Turns c → Turns (.call tree) (.call c)
  | jmp {l : String} : Turns (.jmp l) (.finish (.jmp l))
  | jnz {c : Atom} {l r : String} {x : Operand} :
    operandAt .i1 c = .ok x → Turns (.jnz c l r) (.finish (.jnz x l r))
  | switch {t : TypeTree} {c : Atom} {l : String} {cases : List (Numeral × String)} {ty : Ty}
      {x : Operand} {ks : List SwitchCase} :
    Yields (buildType t) ty → operandAt ty c = .ok x →
    List.Forall₂ (fun tree k ↦ ∃ v, buildCase ty v tree.2 = .ok k) cases ks →
    Turns (.switch t c l cases) (.finish (.switch ty x l ks))
  | ret {t : TypeTree} {v : Atom} {ty : Ty} {x : Operand} :
    Yields (buildType t) ty → operandAt ty v = .ok x → Turns (.ret t v) (.finish (.ret ty x))
  | retVoid : Turns .retVoid (.finish .retVoid)
  | unreachable : Turns .unreachable (.finish .unreachable)

/-- A call that is built is what its tree turns into. -/
theorem turns_of_buildCall {tree : CallTree} {c : Call} (h : Yields (buildCall tree) c) :
    tree.Turns c := by
  obtain ⟨returns, hreturns, h⟩ := h.of_bind
  obtain ⟨args, hargs, h⟩ := h.of_bind
  obtain ⟨os, hos, h⟩ := h.of_bind
  rw [yields_pure] at h
  subst h
  rw [yields_liftM] at hos
  refine ⟨hreturns, rfl, ?_⟩
  refine (forall₂_trans hargs.of_mapM (forall₂_of_mapM_eq_ok hos)).imp ?_
  rintro ⟨t, a⟩ o ⟨⟨ty, b⟩, harg, ho⟩
  obtain ⟨ty', hty, harg⟩ := harg.of_bind
  obtain ⟨-, -, harg⟩ := harg.of_bind
  rw [yields_pure] at harg
  cases harg
  exact ⟨ty, hty, ho⟩

/-- A value that is built is what its tree turns into. -/
theorem turns_of_buildValue {tree : ValueTree} {v : Value} (h : Yields (buildValue tree) v) :
    tree.Turns v := by
  cases tree with
  | binary op t a b =>
    obtain ⟨t, ht, h⟩ := h.of_bind
    obtain ⟨-, -, h⟩ := h.of_bind
    obtain ⟨a, ha, h⟩ := h.of_bind
    obtain ⟨b, hb, h⟩ := h.of_bind
    rw [yields_pure] at h
    subst h
    rw [yields_liftM] at ha hb
    exact .binary ht ha hb
  | compare op t a b =>
    obtain ⟨t, ht, h⟩ := h.of_bind
    obtain ⟨-, -, h⟩ := h.of_bind
    obtain ⟨a, ha, h⟩ := h.of_bind
    obtain ⟨b, hb, h⟩ := h.of_bind
    rw [yields_pure] at h
    subst h
    rw [yields_liftM] at ha hb
    exact .compare ht ha hb
  | cast op s a t =>
    obtain ⟨s, hs, h⟩ := h.of_bind
    obtain ⟨-, -, h⟩ := h.of_bind
    obtain ⟨t, ht, h⟩ := h.of_bind
    obtain ⟨a, ha, h⟩ := h.of_bind
    rw [yields_pure] at h
    subst h
    rw [yields_liftM] at ha
    exact .cast hs ht ha
  | select t c a b =>
    obtain ⟨t, ht, h⟩ := h.of_bind
    obtain ⟨-, -, h⟩ := h.of_bind
    obtain ⟨c, hc, h⟩ := h.of_bind
    obtain ⟨a, ha, h⟩ := h.of_bind
    obtain ⟨b, hb, h⟩ := h.of_bind
    rw [yields_pure] at h
    subst h
    rw [yields_liftM] at hc ha hb
    exact .select ht hc ha hb
  | phi t entries =>
    obtain ⟨t, ht, h⟩ := h.of_bind
    obtain ⟨-, -, h⟩ := h.of_bind
    obtain ⟨es, hes, h⟩ := h.of_bind
    rw [yields_pure] at h
    subst h
    rw [yields_liftM] at hes
    refine .phi ht ((forall₂_of_mapM_eq_ok hes).imp ?_)
    rintro ⟨l, a⟩ e he
    obtain ⟨o, ho, rfl⟩ := map_eq_ok.1 he
    exact ⟨rfl, ho⟩
  | load t p =>
    obtain ⟨t, ht, h⟩ := h.of_bind
    obtain ⟨-, -, h⟩ := h.of_bind
    obtain ⟨p, hp, h⟩ := h.of_bind
    rw [yields_pure] at h
    subst h
    rw [yields_liftM] at hp
    exact .load ht hp
  | alloca t =>
    obtain ⟨t, ht, h⟩ := h.of_bind
    rw [yields_pure] at h
    subst h
    exact .alloca ht
  | field t p i =>
    obtain ⟨t, ht, h⟩ := h.of_bind
    obtain ⟨-, -, h⟩ := h.of_bind
    obtain ⟨i, -, h⟩ := h.of_bind
    split at h
    · rename_i hstruct
      obtain ⟨p, hp, h⟩ := h.of_bind
      rw [yields_pure] at h
      subst h
      rw [yields_liftM] at hp
      exact .field ht hstruct hp
    · exact absurd h not_yields_throw
  | elem t p it i =>
    obtain ⟨t, ht, h⟩ := h.of_bind
    obtain ⟨-, -, h⟩ := h.of_bind
    obtain ⟨it, hit, h⟩ := h.of_bind
    obtain ⟨-, -, h⟩ := h.of_bind
    obtain ⟨p, hp, h⟩ := h.of_bind
    obtain ⟨i, hi, h⟩ := h.of_bind
    rw [yields_pure] at h
    subst h
    rw [yields_liftM] at hp hi
    exact .elem ht hit hp hi
  | call c =>
    obtain ⟨c, hc, h⟩ := h.of_bind
    rw [yields_pure] at h
    subst h
    exact .call (turns_of_buildCall hc)

/-- An action that is built is what its tree turns into. -/
theorem turns_of_buildStatement {tree : StatementTree} {a : Action}
    (h : Yields (buildStatement tree) a) : tree.Turns a := by
  cases tree with
  | assign x v =>
    obtain ⟨v, hv, h⟩ := h.of_bind
    split at h
    · exact absurd h not_yields_throw
    · rename_i hvoid
      rw [yields_pure] at h
      subst h
      exact .assign (turns_of_buildValue hv) hvoid
  | store t v p =>
    obtain ⟨t, ht, h⟩ := h.of_bind
    obtain ⟨-, -, h⟩ := h.of_bind
    obtain ⟨v, hv, h⟩ := h.of_bind
    obtain ⟨p, hp, h⟩ := h.of_bind
    rw [yields_pure] at h
    subst h
    rw [yields_liftM] at hv hp
    exact .store ht hv hp
  | call c =>
    obtain ⟨c, hc, h⟩ := h.of_bind
    rw [yields_pure] at h
    subst h
    exact .call (turns_of_buildCall hc)
  | jnz c l r =>
    obtain ⟨-, -, h⟩ := h.of_bind
    obtain ⟨c, hc, h⟩ := h.of_bind
    rw [yields_pure] at h
    subst h
    rw [yields_liftM] at hc
    exact .jnz hc
  | switch t c l cases =>
    obtain ⟨t, ht, h⟩ := h.of_bind
    obtain ⟨-, -, h⟩ := h.of_bind
    obtain ⟨values, hvalues, h⟩ := h.of_bind
    obtain ⟨c, hc, h⟩ := h.of_bind
    obtain ⟨ks, hks, h⟩ := h.of_bind
    rw [yields_pure] at h
    subst h
    rw [yields_liftM] at hc hks
    have hlabels := forall₂_zip_map Prod.snd hvalues.of_mapM
    refine .switch ht hc ((forall₂_trans hlabels (forall₂_of_mapM_eq_ok hks)).imp ?_)
    rintro tree k ⟨⟨v, l⟩, hl, hk⟩
    exact ⟨v, hl ▸ hk⟩
  | ret t v =>
    obtain ⟨t, ht, h⟩ := h.of_bind
    obtain ⟨-, -, h⟩ := h.of_bind
    obtain ⟨v, hv, h⟩ := h.of_bind
    rw [yields_pure] at h
    subst h
    rw [yields_liftM] at hv
    exact .ret ht hv
  | jmp | retVoid | unreachable =>
    rw [buildStatement, yields_pure] at h
    subst h
    constructor

/-! ## Operands have the types that are written -/

theorem suits_of_turns_call {tree : CallTree} {c : Call} (h : tree.Turns c) :
    ∀ a ∈ c.args, a.Suits a.ty := by
  intro o ho
  obtain ⟨arg, -, t, -, hat⟩ := exists_of_forall₂ h.2.2 ho
  exact (suits_of_operandAt hat).self

theorem isTyped_of_turns_value {tree : ValueTree} {v : Value} (h : tree.Turns v) :
    v.IsTyped := by
  cases h with
  | binary _ ha hb | compare _ ha hb => exact ⟨suits_of_operandAt ha, suits_of_operandAt hb⟩
  | cast _ _ ha => exact suits_of_operandAt ha
  | select _ hc ha hb =>
    exact ⟨suits_of_operandAt hc, suits_of_operandAt ha, suits_of_operandAt hb⟩
  | phi _ hes =>
    intro e he
    obtain ⟨entry, -, -, hat⟩ := exists_of_forall₂ hes he
    exact suits_of_operandAt hat
  | load _ hp | field _ _ hp => exact suits_of_operandAt hp
  | alloca _ => exact ⟨⟩
  | elem _ _ hp hi => exact ⟨suits_of_operandAt hp, (suits_of_operandAt hi).self⟩
  | call hc => exact suits_of_turns_call hc

/-- What a tree turns into has operands of the types that are written in it. -/
theorem isTyped_of_turns {tree : StatementTree} {a : Action} (h : tree.Turns a) : a.IsTyped := by
  cases h with
  | assign hv _ => exact isTyped_of_turns_value hv
  | store _ hv hp => exact ⟨suits_of_operandAt hv, suits_of_operandAt hp⟩
  | call hc => exact suits_of_turns_call hc
  | jnz hc => exact suits_of_operandAt hc
  | switch _ hc hks =>
    refine ⟨suits_of_operandAt hc, fun k hk ↦ ?_⟩
    obtain ⟨tree, -, v, hv⟩ := exists_of_forall₂ hks hk
    obtain ⟨⟨n, w⟩, hn, rfl⟩ := map_eq_ok.1 hv
    obtain ⟨ht, hw, rfl⟩ := literalAt_eq_ok.1 hn
    exact ⟨w, ht, hw, by rw [Width.wrap_wrap le_rfl]⟩
  | ret _ hv => exact suits_of_operandAt hv
  | jmp | retVoid | unreachable => exact ⟨⟩

/-! ## Functions -/

/-- The instructions of blocks come from the parts of a body. -/
theorem mem_of_collectBlocks {name : String} {done blocks : List Block} {parts : List BodyPart}
    (h : collectBlocks name done parts = .ok blocks) {b : Block} (hb : b ∈ blocks) {i : Instr}
    (hi : i ∈ b.instrs) : (∃ d ∈ done, i ∈ d.instrs) ∨ .instr i ∈ parts := by
  induction parts generalizing done with
  | nil =>
    cases h
    exact .inl ⟨b, hb, hi⟩
  | cons part parts ih =>
    cases part with
    | label l =>
      unfold collectBlocks at h
      split at h
      · cases h
      · rcases ih h with ⟨d, hd, hi⟩ | hi
        · rcases List.mem_append.1 hd with hd | hd
          · exact .inl ⟨d, hd, hi⟩
          · obtain rfl := List.mem_singleton.1 hd
            exact absurd hi List.not_mem_nil
        · exact .inr (List.mem_cons_of_mem _ hi)
    | instr j =>
      unfold collectBlocks at h
      split at h
      · cases h
      · rename_i last hlast
        rcases ih h with ⟨d, hd, hi⟩ | hi
        · rcases List.mem_append.1 hd with hd | hd
          · exact .inl ⟨d, List.dropLast_subset _ hd, hi⟩
          · obtain rfl := List.mem_singleton.1 hd
            rcases List.mem_append.1 hi with hi | hi
            · exact .inl ⟨last, List.mem_of_getLast? hlast, hi⟩
            · obtain rfl := List.mem_singleton.1 hi
              exact .inr List.mem_cons_self
        · exact .inr (List.mem_cons_of_mem _ hi)

/-- Each collected function was there before or comes from one of the parts. -/
theorem mem_of_collectFunctions {seen fs : List Function} {parts : List Part}
    (h : collectFunctions seen parts = .ok fs) {f : Function} (hf : f ∈ fs) :
    f ∈ seen ∨ ∃ fp, .function fp ∈ parts ∧ collectFunction fp = .ok f := by
  induction parts generalizing seen with
  | nil =>
    cases h
    exact .inl hf
  | cons part parts ih =>
    cases part with
    | function fp =>
      unfold collectFunctions at h
      split at h
      · cases h
      · cases hfp : collectFunction fp with
        | error e =>
          rw [hfp] at h
          cases h
        | ok g =>
          rw [hfp] at h
          rcases ih h with hmem | ⟨fp', hmem, hf'⟩
          · rcases List.mem_append.1 hmem with hmem | hmem
            · exact .inl hmem
            · obtain rfl := List.mem_singleton.1 hmem
              exact .inr ⟨fp, List.mem_cons_self, hfp⟩
          · exact .inr ⟨fp', List.mem_cons_of_mem _ hmem, hf'⟩
    | struct | global =>
      unfold collectFunctions at h
      rcases ih h with hmem | ⟨fp, hmem, hf'⟩
      · exact .inl hmem
      · exact .inr ⟨fp, List.mem_cons_of_mem _ hmem, hf'⟩

/-- The instructions of a built function are built from its statements. -/
theorem exists_statement_of_buildFunction {head : HeadTree} {body : List BodyItem}
    {fp : FunctionParts} (h : Yields (buildFunction head body) fp) {i : Instr}
    (hi : .instr i ∈ fp.body) : ∃ tree, Yields (buildStatement tree) i.action := by
  obtain ⟨params, -, h⟩ := h.of_bind
  obtain ⟨returns, -, h⟩ := h.of_bind
  obtain ⟨parts, hparts, h⟩ := h.of_bind
  rw [yields_pure] at h
  subst h
  obtain ⟨item, -, hitem⟩ := exists_of_forall₂ hparts.of_mapM hi
  cases item with
  | label name =>
    rw [buildBodyItem, yields_pure] at hitem
    cases hitem
  | statement line tree =>
    obtain ⟨a, ha, hitem⟩ := hitem.of_bind
    rw [yields_pure] at hitem
    cases hitem
    exact ⟨tree, ha⟩

/-- The instructions of a built item are built from its statements. -/
theorem exists_statement_of_mem_body {item : Item} {fp : FunctionParts}
    (h : Yields (buildItem item) (.function fp)) {i : Instr} (hi : .instr i ∈ fp.body) :
    ∃ tree, Yields (buildStatement tree) i.action := by
  cases item with
  | declare head | function head body =>
    obtain ⟨fp', hfp, h⟩ := h.of_bind
    rw [yields_pure] at h
    cases h
    exact exists_statement_of_buildFunction hfp hi
  | global name t init =>
    obtain ⟨t, -, h⟩ := h.of_bind
    obtain ⟨init, -, h⟩ := h.of_bind
    rw [yields_pure] at h
    cases h
  | struct name fields =>
    obtain ⟨fields, -, h⟩ := h.of_bind
    obtain ⟨structs, -, h⟩ := h.of_bind
    split at h
    · exact absurd h not_yields_throw
    · obtain ⟨-, -, h⟩ := h.of_bind
      rw [yields_pure] at h
      cases h

/-- A function is collected from its parameters and its blocks. -/
theorem collectFunction_eq_ok {fp : FunctionParts} {f : Function} :
    collectFunction fp = .ok f ↔ ∃ params isVararg blocks,
      collectParams 0 fp.params = .ok (params, isVararg) ∧
      collectBlocks fp.name [] fp.body = .ok blocks ∧
      f = ⟨fp.name, params, fp.returns, isVararg, blocks⟩ := by
  simp only [collectFunction, bind_eq_ok]
  constructor
  · rintro ⟨⟨params, isVararg⟩, hparams, blocks, hblocks, h⟩
    cases h
    exact ⟨params, isVararg, blocks, hparams, hblocks, rfl⟩
  · rintro ⟨params, isVararg, blocks, hparams, hblocks, rfl⟩
    exact ⟨⟨params, isVararg⟩, hparams, blocks, hblocks, rfl⟩

/-- A program is collected from parts that were built one after the other. -/
theorem buildProgram_eq_ok {items : List Item} {p : Program} :
    buildProgram items = .ok p ↔ ∃ parts structs globals functions,
      (items.mapM buildItem).run ∅ = .ok (parts, structs) ∧
      collectGlobals [] parts = .ok globals ∧ collectFunctions [] parts = .ok functions ∧
      p = ⟨structs.entries.map fun (name, fields) ↦ ⟨name, fields⟩, globals, functions⟩ := by
  simp only [buildProgram, bind_eq_ok]
  constructor
  · rintro ⟨⟨parts, structs⟩, hparts, globals, hglobals, functions, hfunctions, h⟩
    cases h
    exact ⟨parts, structs, globals, functions, hparts, hglobals, hfunctions, rfl⟩
  · rintro ⟨parts, structs, globals, functions, hparts, hglobals, hfunctions, rfl⟩
    exact ⟨⟨parts, structs⟩, hparts, globals, hglobals, functions, hfunctions, rfl⟩

/-- A statement that can be built stands behind every instruction of a program. -/
theorem exists_statement_of_buildProgram {items : List Item} {p : Program}
    (h : buildProgram items = .ok p) {f : Function} (hf : f ∈ p.functions) {i : Instr}
    (hi : i ∈ f.instrs) : ∃ tree, Yields (buildStatement tree) i.action := by
  obtain ⟨parts, structs, globals, functions, hparts, -, hfunctions, rfl⟩ :=
    buildProgram_eq_ok.1 h
  obtain ⟨fp, hfp, hcollect⟩ :=
    (mem_of_collectFunctions hfunctions hf).resolve_left List.not_mem_nil
  obtain ⟨params, isVararg, blocks, -, hblocks, rfl⟩ := collectFunction_eq_ok.1 hcollect
  obtain ⟨b, hb, hib⟩ := List.mem_flatMap.1 hi
  have hpart : .instr i ∈ fp.body := by
    rcases mem_of_collectBlocks hblocks hb hib with ⟨d, hd, -⟩ | hpart
    · exact absurd hd List.not_mem_nil
    · exact hpart
  obtain ⟨item, -, hitem⟩ := exists_of_forall₂ (Yields.of_mapM ⟨_, _, hparts⟩) hfp
  exact exists_statement_of_mem_body hitem hpart

end Source

/-- In a program that was read, operands have the types that are written. -/
theorem Program.isTyped_of_parse {text : String} {p : Program} (h : Program.parse text = .ok p)
    {f : Function} (hf : f ∈ p.functions) {i : Instr} (hi : i ∈ f.instrs) : i.action.IsTyped := by
  unfold Program.parse at h
  split at h
  · cases h
  · obtain ⟨tree, htree⟩ := Source.exists_statement_of_buildProgram h hf hi
    exact Source.isTyped_of_turns (Source.turns_of_buildStatement htree)

end RangeFlow
