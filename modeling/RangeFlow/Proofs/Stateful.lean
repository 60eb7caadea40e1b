/-!
# Runs of computations with a state

A computation that succeeds is taken apart into the steps it is made of, with the states in between.
-/

namespace RangeFlow

variable {ε σ α β : Type} {s t : σ}

@[simp] theorem run_pure_eq_ok {a b : α} :
    (pure a : EStateM ε σ α).run s = .ok b t ↔ a = b ∧ s = t := by
  simp [EStateM.run, pure, EStateM.pure]

/-- A composed computation succeeds if its parts do, one after the other. -/
@[simp] theorem run_bind_eq_ok {m : EStateM ε σ α} {k : α → EStateM ε σ β} {b : β} :
    (m >>= k).run s = .ok b t ↔ ∃ a u, m.run s = .ok a u ∧ (k a).run u = .ok b t := by
  simp only [EStateM.run, bind, EStateM.bind]
  cases m s with
  | ok a u =>
    constructor
    · exact fun h ↦ ⟨a, u, rfl, h⟩
    · rintro ⟨a', u', h, hk⟩
      cases h
      exact hk
  | error e u => simp

@[simp] theorem run_get_eq_ok {u : σ} :
    (get : EStateM ε σ σ).run s = .ok u t ↔ s = u ∧ s = t := by
  have hget : (get : EStateM ε σ σ).run s = .ok s s := rfl
  rw [hget, EStateM.Result.ok.injEq]

@[simp] theorem run_set_eq_ok {u : σ} {a : PUnit} :
    (set u : EStateM ε σ PUnit).run s = .ok a t ↔ u = t := by
  have hset : (set u : EStateM ε σ PUnit).run s = .ok a u := rfl
  rw [hset, EStateM.Result.ok.injEq, and_iff_right rfl]

@[simp] theorem run_modify_eq_ok {g : σ → σ} {a : PUnit} :
    (modify g : EStateM ε σ PUnit).run s = .ok a t ↔ g s = t := by
  have hmodify : (modify g : EStateM ε σ PUnit).run s = .ok a (g s) := rfl
  rw [hmodify, EStateM.Result.ok.injEq, and_iff_right rfl]

@[simp] theorem run_throw_eq_ok {x : ε} {a : α} :
    (throw x : EStateM ε σ α).run s = .ok a t ↔ False := by
  have hthrow : (throw x : EStateM ε σ α).run s = .error x s := rfl
  simp [hthrow]

end RangeFlow
