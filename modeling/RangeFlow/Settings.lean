import RangeFlow.Text.Integer

/-! # Settings of the analysis -/

namespace RangeFlow

structure Settings where
  /-- The number of sweeps after which ids that still change are widened. -/
  maxIterations : Nat
  /-- The id whose updates are traced. -/
  watch : Option String
  /-- The ids whose values come from outside the program. -/
  taint : List String
  one_le : 1 ≤ maxIterations
deriving DecidableEq, Repr

/-- Why settings are refused. -/
inductive SettingsError
  /-- The number of sweeps in the environment is no integer. -/
  | notInteger (text : String)
  | notPositive (value : Int)
deriving DecidableEq, Repr

def SettingsError.message : SettingsError → String
  | .notInteger text => s!"not an integer: {text}"
  | .notPositive value => s!"max_iterations must be positive, got {value}"

/-- The variables of the environment that are looked at, as far as they are set. -/
structure Environment where
  maxIterations : Option String
  watch : Option String
deriving DecidableEq, Repr

/-- The settings given for one run. -/
structure Overrides where
  maxIterations : Option Int
  watch : Option String
  taint : Option (List String)
deriving DecidableEq, Repr

/-- The settings that hold where a run gives none. -/
structure Defaults where
  maxIterations : Int
  watch : Option String
deriving DecidableEq, Repr

def Defaults.standard : Defaults := ⟨5, none⟩

/-- The defaults of an environment. A variable for the watched id that is empty counts as unset. -/
def Environment.defaults (env : Environment) : Except SettingsError Defaults := do
  let maxIterations ← match env.maxIterations with
    | none => pure Defaults.standard.maxIterations
    | some text =>
      match Text.integer? text with
      | some v => pure v
      | none => throw (.notInteger text)
  return ⟨maxIterations, env.watch.filter fun id => !id.isEmpty⟩

namespace Settings

/-- The settings with a number of sweeps that has to be positive. -/
def make (maxIterations : Int) (watch : Option String) (taint : List String) :
    Except SettingsError Settings :=
  if h : 0 < maxIterations then .ok ⟨maxIterations.toNat, watch, taint, by omega⟩
  else .error (.notPositive maxIterations)

/-- The settings of a run, completed by the defaults. -/
def ofOverrides (d : Defaults) (o : Overrides) : Except SettingsError Settings :=
  make (o.maxIterations.getD d.maxIterations) (o.watch.or d.watch) (o.taint.getD [])

/-- Whether an id is one whose values come from outside. -/
def isTainted (s : Settings) (id : String) : Bool := s.taint.contains id

end Settings

end RangeFlow
