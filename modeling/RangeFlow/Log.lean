import RangeFlow.Notice

/-! # Warnings and traces of a run -/

namespace RangeFlow

/-- What becomes of a warning. -/
inductive WarningMode
  /-- Every warning is recorded. -/
  | always
  /-- A warning is recorded the first time its kind and text occur. -/
  | once
  /-- No warning is recorded. -/
  | silent
  /-- A warning ends the run. -/
  | strict
deriving DecidableEq, Repr

/-- The warnings recorded so far and the lines of the trace, oldest first. -/
structure Log where
  mode : WarningMode
  warnings : List Notice
  trace : List String
deriving DecidableEq, Repr

namespace Log

def empty (mode : WarningMode) : Log := ⟨mode, [], []⟩

/-- Whether a warning of the same kind and text is recorded. -/
def hasSeen (log : Log) (n : Notice) : Bool :=
  log.warnings.any fun m => m.kind == n.kind && m.text == n.text

def warn (log : Log) (n : Notice) : Except Notice Log :=
  match log.mode with
  | .always => .ok { log with warnings := log.warnings ++ [n] }
  | .once => .ok (if log.hasSeen n then log else { log with warnings := log.warnings ++ [n] })
  | .silent => .ok log
  | .strict => .error n

def addTrace (log : Log) (lines : List String) : Log := { log with trace := log.trace ++ lines }

end Log

end RangeFlow
