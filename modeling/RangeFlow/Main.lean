import RangeFlow.Command.Run

/-! # The command line -/

open RangeFlow

namespace RangeFlow.Command

/-- What the process can see, as far as the arguments ask for it. -/
def observe (argv : List String) : IO World := do
  let stdin ← IO.getStdin
  let text ← if ← stdin.isTty then pure none
    else if (inputPath? argv).isSome then pure none
    else some <$> stdin.readToEnd
  let content ← match inputPath? argv with
    | some path => try .ok <$> IO.FS.readFile path catch _ => pure (.error .missing)
    | none => pure (.error .missing)
  return {
    stdin := text
    read := fun _ => content
    target := .ok
    environment := ⟨← IO.getEnv "RANGEFLOW_MAX_ITERATIONS", ← IO.getEnv "RANGEFLOW_WATCH_ID"⟩ }

end RangeFlow.Command

def main (argv : List String) : IO UInt32 := do
  let outcome := Command.run (← Command.observe argv) argv
  IO.print outcome.stdout
  for n in outcome.log.warnings do IO.eprintln n.text
  for line in outcome.log.trace do IO.eprintln line
  match outcome.written with
  | some (path, bytes) => IO.FS.writeBinFile path ⟨bytes.toArray⟩
  | none => pure ()
  match outcome.ending with
  | .exit code =>
    if code = 2 then IO.eprintln Command.help
    return code.toUInt32
  | .failure f =>
    IO.eprintln f.message
    return 1
