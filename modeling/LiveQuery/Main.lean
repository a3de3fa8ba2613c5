import LiveQuery.CommandLine

/-! Prints the statement that a query description stands for. -/

open LiveQuery

def configText (args : List String) : IO (Option String) :=
  match Options.read {} none args with
  | .ok { config := some path, .. } => do
    try return some (← IO.FS.readFile path) catch _ => return none
  | _ => return none

def main (args : List String) : IO UInt32 := do
  let text ← configText args
  let outcome := CommandLine.run args fun _ => text
  IO.print outcome.stdout
  if outcome.exit = 2 then IO.eprint CommandLine.usage
  if let some message := outcome.message then IO.eprintln ("Error: " ++ message)
  return outcome.exit.toUInt32
