import AutomationLint.CommandLine

open AutomationLint CommandLine

def readSource : Source → IO (Option String)
  | .input => do return String.fromUTF8? (← (← IO.getStdin).readBinToEnd)
  | .file path => do
    try return String.fromUTF8? (← IO.FS.readBinFile path)
    catch _ => return none

def main (given : List String) : IO UInt32 := do
  let text ← match request given with
    | .run o =>
      match o.source? with
      | some source => readSource source
      | none => pure none
    | _ => pure none
  let done := run (fun _ => text) given
  IO.print done.stdout
  return done.exit.toUInt32
