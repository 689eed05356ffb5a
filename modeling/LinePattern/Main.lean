/-
The command line: reports on the outline given on standard input.
-/
import LinePattern.Outline.Report

namespace LinePattern

/-- What was read already, with the rest of the stream after it. -/
partial def readRest (input : IO.FS.Stream) (already : String) : IO String := do
  let line ← input.getLine
  if line.isEmpty then return already else readRest input (already ++ line)

end LinePattern

open LinePattern

def main : IO UInt32 := do
  match Outline.lineSet with
  | .error e =>
    IO.eprintln ("Error: " ++ e.message)
    return 1
  | .ok set =>
    IO.print (Outline.report set (← readRest (← IO.getStdin) ""))
    return 0
