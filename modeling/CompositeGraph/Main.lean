/-
  THE PROGRAM: reads the files that its arguments name, runs, and writes.
-/
import CompositeGraph.CommandLine

namespace CompositeGraph

/-- What a file holds, if it can be read. -/
def contents? (path : String) : IO (Option String) := do
  match ← (IO.FS.readFile path).toBaseIO with
  | .ok text => return some text
  | .error _ => return none

/-- Writes a file; whether that worked. -/
def writeContents (path text : String) : IO Bool := do
  match ← (IO.FS.writeFile path text).toBaseIO with
  | .ok _ => return true
  | .error _ => return false

end CompositeGraph

open CompositeGraph in
def main (arguments : List String) : IO UInt32 := do
  let files ← (CommandLine.readPaths arguments).filterMapM fun path => do
    return (← contents? path).map fun text => (path, text)
  let outcome := CommandLine.run arguments (Assoc.ofList files).get? fun _ => true
  IO.print outcome.output
  IO.eprint outcome.errors
  match outcome.written with
  | none => return outcome.code.toUInt32
  | some (path, text) =>
    if ← writeContents path text then return outcome.code.toUInt32
    IO.eprint (CommandLine.Failure.unwritten path).outcome.errors
    return 1
