/-
  The program: reads the input file, prints or writes the formatted text, and ends with status 2
  for a refused command line and status 1 for a text that cannot be read or a path that is missing.
-/
import CljTidy.CommandLine

namespace CljTidy.CommandLine

/-- Ends with a message that an option has no path. -/
def endWithoutPath : IO UInt32 := do
  IO.eprintln "no path given"
  return 1

/-- Prints or writes the formatted text. -/
def deliverText (text : String) : Option Value → IO UInt32
  | none => do
      IO.println text
      return 0
  | some .missing => endWithoutPath
  | some (.path path) => do
      IO.FS.writeFile path (text ++ "\n")
      IO.print (wrote path)
      return 0

end CljTidy.CommandLine

open CljTidy.CommandLine

/-- Formats one file as the command line says. -/
def main (argv : List String) : IO UInt32 := do
  match parse argv with
  | .error e =>
      IO.eprint e.report
      return 2
  | .ok none =>
      IO.print helpText
      return 0
  | .ok (some ⟨.missing, _, _⟩) => endWithoutPath
  | .ok (some ⟨.path path, output, verbose⟩) =>
      let contents? ← try some <$> IO.FS.readFile path catch _ => pure none
      match contents? with
      | none =>
          IO.eprint (UsageError.noSuchFile path).report
          return 2
      | some contents =>
          let job := job verbose path contents
          IO.eprint job.log
          match job.outcome with
          | .error message =>
              IO.eprintln message
              return 1
          | .ok text => deliverText text output
