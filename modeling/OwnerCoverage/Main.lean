import OwnerCoverage.CommandLine.Run
import OwnerCoverage.Host.Listing

/-!
# The program

The program runs on the host that a listing on its standard input describes.
-/

namespace OwnerCoverage

/-- Writes what a run leaves behind, and gives its exit code. -/
def CommandLine.Outcome.emit (outcome : CommandLine.Outcome) : IO UInt32 := do
  (← IO.getStdout).putStr outcome.output
  (← IO.getStderr).putStr outcome.errors
  return outcome.code.toUInt32

end OwnerCoverage

open OwnerCoverage in
/-- Reads the listing and runs the program with the given arguments. -/
def main (arguments : List String) : IO UInt32 := do
  let format ← IO.getEnv "CODEOWNERS_COVERAGE_FORMAT"
  match Host.Listing.ofText (← (← IO.getStdin).readToEnd) with
  | .error number =>
      (← IO.getStderr).putStrLn ("line " ++ toString number ++ " of the listing is faulty")
      return 2
  | .ok listing =>
      let environment : CommandLine.Environment := ⟨listing.tree, listing.working, format⟩
      (environment.run arguments).emit
