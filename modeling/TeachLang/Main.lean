import TeachLang.Arguments

/-!
# The program
-/

namespace TeachLang.CommandLine

/-- Deeper than any evaluation that ends in reasonable time. -/
def deepest : Nat := Nat.pow 2 60

def systemText (code : UInt32) (details : String) : String :=
  details ++ " (os error " ++ toString code ++ ")"

def fileText : IO.Error → String
  | .noFileOrDirectory _ code details | .invalidArgument _ code details
  | .permissionDenied _ code details | .resourceExhausted _ code details
  | .inappropriateType _ code details | .noSuchThing _ code details
  | .alreadyExists _ code details | .otherError code details | .hardwareFault code details
  | .resourceBusy code details => systemText code details
  | e => toString e

def attempt {α : Type} (action : IO α) : IO (Except String α) :=
  return (← action.toBaseIO).mapError fileText

def host : Host IO where
  readFile path := attempt (IO.FS.withFile path .read fun file => file.readBinToEnd)
  createFile path bytes := attempt (IO.FS.writeBinFile path bytes)
  readInput := return (← (← IO.getStdin).readBinToEnd).data.toList
  clock := IO.monoNanosNow

def Outcome.exit (o : Outcome) : IO UInt32 := do
  let out ← IO.getStdout
  out.write o.stdout
  out.flush
  o.stderr.forM IO.eprintln
  return o.code

end TeachLang.CommandLine

open TeachLang.CommandLine in
def main (args : List String) : IO UInt32 := do
  match readArguments args with
  | .ok job =>
    match ← job.perform host deepest with
    | some o => o.exit
    | none => IO.eprintln "error: evaluation goes too deep"; return 1
  | .error .version => IO.println versionText; return 0
  | .error .help => IO.println aboutText; return 0
  | .error .misuse => IO.eprintln aboutText; return 2
