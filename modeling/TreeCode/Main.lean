import TreeCode.CommandLine

/-!
# The program

`main` makes a call of the command line on the files and settings of the machine it runs on.
-/

namespace TreeCode.CommandLine

/-- The number of the system error that a path goes through a file, as it stands or taken from
zero. -/
def isNotDirectory (code : UInt32) : Bool := code == 20 || code == 0 - 20

def faultOf : IO.Error → FileFault
  | .noFileOrDirectory .. => .notFound
  | .inappropriateType _ code _ => if isNotDirectory code then .notDirectory else .isDirectory
  | e => .other (toString e)

def attempt {α : Type} (access : IO α) : IO (Except FileFault α) := do
  try
    return .ok (← access)
  catch e =>
    return .error (faultOf e)

instance : Files IO where
  read path := attempt do return (← IO.FS.readBinFile path).toList
  write path bytes := attempt (IO.FS.writeBinFile path ⟨bytes.toArray⟩)

end TreeCode.CommandLine

open TreeCode.CommandLine

def main (arguments : List String) : IO UInt32 := do
  let environment : Environment :=
    { logLevel := ← IO.getEnv logVariable
      noColour := (← IO.getEnv noColourVariable).isSome }
  let reply ← execute environment arguments
  IO.eprint reply.stderr
  IO.print reply.stdout
  return reply.code
