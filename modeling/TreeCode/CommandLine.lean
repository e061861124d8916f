import TreeCode.CommandLine.Files
import TreeCode.Listing
import TreeCode.Patch
import TreeCode.Session

/-!
# The command line

Three commands work on files: one lists a program, one runs a program on a new document and prints
what it built, and one writes the patch of two programs. `execute` is the whole of a call, in any
monad with files; it answers the exit code and what is printed.
-/

namespace TreeCode.CommandLine

/-! ## Commands -/

inductive Failure where
  | file (path : String) (fault : FileFault)
  | program (e : Error)
  deriving DecidableEq, Repr

namespace Failure

def message : Failure → String
  | file path fault => "error: `" ++ path ++ "`: " ++ fault.message
  | program e => "runtime error: " ++ e.message

def exitCode : Failure → UInt32
  | file _ _ => 2
  | program _ => 1

end Failure

inductive Command where
  | list (file : String)
  | run (file : String)
  | patch (old new out : String)
  | help
  deriving DecidableEq, Repr

def Command.ofArguments? : List String → Option Command
  | ["disasm", file] => some (.list file)
  | ["run", file] => some (.run file)
  | ["patch", old, new, out] => some (.patch old new out)
  | ["help"] | ["-h"] | ["--help"] => some .help
  | _ => none

def usage : String := "usage: bytedom <disasm <file> | run <file> | patch <old> <new> <out>>"

/-- What a program run on a new document shows: the fragment if there is one, else the root. -/
def render (s : Session Document) (root : Option NodeId) : String :=
  let html := if s.host.fragment = [] then root.bind s.host.html? else s.host.fragmentHtml?
  html.getD ""

section Commands

variable {m : Type → Type} [Monad m] [Files m]

def readFile (path : String) : ExceptT Failure m (List UInt8) := do
  match ← (Files.read path : m _) with
  | .ok bytes => return bytes
  | .error fault => throw (.file path fault)

def writeFile (path : String) (bytes : List UInt8) : ExceptT Failure m Unit := do
  match ← (Files.write path bytes : m _) with
  | .ok () => return ()
  | .error fault => throw (.file path fault)

/-- Does what is asked: the text to print, or why it failed, and the records left. -/
def Command.perform : Command → m (Except Failure String × List Record)
  | .list file => do
    match ← (readFile file : ExceptT Failure m _) with
    | .ok program => return (.ok (Listing.ofProgram program).text, [])
    | .error e => return (.error e, [])
  | .run file => do
    match ← (readFile file : ExceptT Failure m _) with
    | .ok program =>
      let (result, session, log) := Session.run { host := ({} : Document) } program
      match result with
      | .ok root => return (.ok (render session root ++ "\n"), log)
      | .error e => return (.error (.program e), log)
    | .error e => return (.error e, [])
  | .patch old new out => do
    let inputs : ExceptT Failure m _ := do
      let old ← readFile old
      let new ← readFile new
      return (old, new)
    match ← inputs with
    | .error e => return (.error e, [])
    | .ok (old, new) =>
      let (patched, log) := TreeCode.patch old new
      match ← (writeFile out patched : ExceptT Failure m _) with
      | .ok () =>
        return (.ok ("wrote " ++ Nat.repr patched.length ++ " byte(s) to " ++ out ++ "\n"), log)
      | .error e => return (.error e, log)
  | .help => return (.ok (usage ++ "\n"), [])

/-! ## Calls -/

structure Environment where
  /-- The value of the setting that names the log's threshold. -/
  logLevel : Option String := none
  /-- Whether colours are switched off. -/
  noColour : Bool := false

/-- The name of the setting that names the log's threshold. -/
def logVariable : String := "BYTEDOM_LOG"

/-- The name of the setting that switches colours off. -/
def noColourVariable : String := "NO_COLOR"

structure Reply where
  code : UInt32
  stdout : String := ""
  stderr : String := ""
  deriving DecidableEq, Repr

def execute (environment : Environment) (arguments : List String) : m Reply := do
  let initial := Logger.initial !environment.noColour
  let (adjusted, threshold) := initial.threshold.adjust environment.logLevel
  let logger := { initial with threshold }
  let warning := match adjusted with
    | .ok _ => ""
    | .error e => "warning: " ++ e.message ++ "\n"
  match Command.ofArguments? arguments with
  | none => return { code := 2, stderr := warning ++ usage ++ "\n" }
  | some command =>
    let (result, log) ← command.perform
    let logged := warning ++ String.join ((logger.lines log).map (· ++ "\n"))
    match result with
    | .ok output => return { code := 0, stdout := output, stderr := logged }
    | .error e => return { code := e.exitCode, stderr := logged ++ e.message ++ "\n" }

end Commands

end TreeCode.CommandLine
