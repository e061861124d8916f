/-!
# Files

`Files m` says that a monad can read and write files by their paths. `Directory` is the plainest
kind of files: one directory of named byte lists, with no other directory in it.
`Directory.target` finds what a path leads to. The names of a path are divided by slashes; `.`
stays where it is and `..` goes up. Above the directory there are directories, but no name in them
is known.
-/

namespace TreeCode.CommandLine

inductive FileFault where
  | notFound
  | notDirectory
  | isDirectory
  | other (text : String)
  deriving DecidableEq, Repr

def FileFault.message : FileFault → String
  | notFound => "No such file or directory (os error 2)"
  | notDirectory => "Not a directory (os error 20)"
  | isDirectory => "Is a directory (os error 21)"
  | other text => text

class Files (m : Type → Type) where
  read : String → m (Except FileFault (List UInt8))
  write : String → List UInt8 → m (Except FileFault Unit)

/-- A directory that holds files and no other directory. -/
abbrev Directory := List (String × List UInt8)

namespace Directory

/-! ## Paths -/

/-- What a path leads to. -/
inductive Target where
  | directory
  /-- A name in the directory, whether or not a file has it. -/
  | member (name : String)
  deriving DecidableEq, Repr

/-- What names lead to, followed one by one from the directory (`inside`) or from one that is not
in it. A name with others behind it would have to be that of a directory. -/
def follow (d : Directory) (inside : Bool) : List String → Except FileFault Target
  | [] => .ok .directory
  | name :: rest =>
    if name = "." then d.follow inside rest
    else if name = ".." then d.follow false rest
    else if inside = false then .error .notFound
    else if rest = [] then .ok (.member name)
    else if (List.lookup name d).isSome then .error .notDirectory
    else .error .notFound

/-- What a path leads to. An empty path leads nowhere, and one with a slash in front starts at the
root. -/
def target (d : Directory) (path : String) : Except FileFault Target :=
  if path = "" then .error .notFound
  else d.follow (!path.startsWith "/") ((path.splitOn "/").filter (· ≠ ""))

def asksForDirectory (path : String) : Bool := path.endsWith "/"

/-! ## Reading and writing -/

def read (d : Directory) (path : String) : Except FileFault (List UInt8) :=
  match d.target path with
  | .error e => .error e
  | .ok .directory => .error .isDirectory
  | .ok (.member name) =>
    match List.lookup name d with
    | none => .error .notFound
    | some bytes => if asksForDirectory path then .error .notDirectory else .ok bytes

def put (name : String) (bytes : List UInt8) : Directory → Directory
  | [] => [(name, bytes)]
  | (n, b) :: rest => if n = name then (n, bytes) :: rest else (n, b) :: put name bytes rest

def write (d : Directory) (path : String) (bytes : List UInt8) : Except FileFault Directory :=
  match d.target path with
  | .error e => .error e
  | .ok .directory => .error .isDirectory
  | .ok (.member name) =>
    if asksForDirectory path then .error .isDirectory else .ok (d.put name bytes)

end Directory

instance : Files (StateM Directory) where
  read path := return (← get).read path
  write path bytes := do
    match (← get).write path bytes with
    | .ok d =>
      set d
      return .ok ()
    | .error e => return .error e

end TreeCode.CommandLine
