import TreeCode.Text.Blank

/-!
# The log

What runs leaves `Record`s: a level, the part of the program that speaks, and a message. A
`Logger` decides which records are written and how a line looks. `Level.parse` reads the name of a
level, blind to case and to blanks around it.
-/

namespace TreeCode

inductive Level where
  | error | warn | info | debug | trace
  deriving DecidableEq, Repr

namespace Level

def all : List Level := [error, warn, info, debug, trace]

def rank : Level → Nat
  | error => 0
  | warn => 1
  | info => 2
  | debug => 3
  | trace => 4

def name : Level → String
  | error => "ERROR"
  | warn => "WARN"
  | info => "INFO"
  | debug => "DEBUG"
  | trace => "TRACE"

/-- The terminal sequence that switches to the colour of a level. -/
def colour : Level → String
  | error => "\x1b[31m"
  | warn => "\x1b[33m"
  | info => "\x1b[32m"
  | debug => "\x1b[36m"
  | trace => "\x1b[90m"

/-- A text that names no level. -/
structure Unknown where
  input : String
  deriving DecidableEq, Repr

/-- The text of a refusal, which shows the input as it came. -/
def Unknown.message (e : Unknown) : String :=
  "invalid log level '" ++ e.input ++ "' (expected error, warn, info, debug or trace)"

/-- Whether two texts are the same but for the case of ASCII letters. -/
def sameLetters (s t : String) : Bool := s.toList.map Char.toLower == t.toList.map Char.toLower

def parse (input : String) : Except Unknown Level :=
  match all.find? (fun level => sameLetters level.name (Text.trim input)) with
  | some level => .ok level
  | none => .error ⟨input⟩

/-- The level in force after reading the value of a setting: an absent value keeps the level, and
so does one that names none. -/
def adjust (level : Level) : Option String → Except Unknown Level × Level
  | none => (.ok level, level)
  | some input =>
    match parse input with
    | .ok chosen => (.ok chosen, chosen)
    | .error e => (.error e, level)

end Level

structure Record where
  level : Level
  target : String
  message : String
  deriving DecidableEq, Repr

/-- Which records are written, and whether in colour. -/
structure Logger where
  threshold : Level
  colour : Bool
  deriving DecidableEq, Repr

namespace Logger

/-- The logger a program starts with: warnings and errors. -/
def initial (colour : Bool) : Logger := ⟨.warn, colour⟩

def enabled (logger : Logger) (level : Level) : Bool := level.rank ≤ logger.threshold.rank

def line (logger : Logger) (r : Record) : String :=
  let head := "[" ++ r.level.name ++ "]"
  let head := if logger.colour then r.level.colour ++ head ++ "\x1b[0m" else head
  head ++ " " ++ r.target ++ ": " ++ r.message

def lines (logger : Logger) (records : List Record) : List String :=
  (records.filter (fun r => logger.enabled r.level)).map logger.line

end Logger

theorem Level.mem_all (level : Level) : level ∈ Level.all := by
  cases level <;> decide

end TreeCode
