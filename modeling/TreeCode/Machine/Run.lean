import TreeCode.Machine

/-!
# Running a machine

`Machine.run` reads and executes instructions from the machine's place on, until the program ends,
a byte starts no instruction, or the bytes of an instruction are not all there; then more can be
fed and the run taken up again. `Machine.flush` makes the insertions put off. Both answer an
`Outcome`: how it went, the machine and the host after it, and the records left.
-/

namespace TreeCode

inductive RunState where
  /-- At the end of the program. -/
  | done
  /-- At a byte that starts no instruction; what follows it is skipped. -/
  | halted
  /-- Before an instruction whose bytes are not all there. -/
  | pending
  deriving DecidableEq, Repr

/-- What a machine on a host leaves behind. -/
structure Outcome (σ ν α : Type) (T : Type → Type := SlotTable) where
  result : Except Error α
  machine : Machine ν T
  host : σ
  log : List Record := []

namespace Machine

variable {σ ν : Type} {T : Type → Type}

def target : String := "bytedom::vm"

def record (level : Level) (message : String) : Record := ⟨level, target, message⟩

def executing (place : Nat) (i : Instruction String) : Record :=
  record .trace (Text.decimal 4 place ++ " " ++ i.text)

/-- The record of a slot that the operand stack had no room for. -/
def notPushed (slot : SlotId) : Record :=
  record .debug ("operand stack full, " ++ slot.text ++ " not pushed")

def deferring : Record := record .debug "deferring sibling insertion to the next frame"

/-- The record of insertions made that were put off. -/
def flushed (count : Nat) : Record :=
  record .debug ("flushed " ++ Nat.repr count ++ " deferred sibling insertion(s)")

def waiting (place : Nat) : Record :=
  record .debug ("instruction at " ++ Nat.repr place ++ " is incomplete, waiting for more bytes")

def halting (place : Nat) (byte : UInt8) : Record :=
  record .debug ("halting on byte " ++ Text.hexByte byte ++ " at " ++ Nat.repr place)

variable [Host σ ν] [NodeTable T]

def startOn (host : σ) (program : List UInt8) (settings : Settings) (registry : RegistryId) :
    Machine ν T :=
  start program (Host.defersSiblings host) settings registry

def satisfy (m : Machine ν T) (host : σ) : Demand ν → Outcome σ ν Unit T
  | .create request =>
    let (node, host) := Host.create request host
    let (unpushed, m) := m.adopt node
    ⟨.ok (), m, host, unpushed.toList.map notPushed⟩
  | .edit request => ⟨.ok (), m, Host.edit request host, []⟩
  | .defer sibling child =>
    ⟨.ok (), { m with deferred := m.deferred ++ [(sibling, child)] }, host, [deferring]⟩

def execute (i : Instruction String) (m : Machine ν T) (host : σ) : Outcome σ ν Unit T :=
  match prepare i m with
  | .ok demand m => m.satisfy host demand
  | .error e m => ⟨.error e, m, host, []⟩

def runOn (bytes : List UInt8) (m : Machine ν T) (host : σ) : Outcome σ ν RunState T :=
  if bytes = [] then ⟨.ok .done, m, host, []⟩
  else match _h : Instruction.read bytes with
    | .complete raw width =>
      let i := raw.ofBytes
      let first := execute i { m with place := m.place + width } host
      match first.result with
      | .error e => { first with result := .error e, log := executing m.place i :: first.log }
      | .ok () =>
        let rest := runOn (bytes.drop width) first.machine first.host
        { rest with log := executing m.place i :: first.log ++ rest.log }
    | .truncated => ⟨.ok .pending, m, host, [waiting m.place]⟩
    | .unknown byte =>
      ⟨.ok .halted, { m with place := m.program.length }, host, [halting m.place byte]⟩
    | .undelimited found => ⟨.error (.undelimitedKey m.place found), m, host, []⟩
  termination_by bytes.length
  decreasing_by exact Instruction.length_drop_read_lt _h

def run (m : Machine ν T) (host : σ) : Outcome σ ν RunState T := runOn m.remaining m host

/-- Makes the insertions put off, in order, and answers how many there were. -/
def flush (m : Machine ν T) (host : σ) : Outcome σ ν Nat T :=
  let count := m.deferred.length
  ⟨.ok count, { m with deferred := [] },
    m.deferred.foldl (fun host (sibling, child) => Host.edit (.insertAfter sibling child) host) host,
    if count = 0 then [] else [flushed count]⟩

end Machine

end TreeCode
