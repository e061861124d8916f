import Mathlib.Logic.Relation
import TreeCode.Proofs.Machine.Running

/-!
# Requests to a machine

Whoever holds a machine can feed it, put operands on its stack and take them off, run it, and have
it make the insertions it put off. Each is a `Request`; `perform` answers one, and `serve` several
in order. `Later` leads from one moment of a machine's life to another, and the moments between two
instructions of a run are among them.
-/

namespace TreeCode

variable {σ ν α β : Type} {T : Type → Type}

inductive Request where
  | feed (bytes : List UInt8)
  | push (value : Int32)
  | pop
  | pushText (text : String)
  | run
  | flush
  deriving DecidableEq, Repr

inductive Answer where
  | nothing
  | value (value : Int32)
  | ran (state : RunState)
  | flushed (count : Nat)
  deriving DecidableEq, Repr

def Outcome.map (f : α → β) (o : Outcome σ ν α T) : Outcome σ ν β T :=
  ⟨o.result.map f, o.machine, o.host, o.log⟩

namespace Machine

/-- Takes a step of the machine for which the host is not asked. -/
def alone (m : Machine ν T) (host : σ) (step : StepOn T ν α) : Outcome σ ν α T :=
  match step m with
  | .ok a m => ⟨.ok a, m, host, []⟩
  | .error e m => ⟨.error e, m, host, []⟩

variable [Host σ ν] [NodeTable T]

def perform (m : Machine ν T) (host : σ) : Request → Outcome σ ν Answer T
  | .feed bytes => ⟨.ok .nothing, m.feed bytes, host, []⟩
  | .push value => (m.alone host (push value)).map fun _ => .nothing
  | .pop => (m.alone host pop).map .value
  | .pushText text => (m.alone host (pushText text)).map fun _ => .nothing
  | .run => (m.run host).map .ran
  | .flush => (m.flush host).map .flushed

/-- Answers requests one after the other, whether or not they fail: the answers, and the machine and
the host after them. -/
def serve : List Request → Machine ν T → σ → List (Except Error Answer) × Machine ν T × σ
  | [], m, host => ([], m, host)
  | request :: rest, m, host =>
    let first := m.perform host request
    let later := serve rest first.machine first.host
    (first.result :: later.1, later.2)

/-- From one moment of a machine on its host to the next: the machine answers a request, or it is in
a run and executes the instruction it stands before. -/
inductive Next : Machine ν T × σ → Machine ν T × σ → Prop
  | request (m : Machine ν T) (host : σ) (request : Request) :
      Next (m, host) ((m.perform host request).machine, (m.perform host request).host)
  | instruction {m : Machine ν T} {raw : Instruction (List UInt8)} {width : Nat} (host : σ) :
      Instruction.read m.remaining = .complete raw width →
      Next (m, host) ((execute raw.ofBytes (m.advance width) host).machine,
        (execute raw.ofBytes (m.advance width) host).host)

abbrev Later : Machine ν T × σ → Machine ν T × σ → Prop := Relation.ReflTransGen Next

end Machine

end TreeCode
