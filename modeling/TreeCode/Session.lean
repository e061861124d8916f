import TreeCode.Document
import TreeCode.Machine.Run

/-!
# Sessions

A `Session` keeps a host, the number of the registry that its listeners refer to, and a queue of
programs. `Session.run` runs one program on a new machine and answers its root, the newest live
node. Callbacks, which run when an event fires, do not run programs: they put them on the queue, and
`Session.drain` later runs as many as the budget allows.
-/

namespace TreeCode

/-- A host with what its callbacks and programs need. -/
structure Session (σ : Type) where
  host : σ
  registry : RegistryId := 0
  queue : List (List UInt8) := []
  settings : Settings := {}

namespace Session

variable {σ ν : Type}

def target : String := "bytedom::session"

def enqueue (s : Session σ) (program : List UInt8) : Session σ :=
  { s with queue := s.queue ++ [program] }

/-- Fires an event at a node of the document. Callbacks find the session's queue, and what they put
on it stays there. -/
def fire {ε κ : Type} [Embedder ε κ] (s : Session Document) (id : NodeId) (event : String)
    (r : Reactor ε κ) : Option (Nat × Session Document × Reactor ε κ) := do
  let (count, r) ← s.host.fire id event { r with queue := s.queue }
  return (count, { s with queue := r.queue }, r)

variable [Host σ ν]

def machine (s : Session σ) (program : List UInt8) : Machine ν :=
  Machine.startOn s.host program s.settings s.registry

/-- Runs a program. An instruction that fails ends it at once; otherwise the insertions put off are
made, and a program that ends inside an instruction fails then. -/
def run (s : Session σ) (program : List UInt8) :
    Except Error (Option ν) × Session σ × List Record :=
  let ran := (s.machine program : Machine ν).run s.host
  match ran.result with
  | .error e => (.error e, { s with host := ran.host }, ran.log)
  | .ok state =>
    let flushed := ran.machine.flush ran.host
    (if state = .pending then .error (.unfinished ran.machine.place)
      else .ok flushed.machine.root?,
      { s with host := flushed.host }, ran.log ++ flushed.log)

/-- Runs queued programs in order, at most `budget` of them: their roots, and how many ran. A
program that fails ends it. -/
def runQueued (s : Session σ) : Nat → List (List UInt8) →
    Except Error (List ν × Nat) × Session σ × List Record
  | 0, queue => (.ok ([], 0), { s with queue }, [])
  | _ + 1, [] => (.ok ([], 0), { s with queue := [] }, [])
  | budget + 1, program :: queue =>
    match s.run program with
    | (.error e, s, log) => (.error e, { s with queue }, log)
    | (.ok root, s, log) =>
      let (result, s, later) := s.runQueued budget queue
      (result.map fun (roots, runs) => (root.toList ++ roots, runs + 1), s, log ++ later)

def drained (runs : Nat) : Record :=
  ⟨.debug, target, "drained " ++ Nat.repr runs ++ " queued run(s)"⟩

def exhausted (budget left : Nat) : Record :=
  ⟨.warn, target, "run budget of " ++ Nat.repr budget ++ " exhausted, " ++ Nat.repr left ++
    " program(s) left queued"⟩

/-- Runs queued programs in order within the session's budget, and answers their roots. -/
def drain (s : Session σ) : Except Error (List ν) × Session σ × List Record :=
  let (result, s', log) := s.runQueued s.settings.runBudget s.queue
  match result with
  | .error e => (.error e, s', log)
  | .ok (roots, runs) =>
    let left := s'.queue.length
    (.ok roots, s', log ++ (if runs = 0 then [] else [drained runs]) ++
      (if left = 0 then [] else [exhausted s.settings.runBudget left]))

end Session

end TreeCode
