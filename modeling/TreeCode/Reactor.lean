import TreeCode.Log
import TreeCode.Registry

/-!
# Running callbacks

Callbacks are code of whoever uses the library, an `Embedder`. Its code is told how things stand by
a `Notice`: it has been started as some callback, or what it asked for last is done. It answers with
its next `Move`, and may keep a state, which is the same for all callbacks and all their runs. A
`Reactor` is that state with what callbacks can reach: the registries, the run queue and the log.

`play` follows the code to its end, and `invoke` runs the callback of a handler. A callback may
register others and run any, itself among them, to whatever depth; neither has a value where the
code never ends.
-/

namespace TreeCode

/-- What running code is told. -/
inductive Notice (κ : Type) where
  /-- It has been started as a callback. -/
  | began (callback : κ)
  /-- The callback that it handed over has this number, or none. -/
  | registered (answer : Except Error UInt8)
  /-- The handler that it ran had a callback, which has ended, or had none. -/
  | invoked (ran : Bool)
  /-- Its program is on the queue. -/
  | pushed

/-- What running code does next. -/
inductive Move (κ : Type) where
  | register (id : RegistryId) (callback : κ)
  | invoke (handler : Handler)
  | push (program : List UInt8)
  /-- The callback that started last ends. -/
  | finish

/-- The code of all callbacks, with states of type `ε`: what it does on a notice when the registries
and the queue are these. -/
class Embedder (ε : Type) (κ : outParam Type) where
  next (registries : RegistryId → Registry κ) (queue : List (List UInt8)) :
    Notice κ → ε → Move κ × ε

/-- What callbacks can reach. -/
structure Reactor (ε κ : Type) where
  registries : RegistryId → Registry κ := fun _ => {}
  queue : List (List UInt8) := []
  log : List Record := []
  /-- The state of the code. -/
  embedder : ε

namespace Reactor

variable {ε κ : Type}

def target : String := "bytedom::callback"

def trace (r : Reactor ε κ) (message : String) : Reactor ε κ :=
  { r with log := r.log ++ [⟨.trace, target, message⟩] }

def push (r : Reactor ε κ) (program : List UInt8) : Reactor ε κ :=
  { r with queue := r.queue ++ [program] }

def register (r : Reactor ε κ) (id : RegistryId) (callback : κ) :
    Except Error UInt8 × Reactor ε κ :=
  match (r.registries id).register callback with
  | .error e => (.error e, r)
  | .ok (index, registry) =>
    (.ok index,
      { r with
        registries := fun other => if other = id then registry else r.registries other }.trace
          ("registered callback #" ++ Nat.repr index.toNat))

/-- The callback of a handler, if its number has one by now. -/
def callback? (r : Reactor ε κ) (handler : Handler) : Option κ :=
  (r.registries handler.registry).get? handler.index

/-- Nothing runs, since no callback has the number. -/
def miss (r : Reactor ε κ) (index : UInt8) : Reactor ε κ :=
  r.trace ("no callback at #" ++ Nat.repr index.toNat)

variable [Embedder ε κ]

def next (r : Reactor ε κ) (notice : Notice κ) : Move κ × Reactor ε κ :=
  let (move, embedder) := Embedder.next r.registries r.queue notice r.embedder
  (move, { r with embedder })

/-- Follows the code from a notice to the end of the callback that started last. What the code comes
to is bound to what it is told next. -/
def play (r : Reactor ε κ) (n : Notice κ) : Option (Reactor ε κ) :=
  let (move, r) := r.next n
  match move with
  | .register id callback =>
    let (answer, r) := r.register id callback
    some r >>= play (n := .registered answer)
  | .invoke handler =>
    match r.callback? handler with
    | none => some (r.miss handler.index) >>= play (n := .invoked false)
    | some callback => some r >>= play (n := .began callback) >>= play (n := .invoked true)
  | .push program => some (r.push program) >>= play (n := .pushed)
  | .finish => some r
partial_fixpoint

/-- Runs the callback of a handler, and answers whether there was one. -/
def invoke (r : Reactor ε κ) (handler : Handler) : Option (Bool × Reactor ε κ) :=
  match r.callback? handler with
  | none => some (false, r.miss handler.index)
  | some callback => do
    let r ← r.play (.began callback)
    return (true, r)

/-- Runs handlers in order, and counts those that had a callback. -/
def fire (r : Reactor ε κ) : List Handler → Option (Nat × Reactor ε κ)
  | [] => some (0, r)
  | handler :: rest => do
    let (ran, r) ← r.invoke handler
    let (count, r) ← r.fire rest
    return (if ran then count + 1 else count, r)

end Reactor

end TreeCode
