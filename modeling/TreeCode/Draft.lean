import TreeCode.Instruction.Layout

/-!
# Drafts

A `Draft` is a program under construction. Every write is refused while it is locked, and a write
that is refused changes nothing. `emit` writes an instruction after its checks; the other
operations edit single bytes.
-/

namespace TreeCode

/-- A program under construction. -/
structure Draft where
  bytes : List UInt8 := []
  locked : Bool := false
  deriving DecidableEq, Repr

namespace Draft

/-- An operation on a draft that can be refused. -/
abbrev Write (α : Type) := EStateM Error Draft α

/-- The unlocked draft that holds some programs one after the other. -/
def merge (programs : List (List UInt8)) : Draft := ⟨programs.flatten, false⟩

def lock (d : Draft) : Draft := { d with locked := true }

def unlock (d : Draft) : Draft := { d with locked := false }

def edit (f : List UInt8 → List UInt8) : Write Unit := fun d =>
  if d.locked then .error .locked d else .ok () { d with bytes := f d.bytes }

def write (bytes : List UInt8) : Write Unit := edit (· ++ bytes)

def emit (i : Instruction String) : Write Unit :=
  match i.encode with
  | .error e => throw e
  | .ok bytes => write bytes

def nop : Write Unit := write [Opcode.nop.byte]

/-- Puts a byte at an index, moving the rest up. An index past the end changes nothing. -/
def insertAt (index : Nat) (byte : UInt8) : Write Unit := edit (·.insertIdx index byte)

/-- Takes the byte at an index away, moving the rest down, and answers it. -/
def removeAt (index : Nat) : Write (Option UInt8) := do
  let byte := (← get).bytes[index]?
  edit (·.eraseIdx index)
  return byte

def clear : Write Unit := edit fun _ => []

end Draft

end TreeCode
