/-!
# Settings

How large the memories of a machine are, and how many queued programs a session runs at once.
-/

namespace TreeCode

structure Settings where
  /-- Slots of the operand stack, the one that holds the pointer included. -/
  operandSlots : Nat := 1024
  /-- Bytes of scratch memory. -/
  scratchBytes : Nat := 4096
  /-- The number of queued programs that one drain runs at most. -/
  runBudget : Nat := 64
  deriving DecidableEq, Repr

namespace Settings

/-- Sets the size of the operand stack, which has at least the pointer's slot. -/
def withOperandSlots (s : Settings) (slots : Nat) : Settings :=
  { s with operandSlots := max slots 1 }

def withScratchBytes (s : Settings) (bytes : Nat) : Settings := { s with scratchBytes := bytes }

def withRunBudget (s : Settings) (runs : Nat) : Settings := { s with runBudget := runs }

end Settings

end TreeCode
