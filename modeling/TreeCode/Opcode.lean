/-!
# Opcodes

Each instruction starts with one byte, its opcode. `Opcode.byte` and `Opcode.ofByte?` go from one
to the other and back. `nop` starts no instruction: it stands between the key and the value of an
attribute.
-/

namespace TreeCode

/-- The kinds of instruction, and the delimiter. -/
inductive Opcode where
  | createElement | setAttribute | appendChild | removeChild | replaceChild | textNode
  | setText | removeAttribute | style | eventListener | nop | appendSibling
  deriving DecidableEq, Repr

namespace Opcode

def byte : Opcode → UInt8
  | createElement => 0x01
  | setAttribute => 0x02
  | appendChild => 0x03
  | removeChild => 0x04
  | replaceChild => 0x05
  | textNode => 0x06
  | setText => 0x07
  | removeAttribute => 0x08
  | style => 0x09
  | eventListener => 0x0a
  | nop => 0x0b
  | appendSibling => 0x0c

def ofByte? : UInt8 → Option Opcode
  | 0x01 => some createElement
  | 0x02 => some setAttribute
  | 0x03 => some appendChild
  | 0x04 => some removeChild
  | 0x05 => some replaceChild
  | 0x06 => some textNode
  | 0x07 => some setText
  | 0x08 => some removeAttribute
  | 0x09 => some style
  | 0x0a => some eventListener
  | 0x0b => some nop
  | 0x0c => some appendSibling
  | _ => none

def mnemonic : Opcode → String
  | createElement => "CREATE_ELEMENT"
  | setAttribute => "SET_ATTRIBUTE"
  | appendChild => "APPEND_CHILD"
  | removeChild => "REMOVE_CHILD"
  | replaceChild => "REPLACE_CHILD"
  | textNode => "TEXT_NODE"
  | setText => "SET_TEXT"
  | removeAttribute => "REMOVE_ATTRIBUTE"
  | style => "STYLE"
  | eventListener => "EVENT_LISTENER"
  | nop => "NOP"
  | appendSibling => "APPEND_SIBLING"

/-- Whether the instruction takes its operands from the operand stack. -/
def usesOperands : Opcode → Bool
  | removeChild | replaceChild | setText | removeAttribute | style => true
  | _ => false

/-- Whether the instruction carries texts in the program. -/
def carriesText : Opcode → Bool
  | createElement | setAttribute | textNode | eventListener => true
  | _ => false

@[simp] theorem ofByte?_byte (op : Opcode) : ofByte? op.byte = some op := by
  cases op <;> rfl

theorem byte_of_ofByte? {b : UInt8} {op : Opcode} (h : ofByte? b = some op) : op.byte = b := by
  unfold ofByte? at h
  split at h <;> cases h <;> rfl

theorem ofByte?_eq_some_iff {b : UInt8} {op : Opcode} : ofByte? b = some op ↔ op.byte = b :=
  ⟨byte_of_ofByte?, fun h => h ▸ ofByte?_byte op⟩

end Opcode

end TreeCode
