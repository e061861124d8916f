import TreeCode.Error
import TreeCode.Memory
import TreeCode.Text.Utf8

/-!
# The operand stack

`Operands` is the stack from which some instructions take their operands: integers in a row of
slots, and texts in a scratch memory. The stack grows down from the end of the slots. Slot 0 is no
value: it holds the pointer, the index of the value on top, or the number of slots when there is
none. A text of `n` bytes takes as many slots as it has words of four bytes, and lies in scratch at
four times the pointer; the slots it takes keep what they held.
-/

namespace TreeCode

/-- An operand stack with its scratch memory. -/
structure Operands where
  slots : Memory Int32
  scratch : Memory UInt8

namespace Operands

/-- An operation on an operand stack that can fail. -/
abbrev Access (α : Type) := EStateM Error Operands α

/-- The most slots a stack has. -/
def maxSlots : Nat := 0x7fffffff

/-- The slots that a text of `length` bytes takes. -/
def words (length : Nat) : Nat := (length + 3) / 4

/-- An empty stack. It has at least one slot, and at most `maxSlots`. -/
def empty (slots scratchBytes : Nat) : Operands :=
  let capacity := min (max slots 1) maxSlots
  ⟨(Memory.filled capacity 0).write 0 (Int32.ofNat capacity), Memory.filled scratchBytes 0⟩

def capacity (s : Operands) : Nat := s.slots.size

def pointer (s : Operands) : Nat := (s.slots.read 0).toNatClampNeg

def movePointer (s : Operands) (pointer : Nat) : Operands :=
  { s with slots := s.slots.write 0 (Int32.ofNat pointer) }

def depth (s : Operands) : Nat := s.capacity - s.pointer

def top? (s : Operands) : Option Int32 :=
  if s.pointer < s.capacity then some (s.slots.read s.pointer) else none

def push (value : Int32) : Access Unit := fun s =>
  if s.pointer < 2 then .error (.operandOverflow s.capacity) s
  else
    let p := s.pointer - 1
    .ok () (movePointer { s with slots := s.slots.write p value } p)

def pop : Access Int32 := fun s =>
  if s.pointer < s.capacity then .ok (s.slots.read s.pointer) (s.movePointer (s.pointer + 1))
  else .error .operandUnderflow s

def pushText (text : List UInt8) : Access Unit := fun s =>
  if s.pointer < words text.length + 1 then .error (.operandOverflow s.capacity) s
  else
    let p := s.pointer - words text.length
    if 4 * p + text.length ≤ s.scratch.size then
      .ok () (movePointer { s with scratch := s.scratch.writeRange (4 * p) text } p)
    else .error (.outsideScratch (4 * p) text.length) s

def popText (length : Int32) : Access String := fun s =>
  let outside := Error.outsideScratch (4 * s.pointer) length.toInt
  if length < 0 then .error outside s
  else
    let n := length.toNatClampNeg
    if s.capacity < s.pointer + words n then .error .operandUnderflow s
    else if 4 * s.pointer + n ≤ s.scratch.size then
      .ok (Text.ofUtf8 (s.scratch.readRange (4 * s.pointer) n)) (s.movePointer (s.pointer + words n))
    else .error outside s

end Operands

end TreeCode
