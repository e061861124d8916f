import TreeCode.Instruction.Read
import TreeCode.Log

/-!
# Patches

`patch old new` builds the program that supersedes `old`, walking both at once. Where both show
the same opcode with texts, the new operands are taken over and each program moves past its own;
where they show another common byte, it is copied; where they differ, the new byte is copied and
the old program stays. What then remains of the new program is copied. The widths are those of the
length bytes: nothing is checked, and a width past the end means the end.
-/

namespace TreeCode.Patch

def target : String := "bytedom::patch"

def takenOver (op : Opcode) (offset oldWidth newWidth : Nat) : Record :=
  let start := op.mnemonic ++ " at " ++ Nat.repr offset ++ ": "
  ⟨.trace, target,
    if oldWidth = newWidth then start ++ "same width, replaced in place"
    else start ++ "width " ++ Nat.repr oldWidth ++ " -> " ++ Nat.repr newWidth⟩

/-- The width of the operands at the front of a program, zero where it cannot be told. -/
def width (bytes : List UInt8) : Nat := (Instruction.inlineWidth bytes).getD 0

/-- Walks the rest of both programs, `offset` being the place in the new one: the bytes written
and the records left. -/
def walk (offset : Nat) : List UInt8 → List UInt8 → List UInt8 × List Record
  | [], new => (new, [])
  | _ :: _, [] => ([], [])
  | o :: old, n :: new =>
    if o ≠ n then
      let (out, log) := walk (offset + 1) (o :: old) new
      (n :: out, log)
    else match (Opcode.ofByte? n).filter Opcode.carriesText with
      | some op =>
        let oldWidth := width (o :: old)
        let newWidth := width (n :: new)
        let (out, log) := walk (offset + 1 + newWidth) (old.drop oldWidth) (new.drop newWidth)
        (n :: new.take newWidth ++ out, takenOver op offset oldWidth newWidth :: log)
      | none =>
        let (out, log) := walk (offset + 1) old new
        (n :: out, log)
  termination_by _ new => new.length

end TreeCode.Patch

namespace TreeCode

/-- The program that supersedes `old` with `new`, and the records of its making. -/
def patch (old new : List UInt8) : List UInt8 × List Record := Patch.walk 0 old new

end TreeCode
