import TreeCode.Opcode
import TreeCode.Text.Quoted
import TreeCode.Text.Utf8

/-!
# Instructions

`Instruction τ` is an instruction whose texts are of type `τ`: bytes as a program holds them, or
strings as a machine reads them. `Instruction.text` is its line in a listing.
-/

namespace TreeCode

/-- An instruction with its inline operands. -/
inductive Instruction (τ : Type) where
  | createElement (tag : τ)
  | setAttribute (key value : τ)
  | appendChild
  | removeChild
  | replaceChild
  | textNode (text : τ)
  | setText
  | removeAttribute
  | style
  | eventListener (event : τ) (callback : UInt8)
  | appendSibling
  deriving DecidableEq, Repr

namespace Instruction

variable {τ υ : Type}

def opcode : Instruction τ → Opcode
  | createElement _ => .createElement
  | setAttribute _ _ => .setAttribute
  | appendChild => .appendChild
  | removeChild => .removeChild
  | replaceChild => .replaceChild
  | textNode _ => .textNode
  | setText => .setText
  | removeAttribute => .removeAttribute
  | style => .style
  | eventListener _ _ => .eventListener
  | appendSibling => .appendSibling

def map (f : τ → υ) : Instruction τ → Instruction υ
  | createElement tag => createElement (f tag)
  | setAttribute key value => setAttribute (f key) (f value)
  | appendChild => appendChild
  | removeChild => removeChild
  | replaceChild => replaceChild
  | textNode text => textNode (f text)
  | setText => setText
  | removeAttribute => removeAttribute
  | style => style
  | eventListener event callback => eventListener (f event) callback
  | appendSibling => appendSibling

/-- The instruction with its texts as bytes. -/
def toBytes (i : Instruction String) : Instruction (List UInt8) := i.map Text.utf8

/-- The instruction with its texts read. -/
def ofBytes (i : Instruction (List UInt8)) : Instruction String := i.map Text.ofUtf8

def operandText : Instruction String → String
  | createElement tag => " " ++ Text.quote tag
  | setAttribute key value => " " ++ Text.quote key ++ " = " ++ Text.quote value
  | textNode text => " " ++ Text.quote text
  | eventListener event callback =>
    " " ++ Text.quote event ++ " -> #" ++ Nat.repr callback.toNat
  | _ => ""

def text (i : Instruction String) : String := i.opcode.mnemonic ++ i.operandText

@[simp] theorem opcode_map (f : τ → υ) (i : Instruction τ) : (i.map f).opcode = i.opcode := by
  cases i <;> rfl

@[simp] theorem opcode_ne_nop (i : Instruction τ) : i.opcode ≠ .nop := by
  cases i <;> simp [opcode]

theorem map_map {φ : Type} (f : τ → υ) (g : υ → φ) (i : Instruction τ) :
    (i.map f).map g = i.map (g ∘ f) := by
  cases i <;> rfl

end Instruction

end TreeCode
