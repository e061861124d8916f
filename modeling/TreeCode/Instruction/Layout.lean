import TreeCode.Error
import TreeCode.Instruction
import TreeCode.Text.Blank

/-!
# The layout of an instruction

`layout` writes an instruction as bytes: the opcode, then each text behind one byte with its
length. The key of an attribute is followed by the delimiter, and its length byte counts both.
`check` says which instructions can be written, and `encode` writes those.
-/

namespace TreeCode.Instruction

/-- The longest text behind a length byte. -/
def maxField : Nat := 255

/-- The longest key, whose length byte counts the delimiter too. -/
def maxKey : Nat := maxField - 1

def fieldLength (what : String) (bytes : List UInt8) : Except Error UInt8 :=
  if bytes.length ≤ maxField then .ok (UInt8.ofNat bytes.length)
  else .error (.unfitField what bytes.length)

def keyLength (bytes : List UInt8) : Except Error UInt8 :=
  if bytes.length ≤ maxKey then .ok (UInt8.ofNat (bytes.length + 1))
  else .error (.unfitField "attribute key" bytes.length)

def field (bytes : List UInt8) : List UInt8 := UInt8.ofNat bytes.length :: bytes

def layout : Instruction (List UInt8) → List UInt8
  | createElement tag => Opcode.createElement.byte :: field tag
  | setAttribute key value =>
    Opcode.setAttribute.byte :: UInt8.ofNat (key.length + 1) :: key ++
      Opcode.nop.byte :: field value
  | textNode text => Opcode.textNode.byte :: field text
  | eventListener event callback => Opcode.eventListener.byte :: field event ++ [callback]
  | i => [i.opcode.byte]

/-- Refuses an instruction that cannot be written: a blank tag, an empty event, a text too long. -/
def check : Instruction String → Except Error Unit
  | createElement tag => do
    if Text.isBlank tag then throw (.blankTag tag)
    let _ ← fieldLength "tag name" (Text.utf8 tag)
  | setAttribute key value => do
    let _ ← keyLength (Text.utf8 key)
    let _ ← fieldLength "attribute value" (Text.utf8 value)
  | textNode text => do
    let _ ← fieldLength "text" (Text.utf8 text)
  | eventListener event _ => do
    if event.isEmpty then throw (.unfitField "event name" 0)
    let _ ← fieldLength "event name" (Text.utf8 event)
  | _ => pure ()

def encode (i : Instruction String) : Except Error (List UInt8) := do
  i.check
  return i.toBytes.layout

end TreeCode.Instruction
