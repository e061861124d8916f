import TreeCode.Text.Numeral
import TreeCode.Text.Quoted

/-!
# Errors

`Error` lists what can go wrong when a program is written or run, each cause with the data that
its message shows. A byte that is no opcode is not among them: it ends a program.
-/

namespace TreeCode

inductive Error where
  /-- An element was given a blank tag. -/
  | blankTag (tag : String)
  /-- The key of the attribute at `offset` is followed by `found` and not by the delimiter. -/
  | undelimitedKey (offset : Nat) (found : UInt8)
  /-- No live node stands where an instruction looks for one, in the named slot if it names one. -/
  | noNode (slot : Option Int)
  /-- An instruction that joins two nodes does not find both. -/
  | noPair (parent child : Option Int)
  /-- A text of `length` bytes does not fit the field `what`. -/
  | unfitField (what : String) (length : Nat)
  | callbacksFull
  /-- The operand stack of `capacity` slots has no room. -/
  | operandOverflow (capacity : Nat)
  /-- The operand stack holds too little. -/
  | operandUnderflow
  /-- A text of `length` bytes at `offset` leaves the scratch memory. -/
  | outsideScratch (offset : Nat) (length : Int)
  | locked
  /-- The program ends inside the instruction at `offset`. -/
  | unfinished (offset : Nat)
  deriving DecidableEq, Repr

namespace Error

/-- A slot number, or a mark that there is none. -/
def slotText : Option Int → String
  | none => "<none>"
  | some slot => toString slot

def message : Error → String
  | blankTag tag => "Invalid tag name: " ++ Text.quote tag
  | undelimitedKey offset found =>
    "Malformed attribute at offset " ++ Nat.repr offset ++ ": expected NOP delimiter, found " ++
      Text.hexByte found
  | noNode none => "Invalid element ID: node table is empty"
  | noNode (some slot) => "Invalid element ID: " ++ toString slot
  | noPair parent child =>
    "Invalid parent or child: parent " ++ slotText parent ++ ", child " ++ slotText child
  | unfitField what length =>
    "Encoding error: " ++ what ++ " is " ++ Nat.repr length ++
      " bytes, the length field holds at most 255"
  | callbacksFull => "Callback store has no free one-byte index left"
  | operandOverflow capacity =>
    "Operand stack overflow (capacity " ++ Nat.repr capacity ++ ")"
  | operandUnderflow => "Operand stack underflow"
  | outsideScratch offset length =>
    "Scratch memory read of " ++ toString length ++ " bytes at offset " ++ Nat.repr offset ++
      " is out of bounds"
  | locked => "Program buffer is locked"
  | unfinished offset => "Program ends inside the instruction at offset " ++ Nat.repr offset

end Error

end TreeCode
