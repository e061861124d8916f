import TreeCode.Instruction.Read

/-!
# Listings

`Listing.ofProgram` lists the instructions of a program with their offsets, and how the list ends: at
the end of the program, at a byte that starts no instruction, inside an instruction, or at an
attribute without its delimiter. `Listing.text` writes that list, one line for each.
-/

namespace TreeCode

inductive Ending where
  /-- At the end of the program. -/
  | finished
  /-- At a byte that starts no instruction. -/
  | unknown (offset : Nat) (byte : UInt8)
  /-- Inside the instruction at an offset. -/
  | truncated (offset : Nat)
  /-- At an attribute whose key is not followed by the delimiter. -/
  | undelimited (offset : Nat) (found : UInt8)
  deriving DecidableEq, Repr

/-- The instructions of a program with their offsets, and how they end. -/
structure Listing where
  items : List (Nat × Instruction String)
  ending : Ending
  deriving DecidableEq, Repr

namespace Listing

def cons (offset : Nat) (i : Instruction String) (l : Listing) : Listing :=
  ⟨(offset, i) :: l.items, l.ending⟩

def ofBytes (offset : Nat) (bytes : List UInt8) : Listing :=
  if bytes = [] then ⟨[], .finished⟩
  else match _h : Instruction.read bytes with
    | .complete i width =>
      cons offset i.ofBytes (ofBytes (offset + width) (bytes.drop width))
    | .truncated => ⟨[], .truncated offset⟩
    | .unknown byte => ⟨[], .unknown offset byte⟩
    | .undelimited found => ⟨[], .undelimited offset found⟩
  termination_by bytes.length
  decreasing_by exact Instruction.length_drop_read_lt _h

def ofProgram (program : List UInt8) : Listing := ofBytes 0 program

/-! ## As text -/

def offsetText (offset : Nat) : String := Text.decimal 4 offset

def itemLine (item : Nat × Instruction String) : String :=
  offsetText item.1 ++ "  " ++ item.2.text ++ "\n"

def endingLine : Ending → String
  | .finished => ""
  | .unknown offset byte => offsetText offset ++ "  <halt " ++ Text.hexByte byte ++ ">\n"
  | .truncated offset => offsetText offset ++ "  <truncated>\n"
  | .undelimited offset found => "error: " ++ (Error.undelimitedKey offset found).message ++ "\n"

def text (l : Listing) : String := String.join (l.items.map itemLine) ++ endingLine l.ending

end Listing

end TreeCode
