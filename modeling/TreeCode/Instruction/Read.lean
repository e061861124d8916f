import TreeCode.Instruction.Layout

/-!
# Reading an instruction

`read bytes` looks for an instruction at the front of a byte list. Its `Verdict` is the
instruction with its width, or that the bytes end too early, or that they start with no
instruction, or that an attribute's key is not followed by the delimiter. `readAt` reads at an
offset of a program and gives the texts as strings. `inlineWidth` measures the inline operands
from the length bytes alone, whether or not the bytes they promise are there.
-/

namespace TreeCode.Instruction

/-- What the front of a byte list is. -/
inductive Verdict where
  /-- An instruction that takes the first `width` bytes. -/
  | complete (instruction : Instruction (List UInt8)) (width : Nat)
  /-- The start of an instruction whose end is missing. -/
  | truncated
  /-- A byte that starts no instruction. -/
  | unknown (byte : UInt8)
  /-- An attribute with `found` where the delimiter belongs. -/
  | undelimited (found : UInt8)
  deriving DecidableEq, Repr

/-- The first `n` bytes and the rest, if there are as many. -/
def split? (n : Nat) (bytes : List UInt8) : Option (List UInt8 × List UInt8) :=
  let front := bytes.take n
  if front.length = n then some (front, bytes.drop n) else none

def readField : List UInt8 → Option (List UInt8 × List UInt8)
  | [] => none
  | n :: rest => split? n.toNat rest

def readAttribute : List UInt8 → Verdict
  | [] => .truncated
  | n :: rest =>
    if n = 0 then .undelimited 0
    else match split? (n.toNat - 1) rest with
      | none => .truncated
      | some (_, []) => .truncated
      | some (key, d :: rest) =>
        if d = Opcode.nop.byte then
          match readField rest with
          | none => .truncated
          | some (value, _) => .complete (.setAttribute key value) (key.length + value.length + 4)
        else .undelimited d

def readText (make : List UInt8 → Instruction (List UInt8)) (bytes : List UInt8) : Verdict :=
  match readField bytes with
  | none => .truncated
  | some (text, _) => .complete (make text) (text.length + 2)

def readListener (bytes : List UInt8) : Verdict :=
  match readField bytes with
  | none => .truncated
  | some (_, []) => .truncated
  | some (event, callback :: _) => .complete (.eventListener event callback) (event.length + 3)

def read : List UInt8 → Verdict
  | [] => .truncated
  | b :: rest =>
    match Opcode.ofByte? b with
    | none => .unknown b
    | some .nop => .unknown b
    | some .createElement => readText .createElement rest
    | some .textNode => readText .textNode rest
    | some .setAttribute => readAttribute rest
    | some .eventListener => readListener rest
    | some .appendChild => .complete .appendChild 1
    | some .appendSibling => .complete .appendSibling 1
    | some .removeChild => .complete .removeChild 1
    | some .replaceChild => .complete .replaceChild 1
    | some .setText => .complete .setText 1
    | some .removeAttribute => .complete .removeAttribute 1
    | some .style => .complete .style 1

/-! ## At an offset -/

/-- What stands at an offset of a program. -/
inductive Reading where
  /-- An instruction, and the offset just past it. -/
  | complete (instruction : Instruction String) (next : Nat)
  /-- The start of an instruction whose end is missing. -/
  | truncated
  /-- A byte that starts no instruction. -/
  | unknown (byte : UInt8)
  deriving DecidableEq, Repr

/-- A verdict on the bytes from `offset` on as a reading there. -/
def Verdict.at (offset : Nat) : Verdict → Except Error Reading
  | complete i width => .ok (.complete i.ofBytes (offset + width))
  | truncated => .ok .truncated
  | unknown byte => .ok (.unknown byte)
  | undelimited found => .error (.undelimitedKey offset found)

/-- Reads at an offset of a program. Past its end stands an unknown zero byte. -/
def readAt (program : List UInt8) (offset : Nat) : Except Error Reading :=
  match program.drop offset with
  | [] => .ok (.unknown 0)
  | bytes => (read bytes).at offset

/-! ## The width of inline operands -/

/-- The number of bytes that the inline operands at the front of a byte list take behind the
opcode, by their length bytes; none if there is no opcode or a length byte is missing. -/
def inlineWidth : List UInt8 → Option Nat
  | [] => none
  | b :: rest =>
    match Opcode.ofByte? b with
    | none => none
    | some .createElement | some .textNode => do
      let n ← rest.head?
      return 1 + n.toNat
    | some .eventListener => do
      let n ← rest.head?
      return 2 + n.toNat
    | some .setAttribute => do
      let k ← rest.head?
      let v ← rest[1 + k.toNat]?
      return 2 + k.toNat + v.toNat
    | some _ => some 0

/-! ## How much is read -/

theorem split?_eq_some_iff {n : Nat} {bytes front back : List UInt8} :
    split? n bytes = some (front, back) ↔ bytes = front ++ back ∧ front.length = n := by
  simp only [split?]
  split
  · rename_i h
    simp only [Option.some.injEq, Prod.mk.injEq]
    constructor
    · rintro ⟨rfl, rfl⟩
      exact ⟨(List.take_append_drop n bytes).symm, h⟩
    · rintro ⟨rfl, rfl⟩
      simp
  · rename_i h
    simp only [reduceCtorEq, false_iff, not_and]
    rintro rfl rfl
    simp at h

theorem split?_eq_none_iff {n : Nat} {bytes : List UInt8} :
    split? n bytes = none ↔ bytes.length < n := by
  simp only [split?, List.length_take]
  split <;> simp <;> omega

theorem readField_eq_some {bytes text rest : List UInt8} (h : readField bytes = some (text, rest)) :
    bytes.length = 1 + text.length + rest.length := by
  cases bytes with
  | nil => simp [readField] at h
  | cons n bytes =>
    obtain ⟨rfl, -⟩ := split?_eq_some_iff.mp h
    simp
    omega

theorem readText_width {make : List UInt8 → Instruction (List UInt8)} {bytes : List UInt8}
    {i : Instruction (List UInt8)} {width : Nat} (h : readText make bytes = .complete i width) :
    0 < width ∧ width ≤ bytes.length + 1 := by
  unfold readText at h
  split at h
  · cases h
  · rename_i hf
    have := readField_eq_some hf
    cases h
    omega

theorem readListener_width {bytes : List UInt8} {i : Instruction (List UInt8)} {width : Nat}
    (h : readListener bytes = .complete i width) : 0 < width ∧ width ≤ bytes.length + 1 := by
  unfold readListener at h
  split at h
  · cases h
  · cases h
  · rename_i hf
    have := readField_eq_some hf
    cases h
    simp at this
    omega

theorem readAttribute_width {bytes : List UInt8} {i : Instruction (List UInt8)} {width : Nat}
    (h : readAttribute bytes = .complete i width) : 0 < width ∧ width ≤ bytes.length + 1 := by
  unfold readAttribute at h
  split at h
  · cases h
  split at h
  · cases h
  split at h
  · cases h
  · cases h
  · rename_i hs
    split at h
    · split at h
      · cases h
      · rename_i hf
        have := readField_eq_some hf
        obtain ⟨rfl, -⟩ := split?_eq_some_iff.mp hs
        cases h
        simp only [List.length_append, List.length_cons]
        omega
    · cases h

/-- An instruction takes at least one byte, and no more than there are. -/
theorem read_width {bytes : List UInt8} {i : Instruction (List UInt8)} {width : Nat}
    (h : read bytes = .complete i width) : 0 < width ∧ width ≤ bytes.length := by
  cases bytes with
  | nil => cases h
  | cons b rest =>
    simp only [read] at h
    split at h
    case h_3 => exact readText_width h
    case h_4 => exact readText_width h
    case h_5 => exact readAttribute_width h
    case h_6 => exact readListener_width h
    all_goals cases h <;> simp

theorem length_drop_read_lt {bytes : List UInt8} {i : Instruction (List UInt8)} {width : Nat}
    (h : read bytes = .complete i width) : (bytes.drop width).length < bytes.length := by
  have := read_width h
  simp
  omega

end TreeCode.Instruction
