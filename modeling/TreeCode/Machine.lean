import TreeCode.Host
import TreeCode.Instruction.Read
import TreeCode.Log
import TreeCode.Operands
import TreeCode.Settings
import TreeCode.Slots

/-!
# Machines

A `Machine` holds a program, the place it has reached in it, an operand stack, the table of live
nodes, the sibling insertions it has put off, and the number of the registry that its listeners
refer to. Instructions that build a tree find their nodes by their place in the table; the others
take slots and texts from the operand stack. Any `NodeTable` will do for the table.

Each instruction asks the host for at most one thing. `prepare` works out what, taking operands and
live nodes as the instruction does, and fails without asking where a node or operand is missing.
-/

namespace TreeCode

/-- A machine whose nodes have handles of type `ν` and are kept in a table of type `T ν`. -/
structure Machine (ν : Type) (T : Type → Type := SlotTable) where
  program : List UInt8
  /-- The offset of the next instruction. -/
  place : Nat := 0
  operands : Operands
  table : T ν
  /-- Whether sibling insertions are put off. -/
  defersSiblings : Bool
  /-- The insertions put off, each a node and the one to put after it. -/
  deferred : List (ν × ν) := []
  /-- The registry of the callbacks that its listeners name. -/
  registry : RegistryId := 0

/-- What an instruction asks for. -/
inductive Demand (ν : Type) where
  | create (request : Creation)
  | edit (request : Edit ν)
  /-- An insertion to be put off. -/
  | defer (sibling child : ν)
  deriving DecidableEq, Repr

namespace Machine

variable {ν : Type} {T : Type → Type}

/-- A step of a machine that can fail. -/
abbrev StepOn (T : Type → Type) (ν α : Type) := EStateM Error (Machine ν T) α

abbrev Step (ν α : Type) := StepOn SlotTable ν α

def feed (m : Machine ν T) (bytes : List UInt8) : Machine ν T :=
  { m with program := m.program ++ bytes }

def remaining (m : Machine ν T) : List UInt8 := m.program.drop m.place

/-! ## Operands -/

/-- An access to the operand stack as a step of the machine. -/
def onOperands {α : Type} (access : Operands.Access α) : StepOn T ν α := fun m =>
  match access m.operands with
  | .ok a operands => .ok a { m with operands }
  | .error e operands => .error e { m with operands }

def push (value : Int32) : StepOn T ν Unit := onOperands (Operands.push value)

def pop : StepOn T ν Int32 := onOperands Operands.pop

/-- Puts a text on the operand stack. Its length is not put with it. -/
def pushText (text : String) : StepOn T ν Unit := onOperands (Operands.pushText (Text.utf8 text))

def popText : StepOn T ν String := do
  let length ← pop
  onOperands (Operands.popText length)

/-! ## Nodes -/

variable [NodeTable T]

def start (program : List UInt8) (defersSiblings : Bool) (settings : Settings)
    (registry : RegistryId) : Machine ν T :=
  { program, defersSiblings, registry
    operands := Operands.empty settings.operandSlots settings.scratchBytes
    table := NodeTable.empty }

def root? (m : Machine ν T) : Option ν := (NodeTable.newest? m.table).map (·.2)

/-- The live node that an operand names. -/
def node? (m : Machine ν T) (operand : Int32) : Option ν :=
  (SlotId.ofOperand? operand).bind (NodeTable.get? m.table)

/-- The live node that an operand names, or the error that there is none. -/
def nodeOf (operand : Int32) : StepOn T ν ν := do
  match (← get).node? operand with
  | some node => return node
  | none => throw (.noNode (some operand.toInt))

/-- The live nodes that two operands name, or the error that one is missing. -/
def nodesOf (parent child : Int32) : StepOn T ν (ν × ν) := do
  let m ← get
  match m.node? parent, m.node? child with
  | some p, some c => return (p, c)
  | _, _ => throw (.noPair (some parent.toInt) (some child.toInt))

/-- The live node at a place of the table, or the error that there is none. -/
def livingAt (place : T ν → Option (SlotId × ν)) : StepOn T ν ν := do
  match place (← get).table with
  | some (_, node) => return node
  | none => throw (.noNode none)

/-- Takes the newest live node as the child of the one below it. Its slot leaves the operand stack
too if it is still on top there. -/
def consume : StepOn T ν (ν × ν) := fun m =>
  match NodeTable.consume? m.table with
  | some (pair, table) =>
    let operands :=
      if m.operands.top? = (NodeTable.newestPair m.table).2.map SlotId.toOperand then
        match Operands.pop m.operands with
        | .ok _ operands => operands
        | .error _ operands => operands
      else m.operands
    .ok pair { m with table, operands }
  | none =>
    let (below, newest) := NodeTable.newestPair m.table
    let index := fun (id : SlotId) => Int.ofNat id.index
    .error (.noPair (below.map index) (newest.map index)) m

/-! ## Instructions -/

/-- What an instruction asks for. -/
def prepare : Instruction String → StepOn T ν (Demand ν)
  | .createElement tag =>
    if Text.isBlank tag then throw (.blankTag tag) else return .create (.element tag)
  | .textNode text => return .create (.text text)
  | .setAttribute key value => do
    let node ← livingAt NodeTable.newest?
    return .edit (.setAttribute node key value)
  | .eventListener event callback => do
    let node ← livingAt NodeTable.below?
    return .edit (.listen node event ⟨(← get).registry, callback⟩)
  | .appendChild => do
    let (parent, child) ← consume
    return .edit (.appendChild parent child)
  | .appendSibling => do
    let (sibling, child) ← consume
    if (← get).defersSiblings then return .defer sibling child
    return .edit (.insertAfter sibling child)
  | .removeChild => do
    let child ← pop
    let parent ← pop
    let (parent, child) ← nodesOf parent child
    return .edit (.removeChild parent child)
  | .replaceChild => do
    let new ← pop
    let old ← pop
    let parent ← pop
    let (_, new) ← nodesOf parent new
    let (parent, old) ← nodesOf parent old
    return .edit (.replaceChild parent old new)
  | .setText => do
    let text ← popText
    let node ← nodeOf (← pop)
    return .edit (.setText node text)
  | .removeAttribute => do
    let key ← popText
    let node ← nodeOf (← pop)
    return .edit (.removeAttribute node key)
  | .style => do
    let name ← popText
    let value ← popText
    let node ← nodeOf (← pop)
    return .edit (.setStyle node name value)

/-- Gives a new node its slot, and offers the slot to the operand stack. Answers the slot if the
stack was full. -/
def adopt (m : Machine ν T) (node : ν) : Option SlotId × Machine ν T :=
  let (slot, table) := NodeTable.insert m.table node
  match Operands.push slot.toOperand m.operands with
  | .ok _ operands => (none, { m with table, operands })
  | .error _ operands => (some slot, { m with table, operands })

end Machine

end TreeCode
