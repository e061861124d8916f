/-!
# Slots

A machine numbers the nodes it creates from zero and keeps the live ones in a table. The newest node
can be taken as the child of the one below it, which then ends its life in the table. `NodeTable` is
what a machine needs of its table. In a `SlotTable` no number is ever used again: it is the stack of
the live nodes, the newest on top, and counts without end. A `KeyedTable` counts in 32 bits, and a
machine does the same on either until it has created `2 ^ 32` nodes (`Later.exists_retable`).
-/

namespace TreeCode

structure SlotId where
  index : Nat
  deriving DecidableEq, Repr

namespace SlotId

/-- The integer that stands for a slot on the operand stack; the largest stands for all that have
no integer of their own. -/
def toOperand (id : SlotId) : Int32 := Int32.ofNat (min id.index 0x7fffffff)

/-- The slot that an operand stands for; a negative one stands for none. -/
def ofOperand? (value : Int32) : Option SlotId :=
  if value < 0 then none else some ⟨value.toNatClampNeg⟩

def text (id : SlotId) : String := "#" ++ Nat.repr id.index

end SlotId

/-- Tables of live nodes. -/
class NodeTable (T : Type → Type) where
  empty {ν : Type} : T ν
  /-- Gives a node the next slot. -/
  insert {ν : Type} : T ν → ν → SlotId × T ν
  get? {ν : Type} : T ν → SlotId → Option ν
  newest? {ν : Type} : T ν → Option (SlotId × ν)
  /-- The live node below the newest. -/
  below? {ν : Type} : T ν → Option (SlotId × ν)
  /-- The slots of the two newest live nodes, the newest last. -/
  newestPair {ν : Type} : T ν → Option SlotId × Option SlotId
  /-- The newest live node and the one below it, taken apart from the rest: the parent stays, the
  child goes. -/
  consume? {ν : Type} : T ν → Option ((ν × ν) × T ν)

/-- The live nodes with their slots, the newest first, and the number of slots handed out. -/
structure SlotTable (ν : Type) where
  live : List (SlotId × ν) := []
  created : Nat := 0

namespace SlotTable

variable {ν : Type}

def empty : SlotTable ν := {}

def insert (t : SlotTable ν) (node : ν) : SlotId × SlotTable ν :=
  (⟨t.created⟩, ⟨(⟨t.created⟩, node) :: t.live, t.created + 1⟩)

def get? (t : SlotTable ν) (id : SlotId) : Option ν := t.live.lookup id

def newest? (t : SlotTable ν) : Option (SlotId × ν) := t.live[0]?

def below? (t : SlotTable ν) : Option (SlotId × ν) := t.live[1]?

def newestPair (t : SlotTable ν) : Option SlotId × Option SlotId :=
  (t.below?.map (·.1), t.newest?.map (·.1))

def consume? (t : SlotTable ν) : Option ((ν × ν) × SlotTable ν) :=
  match t.live with
  | (_, child) :: (id, parent) :: rest =>
    some ((parent, child), { t with live := (id, parent) :: rest })
  | _ => none

end SlotTable

instance : NodeTable SlotTable where
  empty := SlotTable.empty
  insert := SlotTable.insert
  get? := SlotTable.get?
  newest? := SlotTable.newest?
  below? := SlotTable.below?
  newestPair := SlotTable.newestPair
  consume? := SlotTable.consume?

namespace SlotTable

variable {ν : Type} (t : SlotTable ν)

@[simp] theorem nodeTable_empty : (NodeTable.empty : SlotTable ν) = empty := rfl

@[simp] theorem nodeTable_insert (node : ν) : NodeTable.insert t node = t.insert node := rfl

@[simp] theorem nodeTable_get? (id : SlotId) : NodeTable.get? t id = t.get? id := rfl

@[simp] theorem nodeTable_newest? : NodeTable.newest? t = t.newest? := rfl

@[simp] theorem nodeTable_below? : NodeTable.below? t = t.below? := rfl

@[simp] theorem nodeTable_newestPair : NodeTable.newestPair t = t.newestPair := rfl

@[simp] theorem nodeTable_consume? : NodeTable.consume? t = t.consume? := rfl

end SlotTable

end TreeCode
