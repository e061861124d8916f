import Std.Data.HashMap
import TreeCode.Slots

/-!
# Tables of nodes by their numbers

A `KeyedTable` is kept in two parts, a map from numbers to nodes and a stack of the numbers that are
live, and it counts in 32 bits. Every answer looks a number of the stack up in the map, so it is
missing where the two disagree.
-/

namespace TreeCode

/-- The nodes of a table by their numbers, the numbers of the live ones, the newest first, and the
number of the next. -/
structure KeyedTable (ν : Type) where
  nodes : Std.HashMap UInt32 ν := ∅
  live : List UInt32 := []
  next : UInt32 := 0

namespace KeyedTable

variable {ν : Type}

def empty : KeyedTable ν := {}

def slot (id : UInt32) : SlotId := ⟨id.toNat⟩

def insert (t : KeyedTable ν) (node : ν) : SlotId × KeyedTable ν :=
  (slot t.next, ⟨t.nodes.insert t.next node, t.next :: t.live, t.next + 1⟩)

def get? (t : KeyedTable ν) (id : UInt32) : Option ν := t.nodes[id]?

/-- The node of a slot. A slot whose number has more than 32 bits has none. -/
def find? (t : KeyedTable ν) (id : SlotId) : Option ν :=
  if id.index < UInt32.size then t.get? (UInt32.ofNat id.index) else none

/-- A number of the stack with its node, if the map has one. -/
def lookup? (t : KeyedTable ν) (id : UInt32) : Option (SlotId × ν) := do
  let node ← t.nodes[id]?
  return (slot id, node)

def newest? (t : KeyedTable ν) : Option (SlotId × ν) := t.live[0]?.bind t.lookup?

def below? (t : KeyedTable ν) : Option (SlotId × ν) := t.live[1]?.bind t.lookup?

def newestPair (t : KeyedTable ν) : Option SlotId × Option SlotId :=
  (t.live[1]?.map slot, t.live[0]?.map slot)

/-- The newest live node and the one below it: the parent stays, the child goes from both parts. -/
def consume? (t : KeyedTable ν) : Option ((ν × ν) × KeyedTable ν) :=
  match t.live with
  | childId :: parentId :: rest => do
    let parent ← t.nodes[parentId]?
    let child ← t.nodes[childId]?
    return ((parent, child), { t with nodes := t.nodes.erase childId, live := parentId :: rest })
  | _ => none

end KeyedTable

instance : NodeTable KeyedTable where
  empty := KeyedTable.empty
  insert := KeyedTable.insert
  get? := KeyedTable.find?
  newest? := KeyedTable.newest?
  below? := KeyedTable.below?
  newestPair := KeyedTable.newestPair
  consume? := KeyedTable.consume?

end TreeCode
