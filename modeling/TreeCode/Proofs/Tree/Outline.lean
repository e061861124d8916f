import TreeCode.Instruction
import TreeCode.Proofs.Document.Growth
import TreeCode.Text.Blank

/-!
# Outlines

An `Outline` is an element or a text with all that is inside it. `Outline.program` builds it, and
`Outline.nodes` are the nodes it comes to, the element before its children and each child with all
that is inside it before the next; their listeners refer to the registry of the machine that builds
them. `Document.Gains` says that a document has these nodes and is otherwise as it was.
-/

namespace TreeCode

def Pairs.setAll (pairs : Pairs) (calls : List (String × String)) : Pairs :=
  calls.foldl (fun pairs (name, value) => pairs.set name value) pairs

/-- An element or a text with all that is inside it. -/
inductive Outline where
  | text (content : String)
  /-- An element whose attributes are set in this order. A listener is an event and the number of a
  callback. -/
  | element (tag : String) (attributes : List (String × String))
      (listeners : List (String × UInt8)) (children : List Outline)

namespace Outline

/-! ## Nodes -/

mutual

def count : Outline → Nat
  | text _ => 1
  | element _ _ _ children => countAll children + 1

def countAll : List Outline → Nat
  | [] => 0
  | o :: rest => o.count + countAll rest

end

/-- The numbers of the first nodes of some outlines whose nodes are numbered from `id` on. -/
def idsFrom (id : NodeId) : List Outline → List NodeId
  | [] => []
  | o :: rest => id :: idsFrom (id + o.count) rest

def handlers (registry : RegistryId) (listeners : List (String × UInt8)) :
    List (String × Handler) :=
  listeners.map fun (event, index) => (event, ⟨registry, index⟩)

variable (registry : RegistryId)

@[simp] theorem handlers_nil : handlers registry [] = [] := rfl

mutual

/-- The nodes of an outline, numbered from `id` on. -/
def nodes (parent : Option NodeId) (id : NodeId) : Outline → List Node
  | text content => [{ content := .text content, parent }]
  | element tag attributes listeners children =>
    { content := .element tag (Pairs.setAll [] attributes) [], parent,
      children := idsFrom (id + 1) children, listeners := handlers registry listeners } ::
      nodesAll (some id) (id + 1) children

def nodesAll (parent : Option NodeId) (id : NodeId) : List Outline → List Node
  | [] => []
  | o :: rest => nodes parent id o ++ nodesAll parent (id + o.count) rest

end

mutual

@[simp] theorem length_nodes (parent : Option NodeId) (id : NodeId) :
    (o : Outline) → (o.nodes registry parent id).length = o.count
  | text _ => rfl
  | element _ _ _ children => by
    rw [nodes, count, List.length_cons, length_nodesAll _ _ children]

@[simp] theorem length_nodesAll (parent : Option NodeId) (id : NodeId) :
    (os : List Outline) → (nodesAll registry parent id os).length = countAll os
  | [] => rfl
  | o :: rest => by
    rw [nodesAll, countAll, List.length_append, length_nodes _ _ o, length_nodesAll _ _ rest]

end

/-- Only the first node of an outline knows the parent. -/
theorem exists_nodes_eq (o : Outline) (id : NodeId) :
    ∃ (first : Node) (inner : List Node),
      ∀ parent, o.nodes registry parent id = { first with parent } :: inner := by
  cases o with
  | text content => exact ⟨{ content := .text content }, [], fun _ => rfl⟩
  | element tag attributes listeners children =>
    let first : Node :=
      { content := .element tag (Pairs.setAll [] attributes) [],
        children := idsFrom (id + 1) children, listeners := handlers registry listeners }
    exact ⟨first, _, fun _ => rfl⟩

@[simp] theorem length_idsFrom (id : NodeId) (os : List Outline) :
    (idsFrom id os).length = os.length := by
  induction os generalizing id with
  | nil => rfl
  | cons o rest ih => rw [idsFrom, List.length_cons, List.length_cons, ih]

/-! ## Programs -/

def listening (listeners : List (String × UInt8)) : List (Instruction String) :=
  listeners.map fun (event, index) => .eventListener event index

def setting (attributes : List (String × String)) : List (Instruction String) :=
  attributes.map fun (key, value) => .setAttribute key value

mutual

def program : Outline → List (Instruction String)
  | text content => [.textNode content]
  | element tag attributes listeners children =>
    .createElement tag :: (setting attributes ++ filling listeners children)

/-- The instructions that build children inside the newest node. Its listeners are attached while
the first child is the newest. -/
def filling (listeners : List (String × UInt8)) : List Outline → List (Instruction String)
  | [] => []
  | o :: rest => o.program ++ (listening listeners ++ .appendChild :: filling [] rest)

end

/-- The instructions that build some outlines one after the other. -/
def programAll (os : List Outline) : List (Instruction String) := os.flatMap program

/-- Without listeners, each child is built and appended. -/
theorem filling_nil (os : List Outline) :
    filling [] os = os.flatMap fun o => o.program ++ [.appendChild] := by
  induction os with
  | nil => rfl
  | cons o rest ih =>
    rw [filling, ih, List.flatMap_cons, List.append_assoc]
    rfl

/-- An instruction takes no operands and puts no node beside another. -/
def Inward (i : Instruction String) : Prop := i.opcode.usesOperands = false ∧ i ≠ .appendSibling

mutual

theorem inward_program : (o : Outline) → ∀ i ∈ o.program, Inward i
  | text content => by
    rw [program, List.forall_mem_singleton]
    exact ⟨rfl, nofun⟩
  | element tag attributes listeners children => by
    rw [program, List.forall_mem_cons, List.forall_mem_append, setting, List.forall_mem_map]
    exact ⟨⟨rfl, nofun⟩, fun _ _ => ⟨rfl, nofun⟩,
      inward_filling listeners children⟩

theorem inward_filling (listeners : List (String × UInt8)) :
    (os : List Outline) → ∀ i ∈ filling listeners os, Inward i
  | [] => List.forall_mem_nil _
  | o :: rest => by
    rw [filling, List.forall_mem_append, List.forall_mem_append, List.forall_mem_cons, listening,
      List.forall_mem_map]
    exact ⟨inward_program o, fun _ _ => ⟨rfl, nofun⟩,
      ⟨rfl, nofun⟩, inward_filling [] rest⟩

end

theorem inward_programAll (os : List Outline) : ∀ i ∈ programAll os, Inward i := by
  intro i hi
  obtain ⟨o, -, hi⟩ := List.mem_flatMap.mp hi
  exact inward_program o i hi

mutual

/-- The tags are not blank, and an element without children has no listeners. -/
def Buildable : Outline → Prop
  | text _ => True
  | element tag _ listeners children =>
    Text.isBlank tag = false ∧ (children = [] → listeners = []) ∧ BuildableAll children

def BuildableAll : List Outline → Prop
  | [] => True
  | o :: rest => o.Buildable ∧ BuildableAll rest

end

end Outline

/-! ## Documents -/

namespace Document

open Outline (idsFrom countAll nodesAll)

variable (registry : RegistryId)

mutual

/-- An outline stands in a document, its nodes numbered from `id` on and its listeners referring to a
registry. -/
def Stands (d : Document) (parent : Option NodeId) (id : NodeId) : Outline → Prop
  | .text content => d.node id = { content := .text content, parent }
  | .element tag attributes listeners children =>
    d.node id =
      { content := .element tag (Pairs.setAll [] attributes) [], parent,
        children := idsFrom (id + 1) children,
        listeners := Outline.handlers registry listeners } ∧
      StandAll d (some id) (id + 1) children

/-- Some outlines stand in a document, each behind the one before it. -/
def StandAll (d : Document) (parent : Option NodeId) (id : NodeId) : List Outline → Prop
  | [] => True
  | o :: rest => Stands d parent id o ∧ StandAll d parent (id + o.count) rest

end

/-- The nodes of a document from `id` on. -/
def Holds (d : Document) (id : NodeId) : List Node → Prop
  | [] => True
  | n :: rest => d.node id = n ∧ d.Holds (id + 1) rest

/-- A document gains outlines: they stand behind the nodes that were there, nothing else comes with
them, and what was there stays as it was. -/
structure Gains (before after : Document) (outlines : List Outline) : Prop where
  stand : after.StandAll registry none before.size outlines
  size : after.size = before.size + countAll outlines
  kept : ∀ id < before.size, after.node id = before.node id
  fragment : after.fragment = before.fragment
  defersSiblings : after.defersSiblings = before.defersSiblings

variable {d : Document} {id : NodeId}

theorem holds_append {front back : List Node} (h : d.Holds id (front ++ back)) :
    d.Holds id front ∧ d.Holds (id + front.length) back := by
  induction front generalizing id with
  | nil => exact ⟨trivial, h⟩
  | cons n rest ih =>
    obtain ⟨hrest, hback⟩ := ih h.2
    refine ⟨⟨h.1, hrest⟩, ?_⟩
    rwa [List.length_cons, Nat.add_comm rest.length, ← Nat.add_assoc]

theorem holds_extend (d : Document) (nodes : List Node) : (d.extend nodes).Holds d.size nodes := by
  induction nodes generalizing d with
  | nil => trivial
  | cons n rest ih =>
    refine ⟨node_extend_cons d n rest, ?_⟩
    have h := ih (d.extend [n])
    rwa [extend_extend, size_extend] at h

mutual

theorem stands_of_holds (parent : Option NodeId) (id : NodeId) :
    (o : Outline) → d.Holds id (o.nodes registry parent id) → d.Stands registry parent id o
  | .text _, h => h.1
  | .element _ _ _ children, h =>
    ⟨h.1, standAll_of_holds (some id) (id + 1) children h.2⟩

theorem standAll_of_holds (parent : Option NodeId) (id : NodeId) :
    (os : List Outline) → d.Holds id (nodesAll registry parent id os) →
      d.StandAll registry parent id os
  | [], _ => trivial
  | o :: rest, h => by
    rw [nodesAll] at h
    obtain ⟨hfirst, hrest⟩ := holds_append h
    rw [Outline.length_nodes] at hrest
    exact ⟨stands_of_holds parent id o hfirst, standAll_of_holds parent _ rest hrest⟩

end

theorem gains_extend (d : Document) (os : List Outline) :
    d.Gains registry (d.extend (nodesAll registry none d.size os)) os where
  stand := standAll_of_holds registry none d.size os (holds_extend d _)
  size := by rw [size_extend, Outline.length_nodesAll]
  kept _ h := node_extend_of_lt h _
  fragment := rfl
  defersSiblings := rfl

end Document

end TreeCode
