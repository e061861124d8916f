import Mathlib.Tactic.Linarith
import TreeCode.Proofs.Slots
import TreeCode.Slots.Keyed

/-!
# Tables of nodes by their numbers

The two parts of a `KeyedTable` agree after any calls that leave the counter in its range: the table
answers as the stack of numbered nodes that a `SlotTable` is (`KeyedTable.answers_as_stack`).
-/

namespace TreeCode

/-! ## Calls -/

namespace SlotTable

variable {ν : Type}

inductive Call (ν : Type) where
  | insert (node : ν)
  | consume

/-- The table after a call. To consume where it is refused changes nothing. -/
def run (t : SlotTable ν) : Call ν → SlotTable ν
  | .insert node => (t.insert node).2
  | .consume => (t.consume?.map (·.2)).getD t

def after (calls : List (Call ν)) : SlotTable ν := calls.foldl run empty

def Call.node? : Call ν → Option ν
  | insert node => some node
  | consume => none

def inserted (calls : List (Call ν)) : List ν := calls.filterMap Call.node?

end SlotTable

namespace KeyedTable

variable {ν : Type}

/-- The table after a call. -/
def run (t : KeyedTable ν) : SlotTable.Call ν → KeyedTable ν
  | .insert node => (t.insert node).2
  | .consume => (t.consume?.map (·.2)).getD t

def after (calls : List (SlotTable.Call ν)) : KeyedTable ν := calls.foldl run empty

end KeyedTable

/-! ## What the numbers are -/

namespace SlotTable

variable {ν : Type} {t : SlotTable ν} {nodes : List ν} {entry child parent : SlotId × ν}
  {rest : List (SlotId × ν)}

theorem consume?_of_live (h : t.live = child :: parent :: rest) :
    t.consume? = some ((parent.2, child.2), { t with live := parent :: rest }) := by
  rw [consume?, h]

theorem consume?_of_length_lt (h : t.live.length < 2) : t.consume? = none := by
  rcases hlive : t.live with _ | ⟨child, _ | ⟨parent, rest⟩⟩
  · rw [consume?, hlive]
  · rw [consume?, hlive]
  · rw [hlive] at h
    simp only [List.length_cons] at h
    omega

theorem run_consume_of_length_lt (h : t.live.length < 2) : t.run .consume = t := by
  rw [run, consume?_of_length_lt h]
  rfl

/-- To consume takes the newest live node away, or there are not two and nothing changes. -/
theorem run_consume_cases (t : SlotTable ν) :
    (∃ child parent rest, t.live = child :: parent :: rest ∧
      t.run .consume = { t with live := parent :: rest }) ∨
    t.live.length < 2 ∧ t.run .consume = t := by
  rcases hlive : t.live with _ | ⟨child, _ | ⟨parent, rest⟩⟩
  · exact .inr ⟨by simp, run_consume_of_length_lt (by simp [hlive])⟩
  · exact .inr ⟨by simp, run_consume_of_length_lt (by simp [hlive])⟩
  · refine .inl ⟨child, parent, rest, rfl, ?_⟩
    rw [run, consume?_of_live hlive]
    rfl

/-- A table has given numbers to nodes in this order: each live node has the number of its place. -/
structure Numbers (t : SlotTable ν) (nodes : List ν) : Prop where
  ordered : t.Ordered
  created : t.created = nodes.length
  node_of_mem : ∀ entry ∈ t.live, nodes[entry.1.index]? = some entry.2

namespace Numbers

theorem empty : (SlotTable.empty : SlotTable ν).Numbers [] :=
  ⟨ordered_empty, rfl, List.forall_mem_nil _⟩

theorem insert (h : t.Numbers nodes) (node : ν) : (t.insert node).2.Numbers (nodes ++ [node]) where
  ordered := h.ordered.insert node
  created := by
    rw [List.length_append, ← h.created]
    rfl
  node_of_mem := by
    rw [SlotTable.insert, List.forall_mem_cons]
    refine ⟨?_, fun entry hentry => ?_⟩
    · show (nodes ++ [node])[t.created]? = some node
      rw [h.created, List.getElem?_concat_length]
    · have hlt := h.ordered.lt_created entry hentry
      rw [h.created] at hlt
      rw [List.getElem?_append_left hlt]
      exact h.node_of_mem entry hentry

theorem consume (h : t.Numbers nodes) : (t.run .consume).Numbers nodes := by
  rcases run_consume_cases t with ⟨child, parent, rest, hlive, hrun⟩ | ⟨-, hrun⟩
  · rw [hrun]
    refine ⟨h.ordered.tail hlive rfl, h.created, fun entry hentry => ?_⟩
    apply h.node_of_mem
    rw [hlive]
    exact List.mem_cons_of_mem _ hentry
  · rw [hrun]
    exact h

theorem run (h : t.Numbers nodes) (call : Call ν) :
    (t.run call).Numbers (nodes ++ call.node?.toList) := by
  cases call with
  | insert node => exact h.insert node
  | consume =>
    show (t.run .consume).Numbers (nodes ++ [])
    rw [List.append_nil]
    exact h.consume

theorem foldl (h : t.Numbers nodes) (calls : List (Call ν)) :
    (calls.foldl SlotTable.run t).Numbers (nodes ++ inserted calls) := by
  induction calls generalizing t nodes with
  | nil =>
    rw [inserted, List.filterMap_nil, List.append_nil]
    exact h
  | cons call rest ih =>
    have hrest := ih (h.run call)
    rw [List.append_assoc] at hrest
    cases call <;> exact hrest

/-- Under a live number the node is found that got it, and under another none. -/
theorem get?_eq_some_iff (h : t.Numbers nodes) {id : SlotId} {node : ν} :
    t.get? id = some node ↔ id ∈ t.live.map (·.1) ∧ nodes[id.index]? = some node := by
  constructor
  · intro hget
    obtain ⟨front, back, hlive, -⟩ := List.lookup_eq_some_iff.mp hget
    have hmem : (id, node) ∈ t.live := by
      rw [hlive]
      exact List.mem_append_right _ List.mem_cons_self
    exact ⟨List.mem_map_of_mem hmem, h.node_of_mem _ hmem⟩
  · rintro ⟨hid, hnode⟩
    obtain ⟨entry, hentry, rfl⟩ := List.mem_map.mp hid
    rw [h.ordered.get?_of_mem hentry, ← hnode, h.node_of_mem entry hentry]

end Numbers

end SlotTable

/-! ## The two parts agree -/

namespace KeyedTable

variable {ν : Type} {t : KeyedTable ν} {s : SlotTable ν}

/-- A table in two parts holds what a stack of numbered nodes does. -/
structure Agrees (t : KeyedTable ν) (s : SlotTable ν) : Prop where
  live : t.live.map slot = s.live.map (·.1)
  nodes : ∀ id, t.nodes[id]? = s.get? (slot id)
  next : t.next.toNat = s.created

theorem slot_inj {id other : UInt32} (h : slot id = slot other) : id = other :=
  UInt32.toNat_inj.mp (congrArg SlotId.index h)

theorem agrees_empty : (empty : KeyedTable ν).Agrees SlotTable.empty :=
  ⟨rfl, fun _ => Std.HashMap.getElem?_empty, rfl⟩

namespace Agrees

theorem slot_next (h : t.Agrees s) : slot t.next = ⟨s.created⟩ := congrArg SlotId.mk h.next

/-- The counter does not run over as long as the numbers are of 32 bits. -/
theorem insert (h : t.Agrees s) (hcount : s.created + 1 < 2 ^ 32) (node : ν) :
    (t.insert node).2.Agrees (s.insert node).2 where
  live := by
    show slot t.next :: t.live.map slot = ⟨s.created⟩ :: s.live.map (·.1)
    rw [h.live, h.slot_next]
  nodes id := by
    show (t.nodes.insert t.next node)[id]? = List.lookup (slot id) ((⟨s.created⟩, node) :: s.live)
    rw [Std.HashMap.getElem?_insert, List.lookup_cons, ← h.slot_next]
    by_cases hid : id = t.next
    · simp [hid]
    · have hslot : slot id ≠ slot t.next := fun heq => hid (slot_inj heq)
      rw [if_neg (by simpa using Ne.symm hid), beq_eq_false_iff_ne.mpr hslot]
      exact h.nodes id
  next := by
    show (t.next + 1).toNat = s.created + 1
    have hone : (1 : UInt32).toNat = 1 := rfl
    rw [UInt32.toNat_add, h.next, hone]
    omega

theorem entry (h : t.Agrees s) (hs : s.Ordered) (i : Nat) :
    t.live[i]?.bind t.lookup? = s.live[i]? := by
  have hlive : (t.live.map slot)[i]? = (s.live.map (·.1))[i]? := by rw [h.live]
  rw [List.getElem?_map, List.getElem?_map] at hlive
  cases hentry : s.live[i]? with
  | none =>
    rw [hentry] at hlive
    rw [Option.map_eq_none_iff.mp hlive]
    rfl
  | some entry =>
    rw [hentry] at hlive
    obtain ⟨id, hid, hslot⟩ := Option.map_eq_some_iff.mp hlive
    have hnode : t.nodes[id]? = some entry.2 := by
      rw [h.nodes, hslot]
      exact hs.get?_of_mem (List.mem_of_getElem? hentry)
    rw [hid]
    show t.lookup? id = some entry
    rw [lookup?, hnode, hslot]
    rfl

/-- Where the stack of numbered nodes holds two, so do both parts, and to consume takes the newest
from both. -/
theorem consume (h : t.Agrees s) (hs : s.Ordered) {child parent : SlotId × ν}
    {rest : List (SlotId × ν)} (hlive : s.live = child :: parent :: rest) :
    ∃ t', t.consume? = some ((parent.2, child.2), t') ∧
      t'.Agrees { s with live := parent :: rest } := by
  have hslots := h.live
  rw [hlive, List.map_cons, List.map_cons] at hslots
  obtain ⟨childId, ids, hids, hchild, htail⟩ := List.map_eq_cons_iff.mp hslots
  obtain ⟨parentId, restIds, rfl, hparent, hrest⟩ := List.map_eq_cons_iff.mp htail
  have hnode {id : UInt32} {entry : SlotId × ν} (hid : slot id = entry.1) (hentry : entry ∈ s.live) :
      t.nodes[id]? = some entry.2 := by
    rw [h.nodes, hid]
    exact hs.get?_of_mem hentry
  refine ⟨{ t with nodes := t.nodes.erase childId, live := parentId :: restIds }, ?_, ?_, ?_, h.next⟩
  · rw [consume?, hids]
    simp only
    rw [hnode hparent (by simp [hlive]), hnode hchild (by simp [hlive])]
    rfl
  · exact htail
  · intro id
    show (t.nodes.erase childId)[id]? = (parent :: rest).lookup (slot id)
    rw [Std.HashMap.getElem?_erase]
    by_cases hid : childId = id
    · subst hid
      rw [if_pos (beq_self_eq_true childId), eq_comm, List.lookup_eq_none_iff]
      intro older holder
      -- The number that was taken is greater than those that stay.
      have hlt : older.1.index < child.1.index := by
        have hpairwise := hs.pairwise
        rw [hlive] at hpairwise
        exact List.rel_of_pairwise_cons hpairwise holder
      rw [hchild, bne_iff_ne]
      rintro heq
      rw [heq] at hlt
      omega
    · have hother : slot id ≠ child.1 := fun heq => hid (slot_inj (hchild.trans heq.symm))
      rw [if_neg (by simpa using hid), h.nodes, SlotTable.get?, hlive, List.lookup_cons,
        beq_eq_false_iff_ne.mpr hother]

theorem consume?_of_length_lt (h : t.Agrees s) (hlength : s.live.length < 2) :
    t.consume? = none := by
  have hlengths := congrArg List.length h.live
  rw [List.length_map, List.length_map] at hlengths
  rcases hlive : t.live with _ | ⟨childId, _ | ⟨parentId, rest⟩⟩
  · rw [consume?, hlive]
  · rw [consume?, hlive]
  · rw [hlive] at hlengths
    simp only [List.length_cons] at hlengths
    omega

theorem run (h : t.Agrees s) (hs : s.Ordered) (call : SlotTable.Call ν)
    (hcount : s.created + call.node?.toList.length < 2 ^ 32) : (t.run call).Agrees (s.run call) := by
  cases call with
  | insert node => exact h.insert hcount node
  | consume =>
    rcases s.run_consume_cases with ⟨child, parent, rest, hlive, hrun⟩ | ⟨hlength, hrun⟩
    · obtain ⟨t', hconsume, ht'⟩ := h.consume hs hlive
      rw [hrun, KeyedTable.run, hconsume]
      exact ht'
    · rw [hrun, KeyedTable.run, h.consume?_of_length_lt hlength]
      exact h

theorem foldl {nodes : List ν} (h : t.Agrees s) (hs : s.Numbers nodes)
    (calls : List (SlotTable.Call ν))
    (hcount : (nodes ++ SlotTable.inserted calls).length < 2 ^ 32) :
    (calls.foldl KeyedTable.run t).Agrees (calls.foldl SlotTable.run s) := by
  induction calls generalizing t s nodes with
  | nil => exact h
  | cons call rest ih =>
    have hsplit : SlotTable.inserted (call :: rest) =
        call.node?.toList ++ SlotTable.inserted rest := by
      cases call <;> rfl
    rw [hsplit, ← List.append_assoc] at hcount
    refine ih (h.run hs.ordered call ?_) (hs.run call) hcount
    rw [hs.created]
    simp only [List.length_append] at hcount
    omega

end Agrees

/-- The table gives the answers that the stack of numbered nodes gives. -/
structure AnswersAs (t : KeyedTable ν) (s : SlotTable ν) : Prop where
  insert : ∀ node, (t.insert node).1 = (s.insert node).1
  get? : ∀ id, t.get? id = s.get? (slot id)
  newest? : t.newest? = s.newest?
  below? : t.below? = s.below?
  newestPair : t.newestPair = (s.below?.map (·.1), s.newest?.map (·.1))
  consume? : t.consume?.map (·.1) = s.consume?.map (·.1)
  live : t.live.map slot = s.live.map (·.1)
  created : t.next.toNat = s.created

theorem Agrees.answersAs (h : t.Agrees s) (hs : s.Ordered) : t.AnswersAs s where
  insert _ := h.slot_next
  get? id := h.nodes id
  newest? := h.entry hs 0
  below? := h.entry hs 1
  newestPair := by
    rw [newestPair, ← List.getElem?_map, ← List.getElem?_map, h.live, List.getElem?_map,
      List.getElem?_map]
    rfl
  consume? := by
    rcases hlive : s.live with _ | ⟨child, _ | ⟨parent, rest⟩⟩
    · have hnone : s.consume? = none := SlotTable.consume?_of_length_lt (by simp [hlive])
      rw [hnone, h.consume?_of_length_lt (by simp [hlive])]
      rfl
    · have hnone : s.consume? = none := SlotTable.consume?_of_length_lt (by simp [hlive])
      rw [hnone, h.consume?_of_length_lt (by simp [hlive])]
      rfl
    · obtain ⟨t', hconsume, -⟩ := h.consume hs hlive
      rw [hconsume, SlotTable.consume?_of_live hlive]
      rfl
  live := h.live
  created := h.next

/-- **A table in two parts is a stack of numbered nodes.** A new table has got fewer than `2 ^ 32`
nodes, in any calls. Then it answers everything as the stack of numbered nodes does after the same
calls. The numbers of that stack rise from its bottom to its top and are all below the number of the
next node, which counts the nodes put in, so no number is given twice. A node is found just under a
live number, and it is the one that was put in under it. With two live nodes to consume answers the
second and the newest and takes the newest away; with fewer it is refused. -/
theorem answers_as_stack (calls : List (SlotTable.Call ν))
    (hcount : (SlotTable.inserted calls).length < 2 ^ 32) :
    let stack := SlotTable.after calls
    let nodes := SlotTable.inserted calls
    (after calls).AnswersAs stack ∧
      (stack.live.reverse.map (·.1.index)).Pairwise (· < ·) ∧
      (∀ entry ∈ stack.live, entry.1.index < stack.created) ∧
      stack.created = nodes.length ∧
      (∀ node, (stack.insert node).1 = ⟨nodes.length⟩) ∧
      (∀ id node, stack.get? id = some node ↔
        id ∈ stack.live.map (·.1) ∧ nodes[id.index]? = some node) ∧
      stack.newest? = stack.live[0]? ∧ stack.below? = stack.live[1]? ∧
      (∀ child parent rest, stack.live = child :: parent :: rest →
        stack.consume? = some ((parent.2, child.2), { stack with live := parent :: rest })) ∧
      (stack.live.length < 2 → stack.consume? = none ∧ stack.run .consume = stack) := by
  intro stack nodes
  have hnumbers : stack.Numbers nodes := SlotTable.Numbers.empty.foldl calls
  have hagrees : (after calls).Agrees stack :=
    agrees_empty.foldl SlotTable.Numbers.empty calls hcount
  refine ⟨hagrees.answersAs hnumbers.ordered, ?_, hnumbers.ordered.lt_created, hnumbers.created,
    fun node => ?_, fun id node => hnumbers.get?_eq_some_iff, rfl, rfl,
    fun child parent rest => SlotTable.consume?_of_live, fun hlength => ?_⟩
  · rw [List.map_reverse, List.pairwise_reverse, List.pairwise_map]
    exact hnumbers.ordered.pairwise
  · show SlotId.mk stack.created = ⟨nodes.length⟩
    rw [hnumbers.created]
  · exact ⟨SlotTable.consume?_of_length_lt hlength, SlotTable.run_consume_of_length_lt hlength⟩

/-- A number that was consumed is not given again, and nothing is found under it. -/
theorem answers_as_stack_no_reuse :
    let calls : List (SlotTable.Call String) :=
      [.insert "div", .insert "text", .consume, .insert "text2"]
    (SlotTable.inserted calls).length < 2 ^ 32 ∧
      (after calls).newest? = some (⟨2⟩, "text2") ∧ (after calls).get? 1 = none ∧
      (after calls).consume?.map (·.1) = some ("div", "text2") := by
  intro calls
  have hcount : (SlotTable.inserted calls).length < 2 ^ 32 := by decide
  have hanswers := (answers_as_stack calls hcount).1
  refine ⟨hcount, ?_, ?_, ?_⟩
  · rw [hanswers.newest?]
    rfl
  · rw [hanswers.get?]
    rfl
  · rw [hanswers.consume?]
    rfl

end KeyedTable

end TreeCode
