import TreeCode.Proofs.Document.Reachable

/-!
# Documents that grow

`extend` puts new nodes behind those of a document. The nodes that were there stay
(`node_extend_of_lt`), a change to the first of the new ones changes only that one
(`modify_extend_cons`), and making one of them a child of the first changes only these two
(`appendChild_extend`).
-/

namespace TreeCode

def Node.gain (n : Node) (children : List NodeId) (listeners : List (String × Handler)) : Node :=
  { n with children := n.children ++ children, listeners := n.listeners ++ listeners }

theorem Node.gain_gain (n : Node) (children children' : List NodeId)
    (listeners listeners' : List (String × Handler)) :
    (n.gain children listeners).gain children' listeners' =
      n.gain (children ++ children') (listeners ++ listeners') := by
  simp only [gain, List.append_assoc]

@[simp] theorem Node.gain_nil (n : Node) : n.gain [] [] = n := by
  simp only [gain, List.append_nil]

namespace Document

variable {d : Document}

def extend (d : Document) (nodes : List Node) : Document :=
  { d with nodes := d.nodes ++ nodes.toArray }

@[simp] theorem size_extend (d : Document) (nodes : List Node) :
    (d.extend nodes).size = d.size + nodes.length := by
  simp [extend, size]

@[simp] theorem fragment_extend (d : Document) (nodes : List Node) :
    (d.extend nodes).fragment = d.fragment := rfl

@[simp] theorem extend_nil (d : Document) : d.extend [] = d := by
  simp [extend]

@[simp] theorem extend_extend (d : Document) (front back : List Node) :
    (d.extend front).extend back = d.extend (front ++ back) := by
  simp [extend]

theorem ownsFragment_extend (h : d.OwnsFragment) (nodes : List Node) :
    (d.extend nodes).OwnsFragment := by
  intro id hid
  rw [size_extend]
  exact Nat.lt_add_right _ (h id hid)

theorem node_eq (d : Document) (id : NodeId) : d.node id = d.nodes[id]?.getD {} :=
  Array.getD_eq_getD_getElem? ..

theorem node_extend_of_lt {id : NodeId} (h : id < d.size) (nodes : List Node) :
    (d.extend nodes).node id = d.node id := by
  rw [node_eq, node_eq, extend, Array.getElem?_append_left h]

theorem node_extend_add (d : Document) (nodes : List Node) (i : Nat) :
    (d.extend nodes).node (d.size + i) = nodes[i]?.getD {} := by
  rw [node_eq, extend, Array.getElem?_append_right (by simp [size])]
  simp [size]

@[simp] theorem node_extend_cons (d : Document) (n : Node) (nodes : List Node) :
    (d.extend (n :: nodes)).node d.size = n := by
  simpa using node_extend_add d (n :: nodes) 0

theorem modify_extend_cons (d : Document) (n : Node) (nodes : List Node) (f : Node → Node) :
    (d.extend (n :: nodes)).modify d.size f = d.extend (f n :: nodes) := by
  have h : (d.nodes ++ (n :: nodes).toArray).modify d.nodes.size f =
      d.nodes ++ (f n :: nodes).toArray := by
    apply Array.ext_getElem?
    intro i
    rw [Array.getElem?_modify, Array.getElem?_append, Array.getElem?_append]
    by_cases hi : i < d.nodes.size
    · simp [hi, Nat.ne_of_gt hi]
    · by_cases he : d.nodes.size = i
      · subst he
        simp
      · obtain ⟨j, hj⟩ : ∃ j, i - d.nodes.size = j + 1 := ⟨i - d.nodes.size - 1, by omega⟩
        simp [hi, he, hj]
  simp only [modify, extend, size, h]

/-! ## Calls -/

theorem create_eq_extend (d : Document) (request : Creation) :
    Host.create request d = (d.size, d.extend [{ content := contentOf request }]) := by
  change d.create (contentOf request) = _
  rw [create, extend, Array.push_eq_append]

theorem setAttribute_extend (d : Document) (tag : String) (pairs : Pairs) (name value : String) :
    Host.edit (.setAttribute d.size name value) (d.extend [{ content := .element tag pairs [] }]) =
      d.extend [{ content := .element tag (pairs.set name value) [] }] :=
  modify_extend_cons ..

theorem listen_extend (d : Document) (n : Node) (inner : List Node) (event : String)
    (handler : Handler) :
    Host.edit (.listen d.size event handler) (d.extend (n :: inner)) =
      d.extend (n.gain [] [(event, handler)] :: inner) := by
  rw [Node.gain, List.append_nil]
  exact modify_extend_cons ..

theorem detach_extend {nodes : List Node} {child : NodeId} (hd : d.OwnsFragment)
    (hnew : d.size ≤ child) (hp : ((d.extend nodes).node child).parent = none) :
    (d.extend nodes).detach child = d.extend nodes := by
  have hfragment : d.fragment.filter (· ≠ child) = d.fragment := by
    rw [List.filter_eq_self]
    intro id hid
    have hlt : id < child := Nat.lt_of_lt_of_le (hd id hid) hnew
    exact decide_eq_true (Nat.ne_of_lt hlt)
  simp only [detach, hp, fragment_extend, hfragment]
  rfl

theorem appendChild_extend (hd : d.OwnsFragment) (n : Node) (below : List Node) {m : Node}
    (inner : List Node) (hm : m.parent = none) :
    Host.edit (.appendChild d.size (d.extend (n :: below)).size)
        ((d.extend (n :: below)).extend (m :: inner)) =
      d.extend (n.gain [(d.extend (n :: below)).size] [] ::
        (below ++ { m with parent := some d.size } :: inner)) := by
  have hnew : d.size ≤ (d.extend (n :: below)).size := by simp
  have hp : (((d.extend (n :: below)).extend (m :: inner)).node
      (d.extend (n :: below)).size).parent = none := by
    rw [node_extend_cons]
    exact hm
  rw [extend_extend] at hp
  change ((d.extend (n :: below)).extend (m :: inner)).appendChild d.size _ = _
  rw [appendChild, extend_extend, detach_extend hd hnew hp, ← extend_extend, setParent,
    modify_extend_cons, extend_extend, List.cons_append, modifyChildren, modify_extend_cons,
    Node.gain, List.append_nil]

end Document

end TreeCode
