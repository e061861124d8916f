import TreeCode.Proofs.Machine.Plain
import TreeCode.Proofs.Tree.Outline

/-!
# Running the program of a tree

On the plain machine the program of an outline puts its nodes behind those of the document, and its
first node on top of the live ones (`executeAll_program`). While the inside of an element is built,
the element is the newest live node between two children, and the one below the newest while a child
waits to be appended, so listeners and children find it at every depth. What lies below it and what
follows in the program do not matter. The listeners refer to the registry of the plain machine.
-/

namespace TreeCode.Plain

open Document (create_eq_extend extend_extend size_extend ownsFragment_extend)
open Outline (handlers listening setting filling programAll idsFrom countAll nodesAll BuildableAll)

variable (registry : RegistryId) {d : Document} {number k : Nat} {live : Handles NodeId}

/-! ## The parts of an element -/

theorem executeAll_setting (tag : String) (pairs : Pairs) (attributes : List (String × String))
    (rest : List (Instruction String)) :
    executeAll registry number (setting attributes ++ rest)
        ((k, d.size) :: live, d.extend [{ content := .element tag pairs [] }]) =
      executeAll registry number rest ((k, d.size) :: live,
        d.extend [{ content := .element tag (pairs.setAll attributes) [] }]) := by
  induction attributes generalizing pairs with
  | nil => rfl
  | cons entry others ih =>
    obtain ⟨name, value⟩ := entry
    rw [Pairs.setAll, List.foldl_cons, ← Pairs.setAll, ← ih]
    refine executeAll_cons_of_ok ?_ _
    change execute registry number (.setAttribute name value) _ = _
    rw [execute_setAttribute, Document.setAttribute_extend]

theorem executeAll_listening (listeners : List (String × UInt8)) (child : Nat × NodeId)
    (n : Node) (inner : List Node) (rest : List (Instruction String)) :
    executeAll registry number (listening listeners ++ rest)
        (child :: (k, d.size) :: live, d.extend (n :: inner)) =
      executeAll registry number rest (child :: (k, d.size) :: live,
        d.extend (n.gain [] (handlers registry listeners) :: inner)) := by
  induction listeners generalizing n with
  | nil =>
    rw [Outline.handlers_nil, Node.gain_nil]
    rfl
  | cons entry others ih =>
    obtain ⟨event, index⟩ := entry
    have hgain : n.gain [] (handlers registry ((event, index) :: others)) =
        (n.gain [] [(event, ⟨registry, index⟩)]).gain [] (handlers registry others) :=
      (Node.gain_gain n [] [] [(event, ⟨registry, index⟩)] (handlers registry others)).symm
    rw [hgain, ← ih]
    refine executeAll_cons_of_ok ?_ _
    change execute registry number (.eventListener event index) _ = _
    rw [execute_eventListener, Document.listen_extend]

/-- A child that has been built behind what is inside an element is appended to the element. -/
theorem execute_appendChild_nodes (hd : d.OwnsFragment) (number child k : Nat)
    (live : Handles NodeId) (n : Node) (below : List Node) (o : Outline) {id : NodeId}
    (hid : (d.extend (n :: below)).size = id) :
    execute registry number .appendChild ((child, id) :: (k, d.size) :: live,
        d.extend (n :: (below ++ o.nodes registry none id))) =
      .ok () ((k, d.size) :: live,
        d.extend (n.gain [id] [] :: (below ++ o.nodes registry (some d.size) id))) := by
  obtain ⟨first, inner, hnodes⟩ := o.exists_nodes_eq registry id
  have ha := Document.appendChild_extend hd n below (m := { first with parent := none }) inner rfl
  rw [hid, extend_extend, List.cons_append] at ha
  rw [hnodes, hnodes, execute_appendChild, ha]

/-! ## Outlines -/

mutual

/-- **The program of an outline builds it**: its nodes come behind those of the document, and its
first node is the newest live one. -/
theorem executeAll_program (d : Document) (hd : d.OwnsFragment) (number : Nat)
    (live : Handles NodeId) (rest : List (Instruction String)) :
    (o : Outline) → o.Buildable →
      executeAll registry number (o.program ++ rest) (live, d) =
        executeAll registry (number + o.count) rest
          ((number, d.size) :: live, d.extend (o.nodes registry none d.size))
  | .text content, _ => by
    refine executeAll_cons_of_ok ?_ rest
    change create number (.text content) (live, d) = _
    rw [create, create_eq_extend]
    rfl
  | .element tag attributes listeners children, ⟨htag, hlisteners, hchildren⟩ => by
    have hcreate : execute registry number (.createElement tag) (live, d) =
        .ok () ((number, d.size) :: live, d.extend [{ content := .element tag [] [] }]) := by
      rw [execute_createElement htag, create, create_eq_extend]
      rfl
    have hfilling := executeAll_filling d hd (number + 1) number live
      { content := .element tag (Pairs.setAll [] attributes) [] } [] rest children listeners
      hchildren hlisteners
    rw [size_extend] at hfilling
    rw [Outline.program, List.cons_append, List.append_assoc, executeAll_cons_of_ok hcreate,
      executeAll_setting registry]
    refine hfilling.trans ?_
    rw [Outline.count, Outline.nodes, Nat.add_assoc, Nat.add_comm 1]
    rfl

/-- The children of an element are built behind what it has inside and appended to it, and its
listeners are attached. -/
theorem executeAll_filling (d : Document) (hd : d.OwnsFragment) (number k : Nat)
    (live : Handles NodeId) (n : Node) (below : List Node) (rest : List (Instruction String)) :
    (os : List Outline) → (listeners : List (String × UInt8)) → BuildableAll os →
      (os = [] → listeners = []) →
      executeAll registry number (filling listeners os ++ rest)
          ((k, d.size) :: live, d.extend (n :: below)) =
        executeAll registry (number + countAll os) rest ((k, d.size) :: live, d.extend
          (n.gain (idsFrom (d.extend (n :: below)).size os) (handlers registry listeners) ::
            (below ++ nodesAll registry (some d.size) (d.extend (n :: below)).size os)))
  | [], listeners, _, hlisteners => by
    obtain rfl := hlisteners rfl
    rw [idsFrom, nodesAll, Outline.handlers_nil, Node.gain_nil,
      List.append_nil]
    rfl
  | o :: os, listeners, ⟨ho, hos⟩, _ => by
    generalize hid : (d.extend (n :: below)).size = id
    have hchild := executeAll_program (d.extend (n :: below)) (ownsFragment_extend hd _) number
      ((k, d.size) :: live) (listening listeners ++ .appendChild :: (filling [] os ++ rest)) o ho
    rw [hid, extend_extend, List.cons_append] at hchild
    -- The listeners do not move the place at which the child stands.
    have hsize : (d.extend (n.gain [] (handlers registry listeners) :: below)).size = id := by
      rw [← hid, size_extend, size_extend]
      rfl
    have happend := execute_appendChild_nodes registry hd (number + o.count) number k live
      (n.gain [] (handlers registry listeners)) below o hsize
    rw [Node.gain_gain, List.append_nil] at happend
    have hrest := executeAll_filling d hd (number + o.count) k live
      (n.gain [id] (handlers registry listeners)) (below ++ o.nodes registry (some d.size) id)
      rest os [] hos fun _ => rfl
    have hnext : (d.extend (n.gain [id] (handlers registry listeners) ::
        (below ++ o.nodes registry (some d.size) id))).size = id + o.count := by
      rw [← hid, size_extend, size_extend, List.length_cons, List.length_append,
        Outline.length_nodes, List.length_cons]
      omega
    rw [hnext, Node.gain_gain, Outline.handlers_nil, List.append_nil, List.append_assoc] at hrest
    calc executeAll registry number (filling listeners (o :: os) ++ rest)
          ((k, d.size) :: live, d.extend (n :: below))
      _ = executeAll registry number
            (o.program ++ (listening listeners ++ .appendChild :: (filling [] os ++ rest)))
            ((k, d.size) :: live, d.extend (n :: below)) := by
          rw [filling, List.append_assoc, List.append_assoc, List.cons_append]
      _ = executeAll registry (number + o.count) (.appendChild :: (filling [] os ++ rest))
            ((number, id) :: (k, d.size) :: live, d.extend
              (n.gain [] (handlers registry listeners) :: (below ++ o.nodes registry none id))) := by
          rw [hchild, executeAll_listening registry]
      _ = executeAll registry (number + o.count) (filling [] os ++ rest) ((k, d.size) :: live,
            d.extend (n.gain [id] (handlers registry listeners) ::
              (below ++ o.nodes registry (some d.size) id))) :=
          executeAll_cons_of_ok happend _
      _ = executeAll registry (number + countAll (o :: os)) rest ((k, d.size) :: live, d.extend
            (n.gain (idsFrom id (o :: os)) (handlers registry listeners) ::
              (below ++ nodesAll registry (some d.size) id (o :: os)))) := by
          rw [hrest, Nat.add_assoc]
          rfl

end

theorem executeAll_programAll (hd : d.OwnsFragment) {os : List Outline} (h : BuildableAll os)
    (number : Nat) (live : Handles NodeId) :
    ∃ added : Handles NodeId, added.map (·.2) = (idsFrom d.size os).reverse ∧
      executeAll registry number (programAll os) (live, d) =
        .ok () (added ++ live, d.extend (nodesAll registry none d.size os)) := by
  induction os generalizing d number live with
  | nil =>
    refine ⟨[], rfl, ?_⟩
    rw [nodesAll, Document.extend_nil]
    rfl
  | cons o rest ih =>
    obtain ⟨added, hadded, hrest⟩ := ih (d := d.extend (o.nodes registry none d.size))
      (ownsFragment_extend hd _) h.2 (number + o.count) ((number, d.size) :: live)
    rw [size_extend, Outline.length_nodes] at hadded hrest
    refine ⟨added ++ [(number, d.size)], ?_, ?_⟩
    · rw [List.map_append, hadded, idsFrom, List.reverse_cons]
      rfl
    · calc executeAll registry number (programAll (o :: rest)) (live, d)
        _ = executeAll registry number (o.program ++ programAll rest) (live, d) := by
            rw [programAll, List.flatMap_cons, ← programAll]
        _ = executeAll registry (number + o.count) (programAll rest)
              ((number, d.size) :: live, d.extend (o.nodes registry none d.size)) :=
            executeAll_program registry d hd number live (programAll rest) o h.1
        _ = .ok () (added ++ (number, d.size) :: live, _) := hrest
        _ = _ := by
            rw [extend_extend, nodesAll, List.append_assoc, List.singleton_append]

end TreeCode.Plain
