import TreeCode.Document

/-!
# Documents that can be reached

`Document.Reachable` holds for what any calls to a document leave of an empty one, as long as they
name nodes that are there. What `Document.edit` does is followed through its parts: each keeps the
number of nodes or adds to it, and puts nothing in the fragment but the nodes it was given.
-/

namespace TreeCode

def Edit.nodes {ν : Type} : Edit ν → List ν
  | .setAttribute node _ _ => [node]
  | .removeAttribute node _ => [node]
  | .setStyle node _ _ => [node]
  | .appendChild parent child => [parent, child]
  | .insertAfter sibling child => [sibling, child]
  | .removeChild parent child => [parent, child]
  | .replaceChild parent old new => [parent, old, new]
  | .setText node _ => [node]
  | .listen node _ _ => [node]

def Edit.map {ν μ : Type} (f : ν → μ) : Edit ν → Edit μ
  | .setAttribute node key value => .setAttribute (f node) key value
  | .removeAttribute node key => .removeAttribute (f node) key
  | .setStyle node name value => .setStyle (f node) name value
  | .appendChild parent child => .appendChild (f parent) (f child)
  | .insertAfter sibling child => .insertAfter (f sibling) (f child)
  | .removeChild parent child => .removeChild (f parent) (f child)
  | .replaceChild parent old new => .replaceChild (f parent) (f old) (f new)
  | .setText node text => .setText (f node) text
  | .listen node event handler => .listen (f node) event handler

namespace Document

/-- What calls leave of an empty document. -/
inductive Reachable : Document → Prop where
  | empty (defersSiblings : Bool) : Reachable { defersSiblings }
  | create {d : Document} (request : Creation) : Reachable d →
      Reachable (Host.create request d).2
  | edit {d : Document} (request : Edit NodeId) : Reachable d →
      (∀ id ∈ request.nodes, id < d.size) → Reachable (Host.edit request d)

def OwnsFragment (d : Document) : Prop := ∀ id ∈ d.fragment, id < d.size

variable {d : Document}

/-! ## Sizes and fragments -/

@[simp] theorem size_modify (d : Document) (id : NodeId) (f : Node → Node) :
    (d.modify id f).size = d.size := by
  simp [modify, size]

theorem ownsFragment_modify {id : NodeId} {f : Node → Node} (h : d.OwnsFragment) :
    (d.modify id f).OwnsFragment := by
  intro i hi
  rw [size_modify]
  exact h i hi

@[simp] theorem size_detach (d : Document) (id : NodeId) : (d.detach id).size = d.size := by
  unfold detach
  cases (d.node id).parent with
  | none => rfl
  | some parent =>
    change ((d.setParent id none).modifyChildren parent _).size = d.size
    simp [setParent, modifyChildren]

theorem fragment_detach (d : Document) (id : NodeId) :
    (d.detach id).fragment = d.fragment.filter (· ≠ id) := by
  unfold detach
  cases (d.node id).parent <;> rfl

theorem ownsFragment_detach {id : NodeId} (h : d.OwnsFragment) : (d.detach id).OwnsFragment := by
  intro i hi
  rw [fragment_detach] at hi
  rw [size_detach]
  exact h i (List.mem_filter.mp hi).1

theorem ownsFragment_appendChild {parent child : NodeId} (h : d.OwnsFragment) :
    (d.appendChild parent child).OwnsFragment :=
  ownsFragment_modify (ownsFragment_modify (ownsFragment_detach h))

theorem putAfter_perm (sibling new : NodeId) (ids : List NodeId) :
    (putAfter sibling new ids).Perm (new :: ids) := by
  induction ids with
  | nil => exact .refl _
  | cons id rest ih =>
    unfold putAfter
    split
    · exact .swap new id rest
    · exact (ih.cons id).trans (.swap new id rest)

theorem mem_putAfter {sibling new id : NodeId} {ids : List NodeId}
    (h : id ∈ putAfter sibling new ids) : id = new ∨ id ∈ ids :=
  List.mem_cons.mp ((putAfter_perm sibling new ids).mem_iff.mp h)

theorem ownsFragment_insertAfter {sibling child : NodeId} (h : d.OwnsFragment)
    (hs : sibling < d.size) (hc : child < d.size) : (d.insertAfter sibling child).OwnsFragment := by
  have hd : (d.detach child).OwnsFragment := ownsFragment_detach h
  unfold insertAfter
  cases hp : ((d.detach child).node sibling).parent with
  | some parent =>
    simp only [hp]
    exact ownsFragment_modify (ownsFragment_modify hd)
  | none =>
    simp only [hp]
    intro i hi
    change i < (d.detach child).size
    rcases mem_putAfter hi with rfl | hi
    · rwa [size_detach]
    · split at hi
      · exact hd i hi
      · rcases List.mem_append.mp hi with hi | hi
        · exact hd i hi
        · rw [List.mem_singleton.mp hi, size_detach]
          exact hs

theorem ownsFragment_replaceChild {parent old new : NodeId} (h : d.OwnsFragment) :
    (d.replaceChild parent old new).OwnsFragment := by
  unfold replaceChild
  split
  · exact h
  · exact ownsFragment_modify (ownsFragment_modify (ownsFragment_modify (ownsFragment_detach h)))

@[simp] theorem size_create (d : Document) (content : Content) :
    (d.create content).2.size = d.size + 1 :=
  Array.size_push ..

theorem ownsFragment_create {content : Content} (h : d.OwnsFragment) :
    (d.create content).2.OwnsFragment := by
  intro i hi
  rw [size_create]
  exact Nat.lt_succ_of_lt (h i hi)

def orphan (d : Document) (ids : List NodeId) : Document :=
  ids.foldl (fun d child => d.setParent child none) d

@[simp] theorem size_orphan (d : Document) (ids : List NodeId) : (d.orphan ids).size = d.size := by
  induction ids generalizing d with
  | nil => rfl
  | cons id rest ih => exact (ih _).trans (size_modify d id _)

@[simp] theorem fragment_orphan (d : Document) (ids : List NodeId) :
    (d.orphan ids).fragment = d.fragment := by
  induction ids generalizing d with
  | nil => rfl
  | cons id rest ih => exact ih _

/-- The document with an element that has lost its children. -/
def emptied (d : Document) (id : NodeId) : Document :=
  (d.modifyChildren id fun _ => []).orphan (d.node id).children

@[simp] theorem size_emptied (d : Document) (id : NodeId) : (d.emptied id).size = d.size := by
  rw [emptied, size_orphan, modifyChildren, size_modify]

@[simp] theorem fragment_emptied (d : Document) (id : NodeId) :
    (d.emptied id).fragment = d.fragment := fragment_orphan _ _

theorem ownsFragment_emptied (h : d.OwnsFragment) (id : NodeId) : (d.emptied id).OwnsFragment := by
  intro i hi
  rw [fragment_emptied] at hi
  rw [size_emptied]
  exact h i hi

/-- An element that is given a text loses its children, and the text, a new node, is then put under
it. -/
theorem setText_of_element {id : NodeId} {tag : String} {attributes style : Pairs}
    (h : (d.node id).content = .element tag attributes style) (text : String) :
    d.setText id text = ((d.emptied id).create (.text text)).2.appendChild id d.size := by
  rw [← size_emptied d id, setText, h]
  rfl

theorem ownsFragment_setText {id : NodeId} {text : String} (h : d.OwnsFragment) :
    (d.setText id text).OwnsFragment := by
  cases hcontent : (d.node id).content with
  | text content =>
    rw [setText, hcontent]
    exact ownsFragment_modify h
  | element tag attributes style =>
    rw [setText_of_element hcontent]
    exact ownsFragment_appendChild (ownsFragment_create (ownsFragment_emptied h id))

/-! ## Calls -/

theorem ownsFragment_edit {request : Edit NodeId} (h : d.OwnsFragment)
    (hr : ∀ id ∈ request.nodes, id < d.size) : (edit request d).OwnsFragment := by
  cases request with
  | setAttribute | removeAttribute | setStyle | listen => exact ownsFragment_modify h
  | appendChild parent child => exact ownsFragment_appendChild h
  | insertAfter sibling child =>
    exact ownsFragment_insertAfter h (hr _ (by simp [Edit.nodes])) (hr _ (by simp [Edit.nodes]))
  | removeChild parent child =>
    change (d.removeChild parent child).OwnsFragment
    unfold removeChild
    split
    · exact ownsFragment_detach h
    · exact h
  | replaceChild parent old new => exact ownsFragment_replaceChild h
  | setText node text => exact ownsFragment_setText h

theorem Reachable.ownsFragment (h : d.Reachable) : d.OwnsFragment := by
  induction h with
  | empty defersSiblings => exact List.forall_mem_nil _
  | create request _ ih => exact ownsFragment_create ih
  | edit request _ hr ih => exact ownsFragment_edit ih hr

end Document

end TreeCode
