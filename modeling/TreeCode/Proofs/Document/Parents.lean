import TreeCode.Proofs.Document.Links
import TreeCode.Proofs.Machine.Deeds

/-!
# Parents after a change

Which parent a node has after a change, and what a change does to the fragment, where the nodes it
names have no parent. A change that joins no nodes then gives a parent to no node but the text that
it puts in an element (`parent_edit_of_roots`), and keeps the fragment (`fragment_edit_of_roots`);
taking a child away, or putting another in its place, does nothing (`removeChild_of_root`,
`replaceChild_of_root`).
-/

namespace TreeCode.Document

variable {d : Document} {c p s : NodeId}

/-- The nodes are there and have no parent. -/
def Roots (d : Document) (ids : List NodeId) : Prop :=
  ∀ id ∈ ids, id < d.size ∧ (d.node id).parent = none

theorem Roots.mono {ids ids' : List NodeId} (h : d.Roots ids) (hsub : ids' ⊆ ids) : d.Roots ids' :=
  fun id hid => h id (hsub hid)

/-! ## Sizes -/

@[simp] theorem size_appendChild (d : Document) (p c : NodeId) :
    (d.appendChild p c).size = d.size := by
  simp [appendChild, modifyChildren, setParent]

@[simp] theorem size_insertAfter (d : Document) (s c : NodeId) :
    (d.insertAfter s c).size = d.size := by
  unfold insertAfter
  cases hs : ((d.detach c).node s).parent with
  | none =>
    simp only [hs]
    exact size_detach d c
  | some g => simp [hs, modifyChildren, setParent]

theorem size_setText_of_element {id : NodeId} {tag : String} {attributes style : Pairs}
    (h : (d.node id).content = .element tag attributes style) (text : String) :
    (d.setText id text).size = d.size + 1 := by
  rw [setText_of_element h, size_appendChild, size_create, size_emptied]

theorem size_le_setText (d : Document) (id : NodeId) (text : String) :
    d.size ≤ (d.setText id text).size := by
  cases hcontent : (d.node id).content with
  | text content =>
    rw [setText, hcontent]
    exact Nat.le_of_eq (size_modify d id _).symm
  | element tag attributes style =>
    rw [size_setText_of_element hcontent]
    exact Nat.le_succ _

/-! ## Parents -/

theorem parent_appendChild (hc : c < d.size) (p i : NodeId) :
    ((d.appendChild p c).node i).parent = if i = c then some p else (d.node i).parent := by
  have hc' : c < (d.detach c).size := by rwa [size_detach]
  rw [appendChild, parent_modifyChildren, parent_setParent hc', parent_detach]
  split <;> rfl

theorem parent_insertAfter (hc : c < d.size) (hne : s ≠ c) (i : NodeId) :
    ((d.insertAfter s c).node i).parent =
      if i = c then (d.node s).parent else (d.node i).parent := by
  have hs : ((d.detach c).node s).parent = (d.node s).parent := by rw [parent_detach, if_neg hne]
  unfold insertAfter
  simp only [hs]
  cases hg : (d.node s).parent with
  | none =>
    change ((d.detach c).node i).parent = _
    exact parent_detach d c i
  | some g =>
    have hc' : c < ((d.detach c).modifyChildren g (putAfter s c)).size := by
      rwa [modifyChildren, size_modify, size_detach]
    rw [parent_setParent hc', parent_modifyChildren, parent_detach]
    split <;> rfl

theorem parent_setText_of_element {id : NodeId} {tag : String} {attributes style : Pairs}
    (h : (d.node id).content = .element tag attributes style) (text : String) (i : NodeId) :
    ((d.setText id text).node i).parent =
      if i = d.size then some id
      else if i ∈ (d.node id).children then none else (d.node i).parent := by
  have hnew : d.size < ((d.emptied id).create (.text text)).2.size := by
    rw [size_create, size_emptied]
    exact Nat.lt_succ_self _
  rw [setText_of_element h, parent_appendChild hnew, (links_create _ _ i).1, parent_emptied]

/-- A node keeps its parent or loses it, but for the new text of an element. -/
theorem parent_setText {id i : NodeId} {text : String}
    (h : ((d.setText id text).node i).parent = some p) :
    (d.node i).parent = some p ∨ i = d.size ∧ p = id ∧ d.size < (d.setText id text).size := by
  cases hcontent : (d.node id).content with
  | text content =>
    left
    rwa [setText, hcontent, modifyContent, map_node_modify Node.parent d id
      (fun n => { n with content := .text text }) (fun _ => rfl)] at h
  | element tag attributes style =>
    rw [size_setText_of_element hcontent]
    rw [parent_setText_of_element hcontent] at h
    split at h
    · rename_i hi
      exact .inr ⟨hi, (Option.some.inj h).symm, Nat.lt_succ_self _⟩
    · split at h
      · cases h
      · exact .inl h

/-! ## Nodes without a parent -/

theorem removeChild_of_root (h : (d.node c).parent = none) (p : NodeId) :
    d.removeChild p c = d := by
  rw [removeChild, if_neg (by simp [h])]

theorem replaceChild_of_root {old : NodeId} (h : (d.node old).parent = none) (p new : NodeId) :
    d.replaceChild p old new = d := by
  rw [replaceChild, if_pos (by simp [h])]

theorem filter_ne_of_not_mem {ids : List NodeId} (h : c ∉ ids) : ids.filter (· ≠ c) = ids := by
  rw [List.filter_eq_self]
  intro i hi
  exact decide_eq_true fun he => h (he ▸ hi)

theorem detach_of_root (h : (d.node c).parent = none) (hc : c ∉ d.fragment) : d.detach c = d := by
  simp only [detach, h, filter_ne_of_not_mem hc]

theorem fragment_appendChild_of_not_mem (h : c ∉ d.fragment) (p : NodeId) :
    (d.appendChild p c).fragment = d.fragment :=
  (fragment_detach d c).trans (filter_ne_of_not_mem h)

theorem fragment_setText (h : d.OwnsFragment) (id : NodeId) (text : String) :
    (d.setText id text).fragment = d.fragment := by
  cases hcontent : (d.node id).content with
  | text content =>
    rw [setText, hcontent]
    rfl
  | element tag attributes style =>
    have hnew : d.size ∉ ((d.emptied id).create (.text text)).2.fragment := by
      change d.size ∉ (d.emptied id).fragment
      rw [fragment_emptied]
      exact fun hmem => Nat.lt_irrefl _ (h _ hmem)
    rw [setText_of_element hcontent, fragment_appendChild_of_not_mem hnew]
    exact fragment_emptied d id

variable {e : Edit NodeId}

theorem size_le_edit (d : Document) (he : e.joined? = none) (hroots : d.Roots e.nodes) :
    d.size ≤ (edit e d).size := by
  cases e with
  | setAttribute | removeAttribute | setStyle | listen => exact Nat.le_of_eq (size_modify ..).symm
  | removeChild p c =>
    exact Nat.le_of_eq
      (congrArg size (removeChild_of_root (hroots c (by simp [Edit.nodes])).2 p)).symm
  | replaceChild p old new =>
    exact Nat.le_of_eq
      (congrArg size (replaceChild_of_root (hroots old (by simp [Edit.nodes])).2 p new)).symm
  | setText id text => exact size_le_setText d id text
  | appendChild | insertAfter => cases he

/-- A change that joins no nodes, to nodes without a parent, gives a parent to no node but a new
one. -/
theorem parent_edit_of_roots (he : e.joined? = none) (hroots : d.Roots e.nodes) {i : NodeId}
    (h : ((edit e d).node i).parent = some p) :
    (d.node i).parent = some p ∨ i = d.size ∧ p ∈ e.nodes ∧ d.size < (edit e d).size := by
  cases e with
  | setAttribute | removeAttribute | setStyle | listen =>
    refine .inl ((map_node_modify Node.parent d _ _ ?_ i).symm.trans h)
    exact fun _ => rfl
  | removeChild q c =>
    rw [edit, removeChild_of_root (hroots c (by simp [Edit.nodes])).2] at h
    exact .inl h
  | replaceChild q old new =>
    rw [edit, replaceChild_of_root (hroots old (by simp [Edit.nodes])).2] at h
    exact .inl h
  | setText id text =>
    rcases parent_setText h with h | ⟨hi, hp, hsize⟩
    · exact .inl h
    · exact .inr ⟨hi, by simp [Edit.nodes, hp], hsize⟩
  | appendChild | insertAfter => cases he

/-- A node that is joined to another comes under it, or under its parent. -/
theorem parent_edit_of_joined {other child i : NodeId} (he : e.joined? = some (other, child))
    (hchild : child < d.size) (hne : other ≠ child) (h : ((edit e d).node i).parent = some p) :
    (d.node i).parent = some p ∨ i = child ∧ (p = other ∨ (d.node other).parent = some p) := by
  cases e <;> cases he
  case appendChild.refl =>
    rw [edit, parent_appendChild hchild] at h
    split at h
    · rename_i hi
      exact .inr ⟨hi, .inl (Option.some.inj h).symm⟩
    · exact .inl h
  case insertAfter.refl =>
    rw [edit, parent_insertAfter hchild hne] at h
    split at h
    · rename_i hi
      exact .inr ⟨hi, .inr h⟩
    · exact .inl h

theorem size_edit_of_joined {pair : NodeId × NodeId} (he : e.joined? = some pair) :
    (edit e d).size = d.size := by
  cases e <;> cases he
  case appendChild.refl p c => exact size_appendChild d p c
  case insertAfter.refl s c => exact size_insertAfter d s c

theorem fragment_edit_of_roots (h : d.OwnsFragment) (he : e.joined? = none)
    (hroots : d.Roots e.nodes) : (edit e d).fragment = d.fragment := by
  cases e with
  | setAttribute | removeAttribute | setStyle | listen => rfl
  | removeChild p c =>
    rw [edit, removeChild_of_root (hroots c (by simp [Edit.nodes])).2]
  | replaceChild p old new =>
    rw [edit, replaceChild_of_root (hroots old (by simp [Edit.nodes])).2]
  | setText id text => exact fragment_setText h id text
  | appendChild | insertAfter => cases he

end TreeCode.Document
