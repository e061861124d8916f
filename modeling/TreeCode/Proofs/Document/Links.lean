import Mathlib.Data.List.Nodup
import TreeCode.Proofs.Document.Growth

/-!
# Links

A document says twice where a node is: the node names its parent, and the parent lists its
children. `Linked` says that both agree, that no list names a node twice, and that the nodes of the
fragment have no parent. Changes take nodes away from where they are (`Linked.of_taken`) and put a
node that is nowhere under a parent (`Linked.of_put`); where a change does no more than these, the
links stay sound. So they are sound in every document that calls can reach without putting a node
beside itself (`ReachableApart.links_agree`).
-/

namespace TreeCode

/-- No node is put beside itself. -/
def Edit.Apart {ν : Type} : Edit ν → Prop
  | .insertAfter sibling child => sibling ≠ child
  | _ => True

namespace Document

/-- What calls leave of an empty document when none of them puts a node beside itself. A node may
be put under itself, or under one that is below it. -/
inductive ReachableApart : Document → Prop where
  | empty (defersSiblings : Bool) : ReachableApart { defersSiblings }
  | create {d : Document} (request : Creation) : ReachableApart d →
      ReachableApart (Host.create request d).2
  | edit {d : Document} (request : Edit NodeId) : ReachableApart d →
      (∀ id ∈ request.nodes, id < d.size) → request.Apart →
      ReachableApart (Host.edit request d)

variable {d d' : Document} {c p : NodeId}

theorem ReachableApart.reachable (h : d.ReachableApart) : d.Reachable := by
  induction h with
  | empty defersSiblings => exact .empty defersSiblings
  | create request _ ih => exact .create request ih
  | edit request _ hr _ ih => exact .edit request ih hr

structure Linked (d : Document) : Prop where
  parent_eq_some_iff : ∀ c p, (d.node c).parent = some p ↔ c ∈ (d.node p).children
  nodup_children : ∀ p, (d.node p).children.Nodup
  nodup_fragment : d.fragment.Nodup
  parent_of_mem_fragment : ∀ c ∈ d.fragment, (d.node c).parent = none

/-! ## Links of a changed node -/

theorem size_congr (h : d.nodes = d'.nodes) : d.size = d'.size := congrArg Array.size h

theorem node_congr (h : d.nodes = d'.nodes) (id : NodeId) : d.node id = d'.node id := by
  rw [node, node, h]

theorem node_of_size_le {id : NodeId} (h : d.size ≤ id) : d.node id = {} := by
  rw [node_eq, Array.getElem?_eq_none h]
  rfl

theorem lt_size_of_mem_children (h : c ∈ (d.node p).children) : p < d.size := by
  by_contra hp
  rw [node_of_size_le (Nat.le_of_not_lt hp)] at h
  cases h

theorem node_modify_self {id : NodeId} (h : id < d.size) (f : Node → Node) :
    (d.modify id f).node id = f (d.node id) := by
  have hlt : id < d.nodes.size := h
  rw [node_eq, node_eq, modify, Array.getElem?_modify, if_pos rfl, Array.getElem?_eq_getElem hlt]
  rfl

theorem node_modify_of_ne {id i : NodeId} (h : i ≠ id) (f : Node → Node) :
    (d.modify id f).node i = d.node i := by
  rw [node_eq, node_eq, modify, Array.getElem?_modify, if_neg (Ne.symm h)]

theorem node_modify_of_size_le {id : NodeId} (h : d.size ≤ id) (f : Node → Node) (i : NodeId) :
    (d.modify id f).node i = d.node i := by
  by_cases hi : i = id
  · subst hi
    rw [node_of_size_le h, node_of_size_le (by rwa [size_modify])]
  · exact node_modify_of_ne hi f

/-- What a change to a node leaves alone in it, it leaves alone in every node. -/
theorem map_node_modify {α : Type} (g : Node → α) (d : Document) (id : NodeId) (f : Node → Node)
    (h : ∀ n, g (f n) = g n) (i : NodeId) : g ((d.modify id f).node i) = g (d.node i) := by
  by_cases hi : i = id
  · subst hi
    rcases Nat.lt_or_ge i d.size with hlt | hle
    · rw [node_modify_self hlt, h]
    · rw [node_modify_of_size_le hle]
  · rw [node_modify_of_ne hi]

theorem children_setParent (d : Document) (c : NodeId) (parent : Option NodeId) (i : NodeId) :
    ((d.setParent c parent).node i).children = (d.node i).children :=
  map_node_modify Node.children d c (fun n => { n with parent }) (fun _ => rfl) i

theorem parent_modifyChildren (d : Document) (p : NodeId) (f : List NodeId → List NodeId)
    (i : NodeId) : ((d.modifyChildren p f).node i).parent = (d.node i).parent :=
  map_node_modify Node.parent d p (fun n => { n with children := f n.children }) (fun _ => rfl) i

theorem parent_setParent (h : c < d.size) (parent : Option NodeId) (i : NodeId) :
    ((d.setParent c parent).node i).parent = if i = c then parent else (d.node i).parent := by
  split
  · rename_i hi
    rw [hi, setParent, node_modify_self h]
  · rename_i hi
    rw [setParent, node_modify_of_ne hi]

theorem parent_setParent_none (d : Document) (c i : NodeId) :
    ((d.setParent c none).node i).parent = if i = c then none else (d.node i).parent := by
  rcases Nat.lt_or_ge c d.size with h | h
  · exact parent_setParent h none i
  · rw [setParent, node_modify_of_size_le h]
    split
    · rename_i hi
      rw [hi, node_of_size_le h]
    · rfl

theorem children_modifyChildren (h : p < d.size) (f : List NodeId → List NodeId) (i : NodeId) :
    ((d.modifyChildren p f).node i).children =
      if i = p then f (d.node p).children else (d.node i).children := by
  split
  · rename_i hi
    rw [hi, modifyChildren, node_modify_self h]
  · rename_i hi
    rw [modifyChildren, node_modify_of_ne hi]

/-- A node in the place of another, as if the other had gone and it had come. -/
theorem putInstead_perm {old : NodeId} (new : NodeId) {ids : List NodeId} (hids : ids.Nodup)
    (h : old ∈ ids) : (putInstead old new ids).Perm (new :: ids.filter (· ≠ old)) := by
  induction ids with
  | nil => cases h
  | cons id rest ih =>
    obtain ⟨hid, hrest⟩ := List.nodup_cons.mp hids
    unfold putInstead
    by_cases he : id = old
    · have hself : rest.filter (· ≠ old) = rest := by
        rw [List.filter_eq_self]
        rintro i hi
        exact decide_eq_true fun hio => hid (by rwa [he, ← hio])
      rw [if_pos he, List.filter_cons_of_neg (by simpa using he), hself]
    · have hold : old ∈ rest := (List.mem_cons.mp h).resolve_left (Ne.symm he)
      rw [if_neg he, List.filter_cons_of_pos (by simpa using he)]
      exact ((ih hrest hold).cons id).trans (.swap new id _)

/-! ## Taking nodes away and putting them in -/

/-- Nothing but what nodes hold has changed. -/
theorem Linked.of_links_eq (h : d.Linked)
    (hparent : ∀ i, (d'.node i).parent = (d.node i).parent)
    (hchildren : ∀ i, (d'.node i).children = (d.node i).children)
    (hfragment : d'.fragment = d.fragment) : d'.Linked where
  parent_eq_some_iff c p := by rw [hparent, hchildren, h.parent_eq_some_iff]
  nodup_children p := by rw [hchildren]; exact h.nodup_children p
  nodup_fragment := by rw [hfragment]; exact h.nodup_fragment
  parent_of_mem_fragment c hc := by
    rw [hparent]
    exact h.parent_of_mem_fragment c (hfragment ▸ hc)

theorem Linked.modify (h : d.Linked) (id : NodeId) (f : Node → Node)
    (hparent : ∀ n, (f n).parent = n.parent) (hchildren : ∀ n, (f n).children = n.children) :
    (d.modify id f).Linked :=
  h.of_links_eq (map_node_modify Node.parent d id f hparent)
    (map_node_modify Node.children d id f hchildren) rfl

theorem Linked.of_taken (h : d.Linked) (taken : List NodeId)
    (hparent : ∀ i, (d'.node i).parent = if i ∈ taken then none else (d.node i).parent)
    (hchildren : ∀ i, (d'.node i).children = (d.node i).children.filter (· ∉ taken))
    (hfragment : d'.fragment.Sublist d.fragment) : d'.Linked where
  parent_eq_some_iff c p := by
    rw [hparent, hchildren, List.mem_filter, ← h.parent_eq_some_iff]
    by_cases hc : c ∈ taken <;> simp [hc]
  nodup_children p := by
    rw [hchildren]
    exact (h.nodup_children p).filter _
  nodup_fragment := h.nodup_fragment.sublist hfragment
  parent_of_mem_fragment c hc := by
    rw [hparent, h.parent_of_mem_fragment c (hfragment.subset hc), ite_self]

/-- A node that had no parent and was not in the fragment was put under a parent, wherever in the
list of its children. -/
theorem Linked.of_put (h : d.Linked) (hnone : (d.node c).parent = none) (hc : c ∉ d.fragment)
    (hparent : ∀ i, (d'.node i).parent = if i = c then some p else (d.node i).parent)
    (hchildren : ∀ i, (d'.node i).children.Perm
      (if i = p then c :: (d.node p).children else (d.node i).children))
    (hfragment : d'.fragment = d.fragment) : d'.Linked where
  parent_eq_some_iff c' p' := by
    have hnot : c ∉ (d.node p').children := by
      rw [← h.parent_eq_some_iff, hnone]
      simp
    rw [hparent, (hchildren p').mem_iff]
    have hiff := h.parent_eq_some_iff c' p'
    by_cases hc' : c' = c <;> by_cases hp' : p' = p
    · simp [hc', hp']
    · subst hc'
      simp [Ne.symm hp', hp', hnot]
    · subst hp'
      simp [hc', hiff]
    · simp [hc', hp', hiff]
  nodup_children p' := by
    rw [(hchildren p').nodup_iff]
    split
    · refine List.nodup_cons.mpr ⟨?_, h.nodup_children p⟩
      rw [← h.parent_eq_some_iff, hnone]
      simp
    · exact h.nodup_children p'
  nodup_fragment := by rw [hfragment]; exact h.nodup_fragment
  parent_of_mem_fragment i hi := by
    rw [hfragment] at hi
    have hne : i ≠ c := fun he => hc (he ▸ hi)
    rw [hparent, if_neg hne]
    exact h.parent_of_mem_fragment i hi

/-! ## Detaching -/

theorem parent_detach (d : Document) (c i : NodeId) :
    ((d.detach c).node i).parent = if i = c then none else (d.node i).parent := by
  unfold detach
  cases hp : (d.node c).parent with
  | none =>
    change (d.node i).parent = _
    split
    · rename_i hi
      rw [hi, hp]
    · rfl
  | some p =>
    change (((d.setParent c none).modifyChildren p _).node i).parent = _
    rw [parent_modifyChildren, parent_setParent_none]

theorem Linked.filter_children_of_parent_ne (h : d.Linked) {i : NodeId}
    (hi : (d.node c).parent ≠ some i) :
    (d.node i).children.filter (· ≠ c) = (d.node i).children := by
  rw [List.filter_eq_self]
  intro j hj
  have hne : j ≠ c := fun he => hi ((h.parent_eq_some_iff c i).mpr (he ▸ hj))
  exact decide_eq_true hne

theorem Linked.children_detach (h : d.Linked) (c i : NodeId) :
    ((d.detach c).node i).children = (d.node i).children.filter (· ≠ c) := by
  unfold Document.detach
  cases hp : (d.node c).parent with
  | none =>
    change (d.node i).children = _
    rw [h.filter_children_of_parent_ne (by rw [hp]; simp)]
  | some p =>
    have hlt : p < (d.setParent c none).size := by
      rw [setParent, size_modify]
      exact lt_size_of_mem_children ((h.parent_eq_some_iff c p).mp hp)
    change (((d.setParent c none).modifyChildren p _).node i).children = _
    rw [children_modifyChildren hlt, children_setParent, children_setParent]
    split
    · rename_i hi
      rw [hi]
    · rename_i hi
      rw [h.filter_children_of_parent_ne (by rw [hp]; simpa using Ne.symm hi)]

theorem Linked.fragment_detach_of_parent (h : d.Linked) (hp : (d.node c).parent = some p) :
    (d.detach c).fragment = d.fragment := by
  rw [fragment_detach, List.filter_eq_self]
  intro i hi
  have hne : i ≠ c := by
    rintro rfl
    rw [h.parent_of_mem_fragment i hi] at hp
    cases hp
  exact decide_eq_true hne

theorem not_mem_fragment_detach (d : Document) (c : NodeId) : c ∉ (d.detach c).fragment := by
  rw [fragment_detach]
  simp

theorem parent_detach_self (d : Document) (c : NodeId) : ((d.detach c).node c).parent = none := by
  rw [parent_detach, if_pos rfl]

theorem Linked.detach (h : d.Linked) (c : NodeId) : (d.detach c).Linked := by
  refine h.of_taken [c] (fun i => ?_) (fun i => ?_) ?_
  · simp only [parent_detach, List.mem_singleton]
  · simp only [h.children_detach, List.mem_singleton]
  · rw [fragment_detach]
    exact List.filter_sublist

/-! ## Each change -/

theorem Linked.appendChild (h : d.Linked) (hp : p < d.size) (hc : c < d.size) :
    (d.appendChild p c).Linked := by
  have hc' : c < (d.detach c).size := by rwa [size_detach]
  have hp' : p < ((d.detach c).setParent c (some p)).size := by
    rwa [setParent, size_modify, size_detach]
  refine (h.detach c).of_put (p := p) (parent_detach_self d c) (not_mem_fragment_detach d c)
    (fun i => ?_) (fun i => ?_) rfl
  · rw [Document.appendChild, parent_modifyChildren, parent_setParent hc']
  · rw [Document.appendChild, children_modifyChildren hp', children_setParent, children_setParent]
    split
    · exact List.perm_append_singleton _ _
    · exact .refl _

/-- Both come into the fragment: the node itself, and its sibling where it was not there. -/
theorem Linked.putInFragment {s : NodeId} (h : d.Linked) (hs : (d.node s).parent = none)
    (hnone : (d.node c).parent = none) (hc : c ∉ d.fragment) (hne : s ≠ c) :
    ({ d with
        fragment := putAfter s c (if s ∈ d.fragment then d.fragment else d.fragment ++ [s]) } :
      Document).Linked where
  parent_eq_some_iff := h.parent_eq_some_iff
  nodup_children := h.nodup_children
  nodup_fragment := by
    rw [(putAfter_perm s c _).nodup_iff]
    split
    · exact List.nodup_cons.mpr ⟨hc, h.nodup_fragment⟩
    · rename_i hs'
      rw [List.nodup_cons, (List.perm_append_singleton s d.fragment).nodup_iff, List.nodup_cons]
      refine ⟨?_, hs', h.nodup_fragment⟩
      simpa [hc] using Ne.symm hne
  parent_of_mem_fragment i hi := by
    change (d.node i).parent = none
    rcases mem_putAfter hi with rfl | hi
    · exact hnone
    split at hi
    · exact h.parent_of_mem_fragment i hi
    · rcases List.mem_append.mp hi with hi | hi
      · exact h.parent_of_mem_fragment i hi
      · rwa [List.mem_singleton.mp hi]

theorem Linked.insertAfter {s : NodeId} (h : d.Linked) (hc : c < d.size) (hne : s ≠ c) :
    (d.insertAfter s c).Linked := by
  have hd : (d.detach c).Linked := h.detach c
  have hnone := parent_detach_self d c
  have hfragment := not_mem_fragment_detach d c
  unfold Document.insertAfter
  cases hs : ((d.detach c).node s).parent with
  | none =>
    simp only [hs]
    exact hd.putInFragment hs hnone hfragment hne
  | some g =>
    simp only [hs]
    have hg : g < (d.detach c).size := lt_size_of_mem_children ((hd.parent_eq_some_iff s g).mp hs)
    have hc' : c < ((d.detach c).modifyChildren g (putAfter s c)).size := by
      rwa [modifyChildren, size_modify, size_detach]
    refine hd.of_put (p := g) hnone hfragment (fun i => ?_) (fun i => ?_) rfl
    · rw [parent_setParent hc', parent_modifyChildren]
    · rw [children_setParent, children_modifyChildren hg]
      split
      · exact putAfter_perm s c _
      · exact .refl _

theorem Linked.removeChild (h : d.Linked) (p c : NodeId) : (d.removeChild p c).Linked := by
  unfold Document.removeChild
  split
  · exact h.detach c
  · exact h

/-- A child that is replaced ends as if it had been detached, and the new one comes under the parent
that it leaves. -/
theorem Linked.replaceChild {old new : NodeId} (h : d.Linked) (hnew : new < d.size) :
    (d.replaceChild p old new).Linked := by
  unfold Document.replaceChild
  split
  · exact h
  rename_i hcond
  obtain ⟨hold, hne⟩ : (d.node old).parent = some p ∧ old ≠ new := by simpa using hcond
  have h₁ : (d.detach new).Linked := h.detach new
  have hold₁ : ((d.detach new).node old).parent = some p := by rw [parent_detach, if_neg hne, hold]
  have hmem : old ∈ ((d.detach new).node p).children := (h₁.parent_eq_some_iff old p).mp hold₁
  have hp : p < (d.detach new).size := lt_size_of_mem_children hmem
  have hnew₁ : new <
      (((d.detach new).modifyChildren p (putInstead old new)).setParent old none).size := by
    rwa [setParent, size_modify, modifyChildren, size_modify, size_detach]
  have hnone : (((d.detach new).detach old).node new).parent = none := by
    rw [parent_detach, if_neg (Ne.symm hne), parent_detach_self]
  have hfragment := h₁.fragment_detach_of_parent hold₁
  refine (h₁.detach old).of_put (p := p) hnone
    (by rw [hfragment]; exact not_mem_fragment_detach d new) (fun i => ?_) (fun i => ?_)
    hfragment.symm
  · rw [parent_setParent hnew₁, parent_setParent_none, parent_modifyChildren, parent_detach _ old]
  · rw [children_setParent, children_setParent, children_modifyChildren hp, h₁.children_detach old,
      h₁.children_detach old]
    split
    · exact putInstead_perm new (h₁.nodup_children p) hmem
    · rename_i hi
      rw [h₁.filter_children_of_parent_ne (by rw [hold₁]; simpa using Ne.symm hi)]

theorem node_create (d : Document) (content : Content) (i : NodeId) :
    (d.create content).2.node i = if i = d.size then { content } else d.node i := by
  rw [node_eq, node_eq]
  change ((d.nodes.push { content })[i]?).getD {} = _
  rw [Array.getElem?_push]
  split
  · rw [if_pos ‹_›]
    rfl
  · rw [if_neg ‹_›]

theorem links_create (d : Document) (content : Content) (i : NodeId) :
    ((d.create content).2.node i).parent = (d.node i).parent ∧
      ((d.create content).2.node i).children = (d.node i).children := by
  rw [node_create]
  split
  · rename_i hi
    rw [hi, node_of_size_le (Nat.le_refl _)]
    exact ⟨rfl, rfl⟩
  · exact ⟨rfl, rfl⟩

theorem Linked.create (h : d.Linked) (content : Content) : (d.create content).2.Linked :=
  h.of_links_eq (fun i => (links_create d content i).1) (fun i => (links_create d content i).2) rfl

theorem parent_orphan (d : Document) (ids : List NodeId) (i : NodeId) :
    ((d.orphan ids).node i).parent = if i ∈ ids then none else (d.node i).parent := by
  induction ids generalizing d with
  | nil => simp [orphan]
  | cons id rest ih =>
    change (((d.setParent id none).orphan rest).node i).parent = _
    rw [ih, parent_setParent_none]
    by_cases hi : i = id <;> simp [hi]

theorem children_orphan (d : Document) (ids : List NodeId) (i : NodeId) :
    ((d.orphan ids).node i).children = (d.node i).children := by
  induction ids generalizing d with
  | nil => rfl
  | cons id rest ih => exact (ih _).trans (children_setParent d id none i)

theorem parent_emptied (d : Document) (id i : NodeId) :
    ((d.emptied id).node i).parent =
      if i ∈ (d.node id).children then none else (d.node i).parent := by
  rw [emptied, parent_orphan, parent_modifyChildren]

theorem children_emptied {id : NodeId} (hid : id < d.size) (i : NodeId) :
    ((d.emptied id).node i).children = if i = id then [] else (d.node i).children := by
  rw [emptied, children_orphan, children_modifyChildren hid]

theorem Linked.emptied (h : d.Linked) {id : NodeId} (hid : id < d.size) :
    (d.emptied id).Linked := by
  refine h.of_taken (d.node id).children (parent_emptied d id) (fun i => ?_) ?_
  · rw [children_emptied hid]
    split
    · rename_i hi
      rw [hi]
      symm
      rw [List.filter_eq_nil_iff]
      intro j hj
      simpa using hj
    · rename_i hi
      symm
      rw [List.filter_eq_self]
      intro j hj
      have hj' : j ∉ (d.node id).children := by
        rw [← h.parent_eq_some_iff, (h.parent_eq_some_iff j i).mpr hj]
        simpa using hi
      exact decide_eq_true hj'
  · rw [fragment_emptied]

theorem Linked.setText (h : d.Linked) {id : NodeId} (hid : id < d.size) (text : String) :
    (d.setText id text).Linked := by
  cases hcontent : (d.node id).content with
  | text content =>
    rw [Document.setText, hcontent]
    exact h.modify id _ (fun _ => rfl) (fun _ => rfl)
  | element tag attributes style =>
    rw [setText_of_element hcontent]
    refine ((h.emptied hid).create (.text text)).appendChild ?_ ?_
    · rw [size_create, size_emptied]
      exact Nat.lt_succ_of_lt hid
    · rw [size_create, size_emptied]
      exact Nat.lt_succ_self _

/-! ## Calls -/

theorem Linked.edit {request : Edit NodeId} (h : d.Linked)
    (hr : ∀ id ∈ request.nodes, id < d.size) (hapart : request.Apart) :
    (edit request d).Linked := by
  cases request with
  | setAttribute | removeAttribute | setStyle | listen =>
    exact h.modify _ _ (fun _ => rfl) (fun _ => rfl)
  | appendChild parent child =>
    exact h.appendChild (hr _ (by simp [Edit.nodes])) (hr _ (by simp [Edit.nodes]))
  | insertAfter sibling child => exact h.insertAfter (hr _ (by simp [Edit.nodes])) hapart
  | removeChild parent child => exact h.removeChild parent child
  | replaceChild parent old new => exact h.replaceChild (hr _ (by simp [Edit.nodes]))
  | setText node text => exact h.setText (hr _ (by simp [Edit.nodes])) text

theorem linked_empty (defersSiblings : Bool) : ({ defersSiblings } : Document).Linked where
  parent_eq_some_iff c p := by simp [node_of_size_le, size]
  nodup_children p := by simp [node_of_size_le, size]
  nodup_fragment := .nil
  parent_of_mem_fragment c hc := by cases hc

theorem ReachableApart.linked (h : d.ReachableApart) : d.Linked := by
  induction h with
  | empty defersSiblings => exact linked_empty defersSiblings
  | create request _ ih => exact ih.create (contentOf request)
  | edit request _ hr hapart ih => exact ih.edit hr hapart

/-- **Links agree.** In a document that calls can reach, each naming nodes that are there and none
putting a node beside itself, a node names a parent just where the parent lists it as a child, and
lists it once; the fragment names no node twice, and its nodes have no parent. -/
theorem ReachableApart.links_agree (h : d.ReachableApart) :
    (∀ c p, ((d.node c).parent = some p ↔ c ∈ (d.node p).children) ∧
      (c ∈ (d.node p).children → (d.node p).children.count c = 1)) ∧
    d.fragment.Nodup ∧
    (∀ c ∈ d.fragment, (d.node c).parent = none) := by
  have hlinked := h.linked
  refine ⟨fun c p => ⟨hlinked.parent_eq_some_iff c p, fun hc => ?_⟩, hlinked.nodup_fragment,
    hlinked.parent_of_mem_fragment⟩
  exact List.count_eq_one_of_mem (hlinked.nodup_children p) hc

/-- Two elements stand under each other, and a text that stood beside one of them under itself. -/
theorem links_agree_in_circles :
    let created : Document := (Host.create (.text "c") (Host.create (.element "b")
      (Host.create (.element "a") ({} : Document)).2).2).2
    let d : Document := Host.edit (.appendChild 2 2) (Host.edit (.insertAfter 1 2)
      (Host.edit (.appendChild 1 0) (Host.edit (.appendChild 0 1) created)))
    d.ReachableApart ∧ (d.node 0).children = [1] ∧ (d.node 1).children = [0] ∧
      (d.node 2).children.count 2 = 1 ∧ (d.node 2).parent = some 2 ∧ d.fragment.Nodup := by
  intro created d
  have h : d.ReachableApart :=
    .edit _ (.edit _ (.edit _ (.edit _ (.create _ (.create _ (.create _ (.empty false))))
      (by decide) trivial) (by decide) trivial) (by decide) (by simp [Edit.Apart])) (by decide)
      trivial
  obtain ⟨hlinks, hfragment, -⟩ := h.links_agree
  have hchild : 2 ∈ (d.node 2).children := by decide
  exact ⟨h, by decide, by decide, (hlinks 2 2).2 hchild, (hlinks 2 2).1.mpr hchild, hfragment⟩

/-- A node put beside itself would stand in the fragment twice. -/
example : ((Host.create (.text "a") ({} : Document)).2.insertAfter 0 0).fragment = [0, 0] := by
  decide

end Document

end TreeCode
