import TreeCode.Proofs.Document.Contents
import TreeCode.Proofs.Document.Parents

/-!
# What a change keeps

`Keeps d d' moved altered` says that from one document to the next only the nodes `moved` have come
to other places, and only the nodes `altered` hold something else: all other nodes have the parent
that they had, stand in the order in which they stood in every list of children and in the fragment,
and hold what they held. Listeners are all as before. One lemma for each part of a change says what
it keeps, and the changes are sequences of these parts.
-/

namespace TreeCode.Document

variable {d d' d'' : Document} {moved moved' altered altered' ids : List NodeId}
  {c p s old new : NodeId}

/-- Only nodes that were moved stand elsewhere, and only nodes that were altered hold something
else. -/
structure Keeps (d d' : Document) (moved altered : List NodeId) : Prop where
  parent : ∀ i ∉ moved, (d'.node i).parent = (d.node i).parent
  children : ∀ i, (d'.node i).children.filter (· ∉ moved) = (d.node i).children.filter (· ∉ moved)
  fragment : d'.fragment.filter (· ∉ moved) = d.fragment.filter (· ∉ moved)
  content : ∀ i ∉ altered, (d'.node i).content = (d.node i).content
  listeners : ∀ i, (d'.node i).listeners = (d.node i).listeners

theorem filter_of_subset (h : moved ⊆ moved') {ids' : List NodeId}
    (hids : ids.filter (· ∉ moved) = ids'.filter (· ∉ moved)) :
    ids.filter (· ∉ moved') = ids'.filter (· ∉ moved') := by
  have hsplit (ids : List NodeId) :
      ids.filter (· ∉ moved') = (ids.filter (· ∉ moved)).filter (· ∉ moved') := by
    rw [List.filter_filter]
    apply List.filter_congr
    intro i _
    by_cases hi : i ∈ moved
    · simp [hi, h hi]
    · simp [hi]
  rw [hsplit, hids, ← hsplit]

namespace Keeps

protected theorem refl (d : Document) (moved altered : List NodeId) : d.Keeps d moved altered :=
  ⟨fun _ _ => rfl, fun _ => rfl, rfl, fun _ _ => rfl, fun _ => rfl⟩

theorem trans (h : d.Keeps d' moved altered) (h' : d'.Keeps d'' moved altered) :
    d.Keeps d'' moved altered where
  parent i hi := (h'.parent i hi).trans (h.parent i hi)
  children i := (h'.children i).trans (h.children i)
  fragment := h'.fragment.trans h.fragment
  content i hi := (h'.content i hi).trans (h.content i hi)
  listeners i := (h'.listeners i).trans (h.listeners i)

theorem mono (h : d.Keeps d' moved altered) (hmoved : moved ⊆ moved')
    (haltered : altered ⊆ altered') : d.Keeps d' moved' altered' where
  parent i hi := h.parent i fun hmem => hi (hmoved hmem)
  children i := filter_of_subset hmoved (h.children i)
  fragment := filter_of_subset hmoved h.fragment
  content i hi := h.content i fun hmem => hi (haltered hmem)
  listeners := h.listeners

end Keeps

/-! ## Parts of a change -/

theorem listeners_setParent (d : Document) (c : NodeId) (parent : Option NodeId) (i : NodeId) :
    ((d.setParent c parent).node i).listeners = (d.node i).listeners :=
  map_node_modify Node.listeners d c (fun n => { n with parent }) (fun _ => rfl) i

theorem listeners_modifyChildren (d : Document) (p : NodeId) (f : List NodeId → List NodeId)
    (i : NodeId) : ((d.modifyChildren p f).node i).listeners = (d.node i).listeners :=
  map_node_modify Node.listeners d p (fun n => { n with children := f n.children }) (fun _ => rfl) i

theorem listeners_detach (d : Document) (c i : NodeId) :
    ((d.detach c).node i).listeners = (d.node i).listeners := by
  unfold detach
  cases (d.node c).parent with
  | none => rfl
  | some p => exact (listeners_modifyChildren _ p _ i).trans (listeners_setParent d c none i)

theorem keeps_modifyContent (d : Document) (id : NodeId) (f : Content → Content) :
    d.Keeps (d.modifyContent id f) [] [id] := by
  let g (n : Node) : Node := { n with content := f n.content }
  exact ⟨fun i _ => map_node_modify Node.parent d id g (fun _ => rfl) i,
    fun i => congrArg _ (map_node_modify Node.children d id g (fun _ => rfl) i), rfl,
    fun i hi => congrArg Node.content (node_modify_of_ne (by simpa using hi) g),
    map_node_modify Node.listeners d id g fun _ => rfl⟩

theorem keeps_setParent (d : Document) (c : NodeId) (parent : Option NodeId) :
    d.Keeps (d.setParent c parent) [c] [] where
  parent i hi := congrArg Node.parent (node_modify_of_ne (by simpa using hi) _)
  children i := congrArg _ (children_setParent d c parent i)
  fragment := rfl
  content i _ := (alike_setParent d c parent).content i
  listeners := listeners_setParent d c parent

/-- The children of one node are arranged otherwise, but for those that are not moved. -/
theorem keeps_modifyChildren (d : Document) (p : NodeId) {f : List NodeId → List NodeId}
    (hf : (f (d.node p).children).filter (· ∉ moved) =
      (d.node p).children.filter (· ∉ moved)) :
    d.Keeps (d.modifyChildren p f) moved [] where
  parent i _ := parent_modifyChildren d p f i
  children i := by
    rcases Nat.lt_or_ge p d.size with hp | hp
    · rw [children_modifyChildren hp]
      split
      · rename_i hi
        rw [hi, hf]
      · rfl
    · rw [modifyChildren, node_modify_of_size_le hp]
  fragment := rfl
  content i _ := (alike_modifyChildren d p f).content i
  listeners := listeners_modifyChildren d p f

theorem keeps_orphan (d : Document) (ids : List NodeId) : d.Keeps (d.orphan ids) ids [] := by
  induction ids generalizing d with
  | nil => exact .refl d [] []
  | cons id rest ih =>
    have hfirst : d.Keeps (d.setParent id none) (id :: rest) [] :=
      (keeps_setParent d id none).mono (by simp) (.refl _)
    exact hfirst.trans ((ih (d.setParent id none)).mono (List.subset_cons_self id rest) (.refl _))

theorem keeps_create (d : Document) (content : Content) :
    d.Keeps (d.create content).2 [] [d.size] where
  parent i _ := (links_create d content i).1
  children i := congrArg _ (links_create d content i).2
  fragment := rfl
  content i hi := by rw [node_create, if_neg (by simpa using hi)]
  listeners i := by
    rw [node_create]
    split
    · rename_i hi
      rw [hi, node_of_size_le (Nat.le_refl _)]
    · rfl

theorem Linked.keeps_detach (h : d.Linked) (c : NodeId) : d.Keeps (d.detach c) [c] [] where
  parent i hi := by rw [parent_detach, if_neg (by simpa using hi)]
  children i := by simp [h.children_detach]
  fragment := by simp [fragment_detach]
  content i _ := (alike_detach d c).content i
  listeners := listeners_detach d c

/-! ## Lists -/

theorem filter_putAfter (s c : NodeId) (ids : List NodeId) :
    (putAfter s c ids).filter (· ∉ [c]) = ids.filter (· ∉ [c]) := by
  induction ids with
  | nil => simp [putAfter]
  | cons id rest ih =>
    unfold putAfter
    split
    · simp [List.filter_cons]
    · rw [List.filter_cons, List.filter_cons, ih]

theorem filter_putInstead (old new : NodeId) (ids : List NodeId) :
    (putInstead old new ids).filter (· ∉ [old, new]) = ids.filter (· ∉ [old, new]) := by
  induction ids with
  | nil => rfl
  | cons id rest ih =>
    unfold putInstead
    split
    · rename_i hid
      simp [hid]
    · rw [List.filter_cons, List.filter_cons, ih]

theorem exists_putAfter_eq (h : s ∈ ids) (c : NodeId) :
    ∃ front back, ids = front ++ s :: back ∧ putAfter s c ids = front ++ s :: c :: back := by
  induction ids with
  | nil => cases h
  | cons id rest ih =>
    unfold putAfter
    by_cases hid : id = s
    · exact ⟨[], rest, by rw [hid]; rfl, by rw [if_pos hid, hid]; rfl⟩
    · obtain ⟨front, back, hrest, hput⟩ := ih ((List.mem_cons.mp h).resolve_left (Ne.symm hid))
      exact ⟨id :: front, back, by rw [hrest]; rfl, by rw [if_neg hid, hput]; rfl⟩

theorem exists_putInstead_eq (h : old ∈ ids) (new : NodeId) :
    ∃ front back, ids = front ++ old :: back ∧ putInstead old new ids = front ++ new :: back := by
  induction ids with
  | nil => cases h
  | cons id rest ih =>
    unfold putInstead
    by_cases hid : id = old
    · exact ⟨[], rest, by rw [hid]; rfl, by rw [if_pos hid]; rfl⟩
    · obtain ⟨front, back, hrest, hput⟩ := ih ((List.mem_cons.mp h).resolve_left (Ne.symm hid))
      exact ⟨id :: front, back, by rw [hrest]; rfl, by rw [if_neg hid, hput]; rfl⟩

/-! ## Changes -/

theorem Linked.keeps_appendChild (h : d.Linked) (p c : NodeId) :
    d.Keeps (d.appendChild p c) [c] [] := by
  have hmoved : d.Keeps ((d.detach c).setParent c (some p)) [c] [] :=
    (h.keeps_detach c).trans (keeps_setParent _ c (some p))
  exact hmoved.trans (keeps_modifyChildren _ p (by simp))

theorem insertAfter_of_parent (hp : (d.node s).parent = some p) (hne : s ≠ c) :
    d.insertAfter s c =
      ((d.detach c).modifyChildren p (putAfter s c)).setParent c (some p) := by
  have hs : ((d.detach c).node s).parent = some p := by rw [parent_detach, if_neg hne, hp]
  unfold insertAfter
  simp only [hs]

theorem Linked.keeps_insertAfter_of_parent (h : d.Linked) (hp : (d.node s).parent = some p)
    (hne : s ≠ c) : d.Keeps (d.insertAfter s c) [c] [] := by
  rw [insertAfter_of_parent hp hne]
  have hput := keeps_modifyChildren (d.detach c) p
    (filter_putAfter s c ((d.detach c).node p).children)
  exact ((h.keeps_detach c).trans hput).trans (keeps_setParent _ c (some p))

/-- The document with a node in the fragment, the last one if it was not there. -/
def including (d : Document) (s : NodeId) : Document :=
  { d with fragment := if s ∈ d.fragment then d.fragment else d.fragment ++ [s] }

theorem mem_fragment_including (d : Document) (s : NodeId) : s ∈ (d.including s).fragment := by
  unfold including
  by_cases hs : s ∈ d.fragment <;> simp [hs]

theorem insertAfter_of_root (hs : (d.node s).parent = none) (hne : s ≠ c) :
    d.insertAfter s c =
      { d.detach c with fragment := putAfter s c ((d.including s).fragment.filter (· ≠ c)) } := by
  have hs' : ((d.detach c).node s).parent = none := by rw [parent_detach, if_neg hne, hs]
  have hbase : (if s ∈ (d.detach c).fragment then (d.detach c).fragment
      else (d.detach c).fragment ++ [s]) = (d.including s).fragment.filter (· ≠ c) := by
    rw [fragment_detach, including]
    by_cases hmem : s ∈ d.fragment <;> simp [hmem, hne]
  unfold insertAfter
  simp only [hs', hbase]

theorem Linked.keeps_insertAfter_of_root (h : d.Linked) (hs : (d.node s).parent = none)
    (hne : s ≠ c) : (d.including s).Keeps (d.insertAfter s c) [c] [] := by
  have hdetach := h.keeps_detach c
  rw [insertAfter_of_root hs hne]
  refine ⟨hdetach.parent, hdetach.children, ?_, hdetach.content, hdetach.listeners⟩
  exact (filter_putAfter s c _).trans (by simp)

theorem replaceChild_of_child (hold : (d.node old).parent = some p) (hne : old ≠ new) :
    d.replaceChild p old new =
      (((d.detach new).modifyChildren p (putInstead old new)).setParent old none).setParent new
        (some p) := by
  rw [replaceChild, if_neg (by simp [hold, hne])]

theorem Linked.keeps_replaceChild (h : d.Linked) (hold : (d.node old).parent = some p)
    (hne : old ≠ new) : d.Keeps (d.replaceChild p old new) [old, new] [] := by
  rw [replaceChild_of_child hold hne]
  have hdetach : d.Keeps (d.detach new) [old, new] [] :=
    (h.keeps_detach new).mono (by simp) (.refl _)
  have hput := keeps_modifyChildren (d.detach new) p
    (filter_putInstead old new ((d.detach new).node p).children)
  have hparent (d : Document) {id : NodeId} (parent : Option NodeId) (hid : id ∈ [old, new]) :
      d.Keeps (d.setParent id parent) [old, new] [] :=
    (keeps_setParent d id parent).mono (by simpa using hid) (.refl _)
  exact ((hdetach.trans hput).trans (hparent _ none (by simp))).trans
    (hparent _ (some p) (by simp))

theorem keeps_emptied (d : Document) (id : NodeId) :
    d.Keeps (d.emptied id) (d.node id).children [] :=
  (keeps_modifyChildren d id (by simp)).trans (keeps_orphan _ _)

theorem Linked.keeps_setText_of_element (h : d.Linked) {id : NodeId} (hid : id < d.size)
    {tag : String} {attributes style : Pairs}
    (hcontent : (d.node id).content = .element tag attributes style) (text : String) :
    d.Keeps (d.setText id text) ((d.node id).children ++ [d.size]) [d.size] := by
  rw [setText_of_element hcontent]
  have hcreated : ((d.emptied id).create (.text text)).2.Linked := (h.emptied hid).create _
  have hemptied : d.Keeps (d.emptied id) ((d.node id).children ++ [d.size]) [d.size] :=
    (keeps_emptied d id).mono (List.subset_append_left _ _) (List.nil_subset _)
  have hcreate := keeps_create (d.emptied id) (.text text)
  rw [size_emptied] at hcreate
  exact (hemptied.trans (hcreate.mono (List.nil_subset _) (.refl _))).trans
    ((hcreated.keeps_appendChild id d.size).mono (List.subset_append_right _ _)
      (List.nil_subset _))

end TreeCode.Document
