import TreeCode.Proofs.Document.Parents

/-!
# Nodes beside others

A node that is nowhere and is put beside one without a parent goes to the fragment, and nothing else
changes (`insertAfter_of_roots`). So such insertions can wait: `Awaiting` says that a document has
had some, and that another has not had them yet and is otherwise the same. This stays so as long as
no node is put under another after one was put beside it, and when the second has had the insertions
too, both are the same (`Awaiting.foldl_insertAfter`).
-/

namespace TreeCode.Document

variable {d d' a b : Document} {c p s : NodeId} {ids live : List NodeId}
  {pairs : List (NodeId × NodeId)} {e : Edit NodeId}

/-! ## The fragment and the nodes

What a change does to the nodes does not depend on the fragment. -/

theorem nodes_modify_congr (h : d.nodes = d'.nodes) (id : NodeId) (f : Node → Node) :
    (d.modify id f).nodes = (d'.modify id f).nodes := congrArg (·.modify id f) h

theorem nodes_detach_congr (h : d.nodes = d'.nodes) (c : NodeId) :
    (d.detach c).nodes = (d'.detach c).nodes := by
  unfold detach
  rw [node_congr h]
  cases (d'.node c).parent with
  | none => exact h
  | some p =>
    change ((d.setParent c none).modifyChildren p _).nodes =
      ((d'.setParent c none).modifyChildren p _).nodes
    exact nodes_modify_congr (nodes_modify_congr h _ _) _ _

theorem nodes_appendChild_congr (h : d.nodes = d'.nodes) (p c : NodeId) :
    (d.appendChild p c).nodes = (d'.appendChild p c).nodes :=
  nodes_modify_congr (nodes_modify_congr (nodes_detach_congr h c) _ _) _ _

theorem nodes_orphan_congr (h : d.nodes = d'.nodes) (ids : List NodeId) :
    (d.orphan ids).nodes = (d'.orphan ids).nodes := by
  induction ids generalizing d d' with
  | nil => exact h
  | cons id rest ih => exact ih (nodes_modify_congr h _ _)

theorem nodes_setText_congr (h : d.nodes = d'.nodes) (id : NodeId) (text : String) :
    (d.setText id text).nodes = (d'.setText id text).nodes := by
  unfold setText
  rw [node_congr h]
  cases (d'.node id).content with
  | text content => exact nodes_modify_congr h _ _
  | element tag attributes style =>
    have hcleared := nodes_orphan_congr (nodes_modify_congr h id fun n => { n with children := [] })
      (d'.node id).children
    have hcreated := congrArg (·.push { content := .text text }) hcleared
    exact (nodes_appendChild_congr hcreated id _).trans
      (congrArg (fun child => (Document.appendChild _ id child).nodes) (size_congr hcleared))

theorem nodes_edit_congr (h : d.nodes = d'.nodes) (he : ∀ s c, e ≠ .insertAfter s c) :
    (edit e d).nodes = (edit e d').nodes := by
  cases e with
  | setAttribute | removeAttribute | setStyle | listen => exact nodes_modify_congr h _ _
  | appendChild p c => exact nodes_appendChild_congr h p c
  | insertAfter s c => exact absurd rfl (he s c)
  | removeChild p c =>
    simp only [edit, removeChild, node_congr h]
    split
    · exact nodes_detach_congr h c
    · exact h
  | replaceChild p old new =>
    simp only [edit, replaceChild, node_congr h]
    split
    · exact h
    · have hdetached := nodes_detach_congr h new
      exact nodes_modify_congr (nodes_modify_congr (nodes_modify_congr hdetached _ _) _ _) _ _
  | setText id text => exact nodes_setText_congr h id text

/-! ## Insertions in the fragment -/

/-- The fragment when a node that is nowhere has been put beside one without a parent. -/
def beside (fragment : List NodeId) (pair : NodeId × NodeId) : List NodeId :=
  putAfter pair.1 pair.2 (if pair.1 ∈ fragment then fragment else fragment ++ [pair.1])

theorem mem_beside {fragment : List NodeId} {pair : NodeId × NodeId} {id : NodeId} :
    id ∈ beside fragment pair ↔ id ∈ fragment ∨ id = pair.1 ∨ id = pair.2 := by
  rw [beside, (putAfter_perm ..).mem_iff, List.mem_cons]
  split
  · rename_i hmem
    constructor
    · rintro (h | h)
      · exact .inr (.inr h)
      · exact .inl h
    · rintro (h | rfl | h)
      · exact .inr h
      · exact .inr hmem
      · exact .inl h
  · rw [List.mem_append, List.mem_singleton]
    tauto

theorem mem_foldl_beside {fragment : List NodeId} {id : NodeId}
    (h : id ∈ pairs.foldl beside fragment) :
    id ∈ fragment ∨ ∃ pair ∈ pairs, id = pair.1 ∨ id = pair.2 := by
  induction pairs generalizing fragment with
  | nil => exact .inl h
  | cons pair rest ih =>
    rcases ih h with h | ⟨pair', hmem, h⟩
    · exact (mem_beside.mp h).imp_right fun h => ⟨pair, List.mem_cons_self, h⟩
    · exact .inr ⟨pair', List.mem_cons_of_mem pair hmem, h⟩

theorem insertAfter_of_roots (hs : (d.node s).parent = none) (hc : (d.node c).parent = none)
    (hout : c ∉ d.fragment) :
    d.insertAfter s c = { d with fragment := beside d.fragment (s, c) } := by
  unfold insertAfter
  rw [detach_of_root hc hout]
  simp only [hs]
  rfl

/-- A node that is put beside one without a parent leaves its old place in the fragment. -/
theorem fragment_insertAfter_of_root (hs : (d.node s).parent = none) (hne : s ≠ c) :
    (d.insertAfter s c).fragment = beside (d.fragment.filter (· ≠ c)) (s, c) := by
  have hs' : ((d.detach c).node s).parent = none := by rw [parent_detach, if_neg hne, hs]
  rw [← fragment_detach, insertAfter]
  simp only [hs']
  rfl

/-- Nodes that are nowhere, and differ from each other and from those without a parent beside which
they are put. -/
theorem foldl_insertAfter_of_roots
    (hroots : ∀ pair ∈ pairs, (d.node pair.1).parent = none ∧ (d.node pair.2).parent = none)
    (hout : ∀ pair ∈ pairs, pair.2 ∉ d.fragment) (hnodup : (pairs.map (·.2)).Nodup)
    (hapart : ∀ pair ∈ pairs, pair.1 ∉ pairs.map (·.2)) :
    pairs.foldl (fun d pair => edit (.insertAfter pair.1 pair.2) d) d =
      { d with fragment := pairs.foldl beside d.fragment } := by
  induction pairs generalizing d with
  | nil => rfl
  | cons pair rest ih =>
    obtain ⟨hpair, hrest⟩ := List.forall_mem_cons.mp hroots
    obtain ⟨hnew, hout⟩ := List.forall_mem_cons.mp hout
    obtain ⟨hnotmem, hnodup⟩ := List.nodup_cons.mp hnodup
    have heq : edit (.insertAfter pair.1 pair.2) d =
        { d with fragment := beside d.fragment pair } :=
      insertAfter_of_roots hpair.1 hpair.2 hnew
    rw [List.foldl_cons, heq]
    refine ih (d := { d with fragment := beside d.fragment pair }) hrest (fun next hnext hmem => ?_)
      hnodup fun next hnext hmem => ?_
    -- The insertion has put two nodes in the fragment, and neither is to be inserted later.
    · have hchild : next.2 ∈ rest.map (·.2) := List.mem_map_of_mem hnext
      rcases mem_beside.mp hmem with hmem | hs | hc
      · exact hout next hnext hmem
      · exact hapart pair List.mem_cons_self (hs ▸ List.mem_cons_of_mem _ hchild)
      · rw [hc] at hchild
        exact hnotmem hchild
    · exact hapart next (List.mem_cons_of_mem pair hnext) (List.mem_cons_of_mem _ hmem)

/-! ## Loose nodes -/

/-- The nodes are nowhere: they have no parent and are not in the fragment. -/
structure Loose (d : Document) (ids : List NodeId) : Prop where
  ownsFragment : d.OwnsFragment
  nodup : ids.Nodup
  roots : d.Roots ids
  outside : ∀ id ∈ ids, id ∉ d.fragment

namespace Loose

theorem perm {ids' : List NodeId} (h : d.Loose ids) (hperm : ids'.Perm ids) : d.Loose ids' where
  ownsFragment := h.ownsFragment
  nodup := hperm.nodup_iff.mpr h.nodup
  roots id hid := h.roots id (hperm.mem_iff.mp hid)
  outside id hid := h.outside id (hperm.mem_iff.mp hid)

theorem create (h : d.Loose ids) (content : Content) :
    (d.create content).2.Loose (d.size :: ids) where
  ownsFragment := ownsFragment_create h.ownsFragment
  nodup := h.nodup.cons fun hmem => Nat.lt_irrefl _ (h.roots _ hmem).1
  roots := by
    intro id hid
    rw [size_create, (links_create d content id).1]
    rcases List.mem_cons.mp hid with rfl | hid
    · exact ⟨Nat.lt_succ_self _, by rw [node_of_size_le (Nat.le_refl _)]⟩
    · exact (h.roots id hid).imp_left Nat.lt_succ_of_lt
  outside := by
    intro id hid
    rcases List.mem_cons.mp hid with rfl | hid
    · exact fun hmem => Nat.lt_irrefl _ (h.ownsFragment _ hmem)
    · exact h.outside id hid

theorem edit (h : d.Loose ids) (he : e.joined? = none) (hnodes : ∀ id ∈ e.nodes, id ∈ ids) :
    (edit e d).Loose ids where
  ownsFragment := ownsFragment_edit h.ownsFragment fun id hid => (h.roots id (hnodes id hid)).1
  nodup := h.nodup
  roots := by
    have hroots : d.Roots e.nodes := h.roots.mono hnodes
    intro id hid
    obtain ⟨hlt, hnone⟩ := h.roots id hid
    refine ⟨Nat.lt_of_lt_of_le hlt (size_le_edit d he hroots), ?_⟩
    by_contra hsome
    obtain ⟨p, hp⟩ := Option.ne_none_iff_exists'.mp hsome
    rcases parent_edit_of_roots he hroots hp with hp | ⟨rfl, -⟩
    · rw [hnone] at hp
      cases hp
    · exact Nat.lt_irrefl _ hlt
  outside := by
    rw [fragment_edit_of_roots h.ownsFragment he (h.roots.mono hnodes)]
    exact h.outside

theorem appendChild (h : d.Loose (c :: ids)) (p : NodeId) : (d.appendChild p c).Loose ids where
  ownsFragment := ownsFragment_appendChild h.ownsFragment
  nodup := h.nodup.of_cons
  roots := by
    obtain ⟨⟨hc, -⟩, hrest⟩ := List.forall_mem_cons.mp h.roots
    intro id hid
    have hne : id ≠ c := fun he => (List.nodup_cons.mp h.nodup).1 (he ▸ hid)
    rw [size_appendChild, parent_appendChild hc, if_neg hne]
    exact hrest id hid
  outside := by
    rw [fragment_appendChild_of_not_mem (h.outside c List.mem_cons_self)]
    exact fun id hid => h.outside id (List.mem_cons_of_mem c hid)

end Loose

/-! ## Insertions that wait -/

/-- The first document is the second after the insertions. Until then the live nodes and those to be
inserted are loose in the second, and each goes beside a live one. -/
structure Awaiting (live : List NodeId) (pairs : List (NodeId × NodeId)) (a b : Document) :
    Prop where
  nodes : a.nodes = b.nodes
  fragment : a.fragment = pairs.foldl beside b.fragment
  loose : b.Loose (live ++ pairs.map (·.2))
  siblings : ∀ pair ∈ pairs, pair.1 ∈ live

namespace Awaiting

theorem mem_loose_of_sibling {pair : NodeId × NodeId} (h : Awaiting live pairs a b)
    (hpair : pair ∈ pairs) {id : NodeId} (hid : id = pair.1 ∨ id = pair.2) :
    id ∈ live ++ pairs.map (·.2) := by
  rcases hid with rfl | rfl
  · exact List.mem_append_left _ (h.siblings pair hpair)
  · exact List.mem_append_right _ (List.mem_map_of_mem hpair)

theorem ownsFragment (h : Awaiting live pairs a b) : a.OwnsFragment := by
  intro id hid
  rw [size_congr h.nodes]
  rw [h.fragment] at hid
  rcases mem_foldl_beside hid with hid | ⟨pair, hpair, hid⟩
  · exact h.loose.ownsFragment id hid
  · exact (h.loose.roots id (h.mem_loose_of_sibling hpair hid)).1

theorem roots (h : Awaiting live pairs a b) {ids : List NodeId} (hids : ids ⊆ live) :
    a.Roots ids := by
  intro id hid
  rw [size_congr h.nodes, node_congr h.nodes]
  exact h.loose.roots id (List.mem_append_left _ (hids hid))

theorem outside (h : Awaiting live pairs a b) (hc : c ∈ live) (hstay : ∀ pair ∈ pairs, pair.1 ≠ c) :
    c ∉ a.fragment := by
  intro hmem
  rw [h.fragment] at hmem
  rcases mem_foldl_beside hmem with hmem | ⟨pair, hpair, hc' | hc'⟩
  · exact h.loose.outside c (List.mem_append_left _ hc) hmem
  · exact hstay pair hpair hc'.symm
  · exact (List.nodup_append.mp h.loose.nodup).2.2 c hc _ (List.mem_map_of_mem hpair) hc'

theorem create (h : Awaiting live pairs a b) (content : Content) :
    Awaiting (b.size :: live) pairs (a.create content).2 (b.create content).2 where
  nodes := congrArg (·.push { content }) h.nodes
  fragment := h.fragment
  loose := h.loose.create content
  siblings pair hpair := List.mem_cons_of_mem _ (h.siblings pair hpair)

theorem edit (h : Awaiting live pairs a b) (he : e.joined? = none)
    (hnodes : ∀ id ∈ e.nodes, id ∈ live) :
    Awaiting live pairs (Document.edit e a) (Document.edit e b) where
  nodes := nodes_edit_congr h.nodes fun s c hi => by rw [hi] at he; cases he
  fragment := by
    have hroots : b.Roots e.nodes :=
      h.loose.roots.mono fun id hid => List.mem_append_left _ (hnodes id hid)
    rw [fragment_edit_of_roots h.ownsFragment he (h.roots hnodes),
      fragment_edit_of_roots h.loose.ownsFragment he hroots]
    exact h.fragment
  loose := h.loose.edit he fun id hid => List.mem_append_left _ (hnodes id hid)
  siblings := h.siblings

theorem appendChild (h : Awaiting (c :: live) pairs a b) (hstay : ∀ pair ∈ pairs, pair.1 ≠ c)
    (p : NodeId) : Awaiting live pairs (a.appendChild p c) (b.appendChild p c) where
  nodes := nodes_appendChild_congr h.nodes p c
  fragment := by
    rw [fragment_appendChild_of_not_mem (h.outside List.mem_cons_self hstay),
      fragment_appendChild_of_not_mem (h.loose.outside c List.mem_cons_self)]
    exact h.fragment
  loose := h.loose.appendChild p
  siblings pair hpair := (List.mem_cons.mp (h.siblings pair hpair)).resolve_left (hstay pair hpair)

theorem insertAfter (h : Awaiting (c :: live) pairs a b) (hstay : ∀ pair ∈ pairs, pair.1 ≠ c)
    (hs : s ∈ live) : Awaiting live (pairs ++ [(s, c)]) (a.insertAfter s c) b := by
  have hroots : a.Roots (c :: live) := h.roots fun _ hid => hid
  have heq : a.insertAfter s c = { a with fragment := beside a.fragment (s, c) } :=
    insertAfter_of_roots (hroots s (List.mem_cons_of_mem c hs)).2
      (hroots c List.mem_cons_self).2 (h.outside List.mem_cons_self hstay)
  rw [heq]
  refine ⟨h.nodes, ?_, h.loose.perm ?_, ?_⟩
  · rw [List.foldl_append, ← h.fragment]
    rfl
  · rw [List.map_append, ← List.append_assoc]
    exact List.perm_append_singleton c _
  · rw [List.forall_mem_append]
    refine ⟨fun pair hpair => ?_, by simpa using hs⟩
    exact (List.mem_cons.mp (h.siblings pair hpair)).resolve_left (hstay pair hpair)

theorem foldl_insertAfter (h : Awaiting live pairs a b) :
    pairs.foldl (fun d pair => Document.edit (.insertAfter pair.1 pair.2) d) b =
      { b with fragment := a.fragment } := by
  obtain ⟨-, hchildren, hdisjoint⟩ := List.nodup_append.mp h.loose.nodup
  rw [h.fragment]
  refine foldl_insertAfter_of_roots (fun pair hpair => ⟨?_, ?_⟩) (fun pair hpair => ?_) hchildren
    fun pair hpair hmem => hdisjoint _ (h.siblings pair hpair) _ hmem rfl
  · exact (h.loose.roots _ (h.mem_loose_of_sibling hpair (.inl rfl))).2
  · exact (h.loose.roots _ (h.mem_loose_of_sibling hpair (.inr rfl))).2
  · exact h.loose.outside _ (h.mem_loose_of_sibling hpair (.inr rfl))

end Awaiting

end TreeCode.Document
