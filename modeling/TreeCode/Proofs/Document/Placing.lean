import TreeCode.Proofs.Document.Keeping

/-!
# Where nodes are put

Each change to where nodes stand is made in one place: a child comes last or after a sibling, goes,
or gives its place to another, and what an element shows is replaced by a text
(`changes_in_one_place`). Positions are told among the nodes that stay: the child is first left out
of the list, be it that it stood there already.
-/

namespace TreeCode.Document

variable {d : Document} {c p s old new id : NodeId} {text : String}

/-! ## Under a parent, or nowhere -/

/-- The node stands under a parent, and nowhere else. -/
structure Under (d : Document) (c p : NodeId) : Prop where
  parent : (d.node c).parent = some p
  eq_of_mem_children : ∀ i, c ∈ (d.node i).children → i = p
  not_mem_fragment : c ∉ d.fragment

/-- The node stands under no other. -/
structure Root (d : Document) (c : NodeId) : Prop where
  parent : (d.node c).parent = none
  not_mem_children : ∀ i, c ∉ (d.node i).children

theorem Linked.under (h : d.Linked) (hp : (d.node c).parent = some p) : d.Under c p where
  parent := hp
  eq_of_mem_children i hi := by
    have hparent := (h.parent_eq_some_iff c i).mpr hi
    rw [hp] at hparent
    exact (Option.some.inj hparent).symm
  not_mem_fragment hmem := by
    rw [h.parent_of_mem_fragment c hmem] at hp
    cases hp

theorem Linked.root (h : d.Linked) (hc : (d.node c).parent = none) : d.Root c where
  parent := hc
  not_mem_children i hi := by
    rw [(h.parent_eq_some_iff c i).mpr hi] at hc
    cases hc

/-! ## Putting a node in -/

theorem Linked.children_appendChild (h : d.Linked) (hp : p < d.size) (c : NodeId) :
    ((d.appendChild p c).node p).children = (d.node p).children.filter (· ≠ c) ++ [c] := by
  have hp' : p < ((d.detach c).setParent c (some p)).size := by
    rwa [setParent, size_modify, size_detach]
  rw [Document.appendChild, children_modifyChildren hp', if_pos rfl, children_setParent,
    h.children_detach]

theorem Linked.placed_appendChild (h : d.Linked) (hp : p < d.size) (hc : c < d.size) :
    ((d.appendChild p c).node p).children = (d.node p).children.filter (· ≠ c) ++ [c] ∧
      (d.appendChild p c).Under c p ∧ d.Keeps (d.appendChild p c) [c] [] := by
  refine ⟨h.children_appendChild hp c, ?_, h.keeps_appendChild p c⟩
  apply (h.appendChild hp hc).under
  rw [parent_appendChild hc, if_pos rfl]

theorem Linked.placed_insertAfter_of_parent (h : d.Linked) (hc : c < d.size) (hne : s ≠ c)
    (hp : (d.node s).parent = some p) :
    (∃ front back, (d.node p).children.filter (· ≠ c) = front ++ s :: back ∧
      ((d.insertAfter s c).node p).children = front ++ s :: c :: back) ∧
    (d.insertAfter s c).Under c p ∧ d.Keeps (d.insertAfter s c) [c] [] := by
  have hs : s ∈ (d.node p).children := (h.parent_eq_some_iff s p).mp hp
  -- The sibling is found in what is left of the list when the child has gone from it.
  have hstays : s ∈ (d.node p).children.filter (· ≠ c) := by simpa [hs] using hne
  have hp' : p < (d.detach c).size := by
    rw [size_detach]
    exact lt_size_of_mem_children hs
  have hchildren : ((d.insertAfter s c).node p).children =
      putAfter s c ((d.node p).children.filter (· ≠ c)) := by
    rw [insertAfter_of_parent hp hne, children_setParent, children_modifyChildren hp', if_pos rfl,
      h.children_detach]
  refine ⟨?_, ?_, h.keeps_insertAfter_of_parent hp hne⟩
  · rw [hchildren]
    exact exists_putAfter_eq hstays c
  · apply (h.insertAfter hc hne).under
    rw [parent_insertAfter hc hne, if_pos rfl, hp]

theorem Linked.placed_insertAfter_of_root (h : d.Linked) (hc : c < d.size) (hne : s ≠ c)
    (hs : (d.node s).parent = none) :
    (∃ front back, (d.including s).fragment.filter (· ≠ c) = front ++ s :: back ∧
      (d.insertAfter s c).fragment = front ++ s :: c :: back) ∧
    (d.insertAfter s c).Root c ∧ (d.including s).Keeps (d.insertAfter s c) [c] [] := by
  have hstays : s ∈ (d.including s).fragment.filter (· ≠ c) := by
    simpa [mem_fragment_including] using hne
  refine ⟨?_, ?_, h.keeps_insertAfter_of_root hs hne⟩
  · rw [insertAfter_of_root hs hne]
    exact exists_putAfter_eq hstays c
  · apply (h.insertAfter hc hne).root
    rw [parent_insertAfter hc hne, if_pos rfl, hs]

/-! ## Taking a node out -/

theorem Linked.gone_removeChild (h : d.Linked) (hp : (d.node c).parent = some p) :
    ((d.removeChild p c).node p).children = (d.node p).children.filter (· ≠ c) ∧
      (d.removeChild p c).Root c ∧ c ∉ (d.removeChild p c).fragment ∧
      d.Keeps (d.removeChild p c) [c] [] := by
  have hdetach : d.removeChild p c = d.detach c := by rw [Document.removeChild, if_pos hp]
  rw [hdetach]
  exact ⟨h.children_detach c p, (h.detach c).root (parent_detach_self d c),
    not_mem_fragment_detach d c, h.keeps_detach c⟩

theorem removeChild_of_not_child (h : (d.node c).parent ≠ some p) : d.removeChild p c = d := by
  rw [removeChild, if_neg h]

theorem parent_replaceChild (hold : (d.node old).parent = some p) (hne : old ≠ new)
    (hnew : new < d.size) (i : NodeId) :
    ((d.replaceChild p old new).node i).parent =
      if i = new then some p else if i = old then none else (d.node i).parent := by
  have hnew' : new <
      (((d.detach new).modifyChildren p (putInstead old new)).setParent old none).size := by
    rwa [setParent, size_modify, modifyChildren, size_modify, size_detach]
  rw [replaceChild_of_child hold hne, parent_setParent hnew', parent_setParent_none,
    parent_modifyChildren, parent_detach]
  by_cases hi : i = new <;> simp [hi]

theorem Linked.placed_replaceChild (h : d.Linked) (hnew : new < d.size)
    (hold : (d.node old).parent = some p) (hne : old ≠ new) :
    (∃ front back, (d.node p).children.filter (· ≠ new) = front ++ old :: back ∧
      ((d.replaceChild p old new).node p).children = front ++ new :: back) ∧
    (d.replaceChild p old new).Under new p ∧ (d.replaceChild p old new).Root old ∧
      old ∉ (d.replaceChild p old new).fragment ∧
      d.Keeps (d.replaceChild p old new) [old, new] [] := by
  have hmem : old ∈ (d.node p).children := (h.parent_eq_some_iff old p).mp hold
  have hstays : old ∈ (d.node p).children.filter (· ≠ new) := by simpa [hmem] using hne
  have hp' : p < (d.detach new).size := by
    rw [size_detach]
    exact lt_size_of_mem_children hmem
  have hchildren : ((d.replaceChild p old new).node p).children =
      putInstead old new ((d.node p).children.filter (· ≠ new)) := by
    rw [replaceChild_of_child hold hne, children_setParent, children_setParent,
      children_modifyChildren hp', if_pos rfl, h.children_detach]
  have hfragment : (d.replaceChild p old new).fragment = d.fragment.filter (· ≠ new) := by
    rw [replaceChild_of_child hold hne]
    exact fragment_detach d new
  have hlinked : (d.replaceChild p old new).Linked := h.replaceChild hnew
  refine ⟨?_, hlinked.under ?_, hlinked.root ?_, ?_, h.keeps_replaceChild hold hne⟩
  · rw [hchildren]
    exact exists_putInstead_eq hstays new
  · rw [parent_replaceChild hold hne hnew, if_pos rfl]
  · rw [parent_replaceChild hold hne hnew, if_neg hne, if_pos rfl]
  · rw [hfragment]
    exact fun hmem => (h.under hold).not_mem_fragment (List.mem_filter.mp hmem).1

theorem replaceChild_of_not_child (h : ¬ ((d.node old).parent = some p ∧ old ≠ new)) :
    d.replaceChild p old new = d := by
  rw [replaceChild, if_pos (by tauto)]

/-! ## Showing a text -/

theorem markupWithin_of_text (h : (d.node id).content = .text text) (depth : Nat) :
    d.markupWithin (depth + 1) id = some (.text text) := by
  rw [markupWithin, h]

theorem textContent?_of_text (hid : id < d.size) (h : (d.node id).content = .text text) :
    d.textContent? id = some text := by
  obtain ⟨depth, hdepth⟩ := Nat.exists_eq_add_one.mpr (Nat.zero_lt_of_lt hid)
  rw [textContent?, markup?, hdepth, markupWithin_of_text h]
  rfl

theorem textContent?_of_element {tag : String} {attributes style : Pairs} (hsize : 2 ≤ d.size)
    (h : (d.node id).content = .element tag attributes style)
    (hchildren : (d.node id).children = [c]) (hc : (d.node c).content = .text text) :
    d.textContent? id = some text := by
  obtain ⟨depth, hdepth⟩ : ∃ depth, d.size = depth + 1 + 1 := ⟨d.size - 2, by omega⟩
  rw [textContent?, markup?, hdepth, markupWithin, h, hchildren]
  simp [markupWithin_of_text hc, Markup.content, Markup.contentAll]

theorem shown_setText_of_text {content : String} (hid : id < d.size)
    (h : (d.node id).content = .text content) (text : String) :
    (d.setText id text).textContent? id = some text ∧
      ((d.setText id text).node id).content = .text text ∧
      d.Keeps (d.setText id text) [] [id] := by
  have heq : d.setText id text = d.modifyContent id fun _ => .text text := by rw [setText, h]
  have htext : ((d.modifyContent id fun _ => .text text).node id).content = .text text := by
    rw [modifyContent, node_modify_self hid]
  rw [heq]
  refine ⟨textContent?_of_text ?_ htext, htext, keeps_modifyContent d id _⟩
  rwa [modifyContent, size_modify]

theorem Linked.shown_setText_of_element (h : d.Linked) (howns : d.OwnsFragment) (hid : id < d.size)
    {tag : String} {attributes style : Pairs}
    (hcontent : (d.node id).content = .element tag attributes style) (text : String) :
    (d.setText id text).textContent? id = some text ∧
      (d.setText id text).size = d.size + 1 ∧
      ((d.setText id text).node id).children = [d.size] ∧
      ((d.setText id text).node d.size).content = .text text ∧
      (d.setText id text).Under d.size id ∧
      (∀ c ∈ (d.node id).children,
        (d.setText id text).Root c ∧ c ∉ (d.setText id text).fragment) ∧
      d.Keeps (d.setText id text) ((d.node id).children ++ [d.size]) [d.size] := by
  let cleared : Document := ((d.emptied id).create (.text text)).2
  have heq : d.setText id text = cleared.appendChild id d.size := setText_of_element hcontent text
  have hkeeps := h.keeps_setText_of_element hid hcontent text
  have hcleared : cleared.Linked := (h.emptied hid).create _
  have hid' : id < cleared.size := by
    rw [size_create, size_emptied]
    exact Nat.lt_succ_of_lt hid
  have hlinked : (d.setText id text).Linked := h.setText hid text
  have hparent := parent_setText_of_element hcontent text
  have hchildren : ((d.setText id text).node id).children = [d.size] := by
    have hnone : (cleared.node id).children = [] := by
      rw [(links_create (d.emptied id) _ id).2, children_emptied hid, if_pos rfl]
    rw [heq, hcleared.children_appendChild hid', hnone]
    rfl
  have htext : ((d.setText id text).node d.size).content = .text text := by
    rw [heq, (alike_appendChild cleared id d.size).content, node_create, size_emptied, if_pos rfl]
  have hsize := size_setText_of_element hcontent text
  refine ⟨?_, hsize, hchildren, htext, hlinked.under (by rw [hparent, if_pos rfl]),
    fun c hc => ?_, hkeeps⟩
  · have helement := hkeeps.content id (by simpa using Nat.ne_of_lt hid)
    have htwo : 2 ≤ (d.setText id text).size :=
      hsize ▸ Nat.succ_le_succ (Nat.zero_lt_of_lt hid)
    rw [hcontent] at helement
    exact textContent?_of_element htwo helement hchildren htext
  · have hc' : (d.node c).parent = some id := (h.parent_eq_some_iff c id).mpr hc
    have hold : c ≠ d.size := by
      rintro rfl
      rw [node_of_size_le (Nat.le_refl _)] at hc'
      cases hc'
    refine ⟨hlinked.root (by rw [hparent, if_neg hold, if_pos hc]), ?_⟩
    rw [fragment_setText howns]
    exact (h.under hc').not_mem_fragment

/-! ## All changes -/

/-- **Changes are made in one place.** In a document that calls can reach, with sound links, let a
call name nodes that are there.

- A child that is appended comes last, from wherever it was.
- A node that is put beside another comes right after it: under its parent, or, where that has none,
  in the fragment, at whose end the other is put first if it is not there.
- A child of the node named as its parent is taken away; any other node stays where it is.
- Such a child gives its place among the others to another node and is then nowhere; nothing is done
  if it is no child, or if it is to give place to itself.
- A text is all that a node then shows. An element gets it as a new child for all that it had, and
  these are then nowhere.

All other nodes keep their parents, their order in every list, and what they hold; all listeners
stay. -/
theorem changes_in_one_place (hreach : d.Reachable) (h : d.Linked) :
    (∀ p c, p < d.size → c < d.size →
      let d' := edit (.appendChild p c) d
      (d'.node p).children = (d.node p).children.filter (· ≠ c) ++ [c] ∧
        d'.Under c p ∧ d.Keeps d' [c] []) ∧
    (∀ s c, s < d.size → c < d.size → s ≠ c →
      let d' := edit (.insertAfter s c) d
      (∀ p, (d.node s).parent = some p →
        (∃ front back, (d.node p).children.filter (· ≠ c) = front ++ s :: back ∧
          (d'.node p).children = front ++ s :: c :: back) ∧
        d'.Under c p ∧ d.Keeps d' [c] []) ∧
      ((d.node s).parent = none →
        (∃ front back, (d.including s).fragment.filter (· ≠ c) = front ++ s :: back ∧
          d'.fragment = front ++ s :: c :: back) ∧
        d'.Root c ∧ (d.including s).Keeps d' [c] [])) ∧
    (∀ p c, p < d.size → c < d.size →
      let d' := edit (.removeChild p c) d
      ((d.node c).parent = some p →
        (d'.node p).children = (d.node p).children.filter (· ≠ c) ∧
        d'.Root c ∧ c ∉ d'.fragment ∧ d.Keeps d' [c] []) ∧
      ((d.node c).parent ≠ some p → d' = d)) ∧
    (∀ p old new, p < d.size → old < d.size → new < d.size →
      let d' := edit (.replaceChild p old new) d
      ((d.node old).parent = some p → old ≠ new →
        (∃ front back, (d.node p).children.filter (· ≠ new) = front ++ old :: back ∧
          (d'.node p).children = front ++ new :: back) ∧
        d'.Under new p ∧ d'.Root old ∧ old ∉ d'.fragment ∧ d.Keeps d' [old, new] []) ∧
      (¬ ((d.node old).parent = some p ∧ old ≠ new) → d' = d)) ∧
    ∀ id text, id < d.size →
      let d' := edit (.setText id text) d
      d'.textContent? id = some text ∧
      (∀ content, (d.node id).content = .text content →
        (d'.node id).content = .text text ∧ d.Keeps d' [] [id]) ∧
      ∀ tag attributes style, (d.node id).content = .element tag attributes style →
        d'.size = d.size + 1 ∧ (d'.node id).children = [d.size] ∧
        (d'.node d.size).content = .text text ∧ d'.Under d.size id ∧
        (∀ c ∈ (d.node id).children, d'.Root c ∧ c ∉ d'.fragment) ∧
        d.Keeps d' ((d.node id).children ++ [d.size]) [d.size] := by
  refine ⟨fun p c hp hc => h.placed_appendChild hp hc, fun s c _ hc hne => ⟨?_, ?_⟩,
    fun p c _ _ => ⟨h.gone_removeChild, removeChild_of_not_child⟩,
    fun p old new _ _ hnew => ⟨h.placed_replaceChild hnew, replaceChild_of_not_child⟩, ?_⟩
  · exact fun p hp => h.placed_insertAfter_of_parent hc hne hp
  · exact fun hs => h.placed_insertAfter_of_root hc hne hs
  · intro id text hid
    cases hcontent : (d.node id).content with
    | text content =>
      obtain ⟨htext, hplaced⟩ := shown_setText_of_text hid hcontent text
      exact ⟨htext, fun _ _ => hplaced, fun _ _ _ helement => by cases helement⟩
    | element tag attributes style =>
      obtain ⟨htext, hplaced⟩ := h.shown_setText_of_element hreach.ownsFragment hid hcontent text
      exact ⟨htext, fun _ hother => (by cases hother), fun _ _ _ _ => hplaced⟩

/-- A child gives its place to a later sibling, and the list then starts with that. -/
theorem changes_in_one_place_later_sibling :
    let created : Document := (Host.create (.text "c") (Host.create (.text "b")
      (Host.create (.text "a") (Host.create (.element "ul") ({} : Document)).2).2).2).2
    let d : Document := Host.edit (.appendChild 0 3) (Host.edit (.appendChild 0 2)
      (Host.edit (.appendChild 0 1) created))
    let d' := edit (.replaceChild 0 1 3) d
    d.Reachable ∧ d.Linked ∧ (d.node 0).children = [1, 2, 3] ∧ (d'.node 0).children = [3, 2] ∧
      d'.Under 3 0 ∧ d'.Root 1 ∧ d.Keeps d' [1, 3] [] := by
  intro created d d'
  have h : d.ReachableApart :=
    .edit _ (.edit _ (.edit _ (.create _ (.create _ (.create _ (.create _ (.empty false)))))
      (by decide) trivial) (by decide) trivial) (by decide) trivial
  obtain ⟨-, -, -, hreplace, -⟩ := changes_in_one_place h.reachable h.linked
  obtain ⟨-, hunder, hroot, -, hkeeps⟩ :=
    (hreplace 0 1 3 (by decide) (by decide) (by decide)).1 (by decide) (by decide)
  exact ⟨h.reachable, h.linked, by decide, by decide, hunder, hroot, hkeeps⟩

end TreeCode.Document
