import TreeCode.Proofs.Document.Links

/-!
# What nodes hold

Documents are `Alike` if they have as many nodes, and nodes of one number hold the same. What nodes
hold does not depend on where they are: moving nodes leaves a document alike (`alike_appendChild`,
`alike_insertAfter`), and the same change makes alike documents alike again (`Alike.edit`).
-/

namespace TreeCode.Document

/-- The documents have nodes of the same numbers, which hold the same. -/
structure Alike (d d' : Document) : Prop where
  size : d.size = d'.size
  content : ∀ i, (d.node i).content = (d'.node i).content

variable {d d' d'' : Document}

namespace Alike

protected theorem rfl : d.Alike d := ⟨rfl, fun _ => rfl⟩

protected theorem symm (h : d.Alike d') : d'.Alike d := ⟨h.size.symm, fun i => (h.content i).symm⟩

protected theorem trans (h : d.Alike d') (h' : d'.Alike d'') : d.Alike d'' :=
  ⟨h.size.trans h'.size, fun i => (h.content i).trans (h'.content i)⟩

end Alike

/-! ## Moving nodes -/

theorem alike_modify (d : Document) (id : NodeId) (f : Node → Node)
    (hf : ∀ n, (f n).content = n.content) : (d.modify id f).Alike d :=
  ⟨size_modify d id f, map_node_modify Node.content d id f hf⟩

theorem alike_setParent (d : Document) (c : NodeId) (parent : Option NodeId) :
    (d.setParent c parent).Alike d := alike_modify d c _ fun _ => rfl

theorem alike_modifyChildren (d : Document) (p : NodeId) (f : List NodeId → List NodeId) :
    (d.modifyChildren p f).Alike d := alike_modify d p _ fun _ => rfl

theorem Alike.of_nodes_eq (h : d.nodes = d'.nodes) : d.Alike d' :=
  ⟨congrArg Array.size h, fun i => by rw [node_congr h]⟩

theorem alike_detach (d : Document) (c : NodeId) : (d.detach c).Alike d := by
  unfold detach
  cases (d.node c).parent with
  | none => exact .of_nodes_eq rfl
  | some p =>
    have hmoved : ((d.setParent c none).modifyChildren p (·.filter (· ≠ c))).Alike d :=
      (alike_modifyChildren _ _ _).trans (alike_setParent _ _ _)
    exact ⟨hmoved.size, hmoved.content⟩

theorem alike_appendChild (d : Document) (p c : NodeId) : (d.appendChild p c).Alike d :=
  (alike_modifyChildren _ _ _).trans ((alike_setParent _ _ _).trans (alike_detach d c))

theorem alike_insertAfter (d : Document) (s c : NodeId) : (d.insertAfter s c).Alike d := by
  refine .trans ?_ (alike_detach d c)
  unfold insertAfter
  cases hs : ((d.detach c).node s).parent with
  | none =>
    simp only [hs]
    exact .of_nodes_eq rfl
  | some p =>
    simp only [hs]
    exact (alike_setParent _ _ _).trans (alike_modifyChildren _ _ _)

theorem alike_removeChild (d : Document) (p c : NodeId) : (d.removeChild p c).Alike d := by
  unfold removeChild
  split
  · exact alike_detach d c
  · exact .rfl

theorem alike_replaceChild (d : Document) (p old new : NodeId) :
    (d.replaceChild p old new).Alike d := by
  unfold replaceChild
  split
  · exact .rfl
  · exact (alike_setParent _ _ _).trans ((alike_setParent _ _ _).trans
      ((alike_modifyChildren _ _ _).trans (alike_detach d new)))

theorem alike_orphan (d : Document) (ids : List NodeId) : (d.orphan ids).Alike d := by
  induction ids generalizing d with
  | nil => exact .rfl
  | cons id rest ih => exact (ih _).trans (alike_setParent d id none)

theorem alike_emptied (d : Document) (id : NodeId) : (d.emptied id).Alike d :=
  (alike_orphan _ _).trans (alike_modifyChildren d id _)

/-! ## The same change -/

namespace Alike

theorem modifyContent (h : d.Alike d') (id : NodeId) (f : Content → Content) :
    (d.modifyContent id f).Alike (d'.modifyContent id f) where
  size := by rw [Document.modifyContent, Document.modifyContent, size_modify, size_modify, h.size]
  content i := by
    rcases Nat.lt_or_ge id d.size with hid | hid
    · by_cases hi : i = id
      · rw [hi, Document.modifyContent, Document.modifyContent, node_modify_self hid,
          node_modify_self (h.size ▸ hid)]
        exact congrArg f (h.content id)
      · rw [Document.modifyContent, Document.modifyContent, node_modify_of_ne hi,
          node_modify_of_ne hi, h.content]
    · rw [Document.modifyContent, Document.modifyContent, node_modify_of_size_le hid,
        node_modify_of_size_le (h.size ▸ hid), h.content]

theorem create (h : d.Alike d') (content : Content) :
    (d.create content).2.Alike (d'.create content).2 where
  size := by rw [size_create, size_create, h.size]
  content i := by
    rw [node_create, node_create, h.size]
    split
    · rfl
    · exact h.content i

theorem setText (h : d.Alike d') (id : NodeId) (text : String) :
    (d.setText id text).Alike (d'.setText id text) := by
  cases hcontent : (d'.node id).content with
  | text content =>
    rw [Document.setText, Document.setText, h.content, hcontent]
    exact h.modifyContent id _
  | element tag attributes style =>
    rw [setText_of_element hcontent, setText_of_element ((h.content id).trans hcontent)]
    have hboth := (alike_emptied d id).trans (h.trans (alike_emptied d' id).symm)
    exact (alike_appendChild _ id _).trans
      ((hboth.create (.text text)).trans (alike_appendChild _ id _).symm)

theorem edit (h : d.Alike d') (e : Edit NodeId) : (edit e d).Alike (edit e d') := by
  cases e with
  | setAttribute id key value => exact h.modifyContent id _
  | removeAttribute id key => exact h.modifyContent id _
  | setStyle id name value => exact h.modifyContent id _
  | appendChild p c =>
    exact (alike_appendChild d p c).trans (h.trans (alike_appendChild d' p c).symm)
  | insertAfter s c =>
    exact (alike_insertAfter d s c).trans (h.trans (alike_insertAfter d' s c).symm)
  | removeChild p c =>
    exact (alike_removeChild d p c).trans (h.trans (alike_removeChild d' p c).symm)
  | replaceChild p old new =>
    exact (alike_replaceChild d p old new).trans (h.trans (alike_replaceChild d' p old new).symm)
  | setText id text => exact h.setText id text
  | listen id event handler =>
    have hlisten (d : Document) : (Document.edit (.listen id event handler) d).Alike d :=
      alike_modify d id (fun n => { n with listeners := n.listeners ++ [(event, handler)] })
        fun _ => rfl
    exact (hlisten d).trans (h.trans (hlisten d').symm)

end Alike

end TreeCode.Document
