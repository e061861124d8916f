import Mathlib.Data.List.GetD
import TreeCode.Proofs.Document.Links

/-!
# Documents inside others

A document can lie inside another: each of its nodes is there under a name, and what a node holds
and where it is are the same but for the names (`Inside`). The other document may have more nodes,
and nodes of two documents that lie in it need not be told apart by their numbers, only by their
names. The same change to both leaves one inside the other, gives names that were not in use to new
nodes, and leaves the nodes without a name as they are (`Alongside`, `Inside.edit`).

The fragments play no part: a node does not know whether it is in one.
-/

namespace TreeCode

namespace Node

def rename (f : NodeId → NodeId) (n : Node) : Node :=
  { n with parent := n.parent.map f, children := n.children.map f }

@[simp] theorem content_rename (f : NodeId → NodeId) (n : Node) :
    (n.rename f).content = n.content := rfl

@[simp] theorem listeners_rename (f : NodeId → NodeId) (n : Node) :
    (n.rename f).listeners = n.listeners := rfl

@[simp] theorem parent_rename (f : NodeId → NodeId) (n : Node) :
    (n.rename f).parent = n.parent.map f := rfl

@[simp] theorem children_rename (f : NodeId → NodeId) (n : Node) :
    (n.rename f).children = n.children.map f := rfl

/-- The parent and the children of a node have numbers below a bound. -/
structure Bounded (size : Nat) (n : Node) : Prop where
  parent : ∀ p, n.parent = some p → p < size
  children : ∀ c ∈ n.children, c < size

variable {n : Node} {size size' : Nat}

theorem Bounded.mono (h : n.Bounded size) (hle : size ≤ size') : n.Bounded size' :=
  ⟨fun p hp => Nat.lt_of_lt_of_le (h.parent p hp) hle,
    fun c hc => Nat.lt_of_lt_of_le (h.children c hc) hle⟩

theorem bounded_of_content (size : Nat) (content : Content) : Bounded size { content } where
  parent _ hp := by cases hp
  children _ hc := by cases hc

theorem Bounded.rename_congr {f g : NodeId → NodeId} (h : n.Bounded size)
    (hfg : ∀ id < size, f id = g id) : n.rename f = n.rename g := by
  have hparent : n.parent.map f = n.parent.map g :=
    Option.map_congr fun p hp => hfg p (h.parent p hp)
  have hchildren : n.children.map f = n.children.map g :=
    List.map_congr_left fun c hc => hfg c (h.children c hc)
  rw [rename, rename, hparent, hchildren]

end Node

namespace Document

variable {a a' a'' d d' d'' : Document} {names names' names'' : List NodeId} {c p s id : NodeId}

/-! ## Names -/

/-- The name that a list of names has for a node. -/
def named (names : List NodeId) (id : NodeId) : NodeId := names.getD id 0

theorem named_mem (h : id < names.length) : named names id ∈ names := by
  rw [named, List.getD_eq_getElem names 0 h]
  exact List.getElem_mem h

theorem named_append_of_lt (h : id < names.length) (fresh : List NodeId) :
    named (names ++ fresh) id = named names id :=
  List.getD_append names fresh 0 id h

@[simp] theorem named_append_length (names : List NodeId) (name : NodeId) :
    named (names ++ [name]) names.length = name := by
  simp [named]

theorem named_inj (h : names.Nodup) {i j : NodeId} (hi : i < names.length) (hj : j < names.length) :
    named names i = named names j ↔ i = j := by
  rw [named, named, List.getD_eq_getElem names 0 hi, List.getD_eq_getElem names 0 hj]
  exact h.getElem_inj_iff

theorem mem_putInstead {old new id : NodeId} {ids : List NodeId} (h : id ∈ putInstead old new ids) :
    id = new ∨ id ∈ ids := by
  induction ids with
  | nil => cases h
  | cons first rest ih =>
    unfold putInstead at h
    split at h
    · exact (List.mem_cons.mp h).imp_right (List.mem_cons_of_mem first)
    · rcases List.mem_cons.mp h with rfl | h
      · exact .inr List.mem_cons_self
      · exact (ih h).imp_right (List.mem_cons_of_mem first)

/-! ## One document inside another -/

/-- The nodes of the first document are in the second, each under its name. -/
structure Inside (names : List NodeId) (a d : Document) : Prop where
  length : names.length = a.size
  nodup : names.Nodup
  lt_size : ∀ name ∈ names, name < d.size
  bounded : ∀ id, (a.node id).Bounded a.size
  node : ∀ id < a.size, d.node (named names id) = (a.node id).rename (named names)

/-- From a document inside another to the same of later ones. The nodes outside are as they were,
and the names that have come were not in use. -/
structure Alongside (names : List NodeId) (a d : Document) (names' : List NodeId)
    (a' d' : Document) : Prop where
  inside : Inside names' a' d'
  grows : ∃ fresh, names' = names ++ fresh ∧ ∀ name ∈ fresh, d.size ≤ name
  size_le : d.size ≤ d'.size
  outside : ∀ id < d.size, id ∉ names → d'.node id = d.node id

theorem inside_nil (defersSiblings : Bool) (d : Document) : Inside [] { defersSiblings } d where
  length := rfl
  nodup := .nil
  lt_size := List.forall_mem_nil _
  bounded id := by
    rw [node_of_size_le (Nat.zero_le id)]
    exact Node.bounded_of_content _ _
  node id hid := absurd hid (Nat.not_lt_zero id)

namespace Inside

theorem named_lt (h : Inside names a d) (hid : id < a.size) : named names id < d.size :=
  h.lt_size _ (named_mem (h.length ▸ hid))

theorem inj (h : Inside names a d) {i j : NodeId} (hi : i < a.size) (hj : j < a.size) :
    named names i = named names j ↔ i = j :=
  named_inj h.nodup (h.length ▸ hi) (h.length ▸ hj)

theorem map_filter (h : Inside names a d) (hc : c < a.size) {ids : List NodeId}
    (hids : ∀ id ∈ ids, id < a.size) :
    (ids.map (named names)).filter (· ≠ named names c) =
      (ids.filter (· ≠ c)).map (named names) := by
  rw [List.filter_map]
  refine congrArg _ (List.filter_congr fun id hid => ?_)
  exact decide_eq_decide.mpr (not_congr (h.inj (hids id hid) hc))

theorem map_putAfter (h : Inside names a d) (hs : s < a.size) {ids : List NodeId}
    (hids : ∀ id ∈ ids, id < a.size) (c : NodeId) :
    putAfter (named names s) (named names c) (ids.map (named names)) =
      (putAfter s c ids).map (named names) := by
  induction ids with
  | nil => rfl
  | cons id rest ih =>
    obtain ⟨hid, hrest⟩ := List.forall_mem_cons.mp hids
    simp only [List.map_cons, putAfter, h.inj hid hs]
    split
    · rfl
    · rw [List.map_cons, ih hrest]

theorem map_putInstead (h : Inside names a d) {old : NodeId} (hold : old < a.size)
    {ids : List NodeId} (hids : ∀ id ∈ ids, id < a.size) (new : NodeId) :
    putInstead (named names old) (named names new) (ids.map (named names)) =
      (putInstead old new ids).map (named names) := by
  induction ids with
  | nil => rfl
  | cons id rest ih =>
    obtain ⟨hid, hrest⟩ := List.forall_mem_cons.mp hids
    simp only [List.map_cons, putInstead, h.inj hid hold]
    split
    · rfl
    · rw [List.map_cons, ih hrest]

/-- Only nodes matter, and of the outer document only those with a name. -/
theorem congr (h : Inside names a d) (ha : a'.nodes = a.nodes) (hsize : d.size ≤ d'.size)
    (hd : ∀ name ∈ names, d'.node name = d.node name) : Inside names a' d' where
  length := h.length.trans (size_congr ha).symm
  nodup := h.nodup
  lt_size name hname := Nat.lt_of_lt_of_le (h.lt_size name hname) hsize
  bounded id := by
    rw [node_congr ha, size_congr ha]
    exact h.bounded id
  node id hid := by
    rw [size_congr ha] at hid
    rw [node_congr ha, hd _ (named_mem (h.length ▸ hid)), h.node id hid]

theorem alongside_of_nodes_eq (h : Inside names a d) (ha : a'.nodes = a.nodes)
    (hd : d'.nodes = d.nodes) : Alongside names a d names a' d' where
  inside := h.congr ha (Nat.le_of_eq (size_congr hd).symm) fun _ _ => node_congr hd _
  grows := ⟨[], (List.append_nil names).symm, List.forall_mem_nil _⟩
  size_le := Nat.le_of_eq (size_congr hd).symm
  outside _ _ _ := node_congr hd _

end Inside

namespace Alongside

theorem refl (h : Inside names a d) : Alongside names a d names a d :=
  h.alongside_of_nodes_eq rfl rfl

theorem trans (h : Alongside names a d names' a' d') (h' : Alongside names' a' d' names'' a'' d'') :
    Alongside names a d names'' a'' d'' where
  inside := h'.inside
  grows := by
    obtain ⟨fresh, rfl, hfresh⟩ := h.grows
    obtain ⟨later, rfl, hlater⟩ := h'.grows
    refine ⟨fresh ++ later, List.append_assoc .., List.forall_mem_append.mpr ⟨hfresh, ?_⟩⟩
    exact fun name hname => Nat.le_trans h.size_le (hlater name hname)
  size_le := Nat.le_trans h.size_le h'.size_le
  outside id hid hout := by
    obtain ⟨fresh, hnames, hfresh⟩ := h.grows
    have hout' : id ∉ names' := by
      rw [hnames, List.mem_append, not_or]
      exact ⟨hout, fun hmem => Nat.not_le_of_lt hid (hfresh id hmem)⟩
    rw [h'.outside id (Nat.lt_of_lt_of_le hid h.size_le) hout', h.outside id hid hout]

theorem lt_size (h : Alongside names a d names' a' d') (ha : Inside names a d) (hid : id < a.size) :
    id < a'.size := by
  obtain ⟨fresh, rfl, -⟩ := h.grows
  rw [← h.inside.length, List.length_append, ha.length]
  exact Nat.lt_add_right _ hid

theorem named_eq (h : Alongside names a d names' a' d') (ha : Inside names a d)
    (hid : id < a.size) : named names' id = named names id := by
  obtain ⟨fresh, rfl, -⟩ := h.grows
  exact named_append_of_lt (ha.length ▸ hid) fresh

end Alongside

/-- Changes to nodes without a name go unnoticed. -/
theorem Inside.of_alongside {b b' : Document} {others others' : List NodeId} (h : Inside names a d)
    (hother : Alongside others b d others' b' d') (hapart : names.Disjoint others) :
    Inside names a d' :=
  h.congr rfl hother.size_le fun name hname =>
    hother.outside name (h.lt_size name hname) (hapart hname)

/-- Names that were apart from those of another document stay apart from them. -/
theorem Alongside.disjoint {b : Document} {others : List NodeId}
    (h : Alongside names a d names' a' d') (hother : Inside others b d)
    (hapart : names.Disjoint others) : names'.Disjoint others := by
  obtain ⟨fresh, rfl, hfresh⟩ := h.grows
  refine List.disjoint_append_left.mpr ⟨hapart, fun name hname hmem => ?_⟩
  exact Nat.not_le_of_lt (hother.lt_size name hmem) (hfresh name hname)

/-! ## Changing one node -/

namespace Inside

theorem modify (h : Inside names a d) (hid : id < a.size) {f g : Node → Node}
    (hfg : ∀ n : Node, n.Bounded a.size →
      (f n).Bounded a.size ∧ g (n.rename (named names)) = (f n).rename (named names)) :
    Alongside names a d names (a.modify id f) (d.modify (named names id) g) where
  inside :=
    { length := by rw [size_modify, h.length]
      nodup := h.nodup
      lt_size := by
        rw [size_modify]
        exact h.lt_size
      bounded i := by
        rw [size_modify]
        by_cases hi : i = id
        · rw [hi, node_modify_self hid]
          exact (hfg _ (h.bounded id)).1
        · rw [node_modify_of_ne hi]
          exact h.bounded i
      node i hilt := by
        rw [size_modify] at hilt
        by_cases hi : i = id
        · rw [hi, node_modify_self (h.named_lt hid), node_modify_self hid, h.node id hid]
          exact (hfg _ (h.bounded id)).2
        · rw [node_modify_of_ne (mt (h.inj hilt hid).mp hi), node_modify_of_ne hi]
          exact h.node i hilt }
  grows := ⟨[], (List.append_nil names).symm, List.forall_mem_nil _⟩
  size_le := Nat.le_of_eq (size_modify ..).symm
  outside i _ hout := by
    -- A node without a name is not the one that changes.
    refine node_modify_of_ne ?_ g
    rintro rfl
    exact hout (named_mem (h.length ▸ hid))

theorem modifyHeld (h : Inside names a d) (hid : id < a.size) {f : Node → Node}
    (hparent : ∀ n, (f n).parent = n.parent) (hchildren : ∀ n, (f n).children = n.children)
    (hf : ∀ n, f (n.rename (named names)) = (f n).rename (named names)) :
    Alongside names a d names (a.modify id f) (d.modify (named names id) f) :=
  h.modify hid fun n hn =>
    ⟨⟨by rw [hparent]; exact hn.parent, by rw [hchildren]; exact hn.children⟩, hf n⟩

theorem setParent (h : Inside names a d) (hc : c < a.size) (parent : Option NodeId)
    (hparent : ∀ p, parent = some p → p < a.size) :
    Alongside names a d names (a.setParent c parent)
      (d.setParent (named names c) (parent.map (named names))) :=
  h.modify hc fun _ hn => ⟨⟨hparent, hn.children⟩, rfl⟩

theorem setParent_none (h : Inside names a d) (hc : c < a.size) :
    Alongside names a d names (a.setParent c none) (d.setParent (named names c) none) :=
  h.setParent hc none fun _ he => by cases he

theorem setParent_some (h : Inside names a d) (hc : c < a.size) (hp : p < a.size) :
    Alongside names a d names (a.setParent c (some p))
      (d.setParent (named names c) (some (named names p))) :=
  h.setParent hc (some p) fun _ he => by cases he; exact hp

theorem modifyChildren (h : Inside names a d) (hp : p < a.size) {f g : List NodeId → List NodeId}
    (hf : ∀ ids, (∀ id ∈ ids, id < a.size) → ∀ id ∈ f ids, id < a.size)
    (hfg : ∀ ids, (∀ id ∈ ids, id < a.size) →
      g (ids.map (named names)) = (f ids).map (named names)) :
    Alongside names a d names (a.modifyChildren p f) (d.modifyChildren (named names p) g) :=
  h.modify hp fun n hn =>
    ⟨⟨hn.parent, hf _ hn.children⟩,
      congrArg (fun children => { n with parent := n.parent.map (named names), children })
        (hfg _ hn.children)⟩

/-! ## Each change -/

theorem detach (h : Inside names a d) (hc : c < a.size) :
    Alongside names a d names (a.detach c) (d.detach (named names c)) := by
  unfold Document.detach
  simp only [h.node c hc, Node.parent_rename]
  cases hp : (a.node c).parent with
  | none =>
    simp only [Option.map_none]
    exact h.alongside_of_nodes_eq rfl rfl
  | some p =>
    simp only [Option.map_some]
    have hfirst := h.setParent_none hc
    have hp' : p < (a.setParent c none).size := hfirst.lt_size h ((h.bounded c).parent p hp)
    have hc' := hfirst.lt_size h hc
    have hsecond := hfirst.inside.modifyChildren hp' (f := (·.filter (· ≠ c)))
      (g := (·.filter (· ≠ named names c)))
      (fun ids hids id hid => hids id (List.mem_filter.mp hid).1)
      fun ids hids => hfirst.inside.map_filter hc' hids
    exact (hfirst.trans hsecond).trans (hsecond.inside.alongside_of_nodes_eq rfl rfl)

theorem appendChild (h : Inside names a d) (hp : p < a.size) (hc : c < a.size) :
    Alongside names a d names (a.appendChild p c)
      (d.appendChild (named names p) (named names c)) := by
  have hdetached := h.detach hc
  have hput := hdetached.trans <|
    hdetached.inside.setParent_some (hdetached.lt_size h hc) (hdetached.lt_size h hp)
  refine hput.trans (hput.inside.modifyChildren (hput.lt_size h hp) (fun ids hids => ?_)
    fun ids _ => ?_)
  · exact List.forall_mem_append.mpr ⟨hids, by simpa using hput.lt_size h hc⟩
  · rw [List.map_append, List.map_singleton]

theorem insertAfter (h : Inside names a d) (hs : s < a.size) (hc : c < a.size) :
    Alongside names a d names (a.insertAfter s c)
      (d.insertAfter (named names s) (named names c)) := by
  have hdetached := h.detach hc
  have hs' := hdetached.lt_size h hs
  have hc' := hdetached.lt_size h hc
  unfold Document.insertAfter
  simp only [hdetached.inside.node s hs', Node.parent_rename]
  cases hg : ((a.detach c).node s).parent with
  | none =>
    simp only [Option.map_none]
    exact hdetached.trans (hdetached.inside.alongside_of_nodes_eq rfl rfl)
  | some g =>
    simp only [Option.map_some]
    have hglt : g < (a.detach c).size := (hdetached.inside.bounded s).parent g hg
    have hlisted := hdetached.inside.modifyChildren hglt (f := putAfter s c)
      (g := putAfter (named names s) (named names c))
      (fun ids hids id hid => (mem_putAfter hid).elim (fun he => he ▸ hc') (hids id))
      fun ids hids => hdetached.inside.map_putAfter hs' hids c
    exact hdetached.trans <| hlisted.trans <| hlisted.inside.setParent_some
      (hlisted.lt_size hdetached.inside hc') (hlisted.lt_size hdetached.inside hglt)

theorem parent_eq_iff (h : Inside names a d) (hc : c < a.size) (hp : p < a.size) :
    (d.node (named names c)).parent = some (named names p) ↔ (a.node c).parent = some p := by
  rw [h.node c hc, Node.parent_rename]
  cases hg : (a.node c).parent with
  | none => simp
  | some g => simp [h.inj ((h.bounded c).parent g hg) hp]

theorem removeChild (h : Inside names a d) (hp : p < a.size) (hc : c < a.size) :
    Alongside names a d names (a.removeChild p c)
      (d.removeChild (named names p) (named names c)) := by
  simp only [Document.removeChild, h.parent_eq_iff hc hp]
  split
  · exact h.detach hc
  · exact .refl h

theorem replaceChild {old new : NodeId} (h : Inside names a d) (hp : p < a.size)
    (hold : old < a.size) (hnew : new < a.size) :
    Alongside names a d names (a.replaceChild p old new)
      (d.replaceChild (named names p) (named names old) (named names new)) := by
  simp only [Document.replaceChild, ne_eq, h.parent_eq_iff hold hp, h.inj hold hnew]
  split
  · exact .refl h
  · have hdetached := h.detach hnew
    have hnew' := hdetached.lt_size h hnew
    have hlisted := hdetached.trans <|
      hdetached.inside.modifyChildren (hdetached.lt_size h hp) (f := putInstead old new)
        (g := putInstead (named names old) (named names new))
        (fun ids hids id hid => (mem_putInstead hid).elim (fun he => he ▸ hnew') (hids id))
        fun ids hids => hdetached.inside.map_putInstead (hdetached.lt_size h hold) hids new
    have htaken := hlisted.trans (hlisted.inside.setParent_none (hlisted.lt_size h hold))
    exact htaken.trans <|
      htaken.inside.setParent_some (htaken.lt_size h hnew) (htaken.lt_size h hp)

theorem orphan (h : Inside names a d) (ids : List NodeId) (hids : ∀ id ∈ ids, id < a.size) :
    Alongside names a d names (a.orphan ids) (d.orphan (ids.map (named names))) := by
  induction ids generalizing a d with
  | nil => exact .refl h
  | cons id rest ih =>
    obtain ⟨hid, hrest⟩ := List.forall_mem_cons.mp hids
    have hfirst := h.setParent_none hid
    exact hfirst.trans (ih hfirst.inside fun i hi => hfirst.lt_size h (hrest i hi))

theorem create (h : Inside names a d) (content : Content) :
    Alongside names a d (names ++ [d.size]) (a.create content).2 (d.create content).2 where
  inside :=
    { length := by rw [List.length_append, h.length, size_create, List.length_singleton]
      nodup := by
        refine List.nodup_append_comm.mp (h.nodup.cons fun hmem => ?_)
        exact Nat.lt_irrefl _ (h.lt_size _ hmem)
      lt_size := by
        rw [size_create, List.forall_mem_append]
        exact ⟨fun name hname => Nat.lt_succ_of_lt (h.lt_size name hname), by simp⟩
      bounded i := by
        rw [node_create, size_create]
        split
        · exact Node.bounded_of_content _ content
        · exact (h.bounded i).mono (Nat.le_succ _)
      node i hi := by
        rw [size_create] at hi
        rcases Nat.lt_succ_iff_lt_or_eq.mp hi with hi | rfl
        -- Names that were given stay, and none of them is the number of the new node.
        · have hname := h.named_lt hi
          rw [named_append_of_lt (h.length ▸ hi), node_create, node_create,
            if_neg (Nat.ne_of_lt hname), if_neg (Nat.ne_of_lt hi), h.node i hi]
          exact (h.bounded i).rename_congr fun id hid =>
            (named_append_of_lt (h.length ▸ hid) _).symm
        · rw [← h.length, named_append_length, h.length, node_create, node_create, if_pos rfl,
            if_pos rfl]
          rfl }
  grows := ⟨[d.size], rfl, by simp⟩
  size_le := by
    rw [size_create]
    exact Nat.le_succ _
  outside i hi _ := by rw [node_create, if_neg (Nat.ne_of_lt hi)]

theorem setText (h : Inside names a d) (hid : id < a.size) (text : String) :
    ∃ names', Alongside names a d names' (a.setText id text)
      (d.setText (named names id) text) := by
  unfold Document.setText
  simp only [h.node id hid, Node.content_rename, Node.children_rename]
  cases (a.node id).content with
  | text content =>
    exact ⟨names, h.modifyHeld hid (fun _ => rfl) (fun _ => rfl) fun _ => rfl⟩
  | element tag attributes style =>
    have hemptied := h.modifyChildren hid (f := fun _ => []) (g := fun _ => [])
      (fun _ _ _ hmem => by cases hmem) fun _ _ => rfl
    have hcleared := hemptied.trans <| hemptied.inside.orphan (a.node id).children
      fun child hchild => hemptied.lt_size h ((h.bounded id).children child hchild)
    have hcreated := hcleared.trans (hcleared.inside.create (.text text))
    have happended := hcreated.inside.appendChild (hcreated.lt_size h hid)
      (c := ((a.modifyChildren id fun _ => []).orphan (a.node id).children).size)
      (by rw [size_create]; exact Nat.lt_succ_self _)
    -- The element keeps its name, and that of the new text is the number it gets.
    rw [hcreated.named_eq h hid, ← hcleared.inside.length, named_append_length] at happended
    rw [hcleared.inside.length] at happended
    exact ⟨_, hcreated.trans happended⟩

/-- **The same change to both.** A change to a document inside another, and the same to the nodes of
those names. -/
theorem edit (h : Inside names a d) {e : Edit NodeId} (he : ∀ id ∈ e.nodes, id < a.size) :
    ∃ names', Alongside names a d names' (Document.edit e a)
      (Document.edit (e.map (named names)) d) := by
  cases e with
  | setAttribute | removeAttribute | setStyle | listen =>
    exact ⟨names, h.modifyHeld (he _ (by simp [Edit.nodes])) (fun _ => rfl) (fun _ => rfl)
      fun _ => rfl⟩
  | appendChild p c =>
    exact ⟨names, h.appendChild (he _ (by simp [Edit.nodes])) (he _ (by simp [Edit.nodes]))⟩
  | insertAfter s c =>
    exact ⟨names, h.insertAfter (he _ (by simp [Edit.nodes])) (he _ (by simp [Edit.nodes]))⟩
  | removeChild p c =>
    exact ⟨names, h.removeChild (he _ (by simp [Edit.nodes])) (he _ (by simp [Edit.nodes]))⟩
  | replaceChild p old new =>
    exact ⟨names, h.replaceChild (he _ (by simp [Edit.nodes])) (he _ (by simp [Edit.nodes]))
      (he _ (by simp [Edit.nodes]))⟩
  | setText id text => exact h.setText (he _ (by simp [Edit.nodes])) text

end Inside

end Document

end TreeCode
