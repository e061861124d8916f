import Mathlib.Data.List.Perm.Subperm
import Mathlib.Logic.Relation
import TreeCode.Proofs.Document.Parents

/-!
# Documents that are forests

By changes alone a node can come to stand below itself. It cannot where there is an order in which
every node that has a parent stands before it (`Forest`). Then a node is not above itself
(`Forest.not_above_itself`), and as the order has no more nodes than the document, whatever reads a
node and all below it comes to an end (`Forest.isSome_markup?`).

The order grows at its end, by a node that is about to get a parent (`Forest.snoc`). A change that
joins two nodes keeps it if the child stands before the other (`Forest.join`), however late the change
comes and whatever parent the other has got in the meantime. Other changes, to nodes outside the
order, add at most a new text to it (`Forest.edit`).
-/

namespace TreeCode.Document

variable {d : Document} {order : List NodeId} {a b c p : NodeId}

/-! ## Orders -/

/-- Whether `a` stands before `b` in an order. What is not in it comes after all that is. -/
def Before (order : List NodeId) (a b : NodeId) : Prop := order.idxOf a < order.idxOf b

theorem Before.mem (h : Before order a b) : a ∈ order :=
  List.idxOf_lt_length_iff.mp (Nat.lt_of_lt_of_le h List.idxOf_le_length)

theorem Before.ne (h : Before order a b) : a ≠ b := by
  rintro rfl
  exact Nat.lt_irrefl _ h

theorem Before.trans (h : Before order a b) (h' : Before order b c) : Before order a c :=
  Nat.lt_trans h h'

theorem Before.append (h : Before order a b) (extra : List NodeId) :
    Before (order ++ extra) a b := by
  rw [Before, List.idxOf_append_of_mem h.mem]
  by_cases hb : b ∈ order
  · rwa [List.idxOf_append_of_mem hb]
  · have ha := List.idxOf_lt_length_iff.mpr h.mem
    rw [List.idxOf_append_of_notMem hb]
    exact Nat.lt_add_right _ ha

theorem before_snoc (hb : b ∉ order) (hne : b ≠ c) : Before (order ++ [c]) c b := by
  have hb' : b ∉ order ++ [c] := by simp [hb, hne]
  rw [Before, List.idxOf_of_notMem hb', List.idxOf_lt_length_iff]
  simp

/-! ## Lists -/

theorem length_le_of_nodup {ids : List Nat} {n : Nat} (h : ids.Nodup) (hlt : ∀ id ∈ ids, id < n) :
    ids.length ≤ n := by
  have hsub : ids ⊆ List.range n := fun id hid => List.mem_range.mpr (hlt id hid)
  simpa using (h.subperm hsub).length_le

theorem isSome_mapM {α β : Type} {f : α → Option β} {as : List α}
    (h : ∀ x ∈ as, (f x).isSome) : (as.mapM f).isSome := by
  induction as with
  | nil => rfl
  | cons x rest ih =>
    obtain ⟨hx, hrest⟩ := List.forall_mem_cons.mp h
    obtain ⟨y, hy⟩ := Option.isSome_iff_exists.mp hx
    obtain ⟨ys, hys⟩ := Option.isSome_iff_exists.mp (ih hrest)
    simp [hy, hys]

/-! ## Forests -/

/-- The links of a document are sound, and in the order every node that has a parent stands before
it. -/
structure Forest (d : Document) (order : List NodeId) : Prop where
  linked : d.Linked
  ownsFragment : d.OwnsFragment
  nodup : order.Nodup
  lt_size_of_mem : ∀ id ∈ order, id < d.size
  before_of_parent : ∀ c p, (d.node c).parent = some p → Before order c p

namespace Forest

theorem parent_eq_none (h : d.Forest order) (hc : c ∉ order) : (d.node c).parent = none := by
  cases hp : (d.node c).parent with
  | none => rfl
  | some p => exact absurd (h.before_of_parent c p hp).mem hc

theorem empty (defersSiblings : Bool) : ({ defersSiblings } : Document).Forest [] where
  linked := linked_empty defersSiblings
  ownsFragment := List.forall_mem_nil _
  nodup := .nil
  lt_size_of_mem := List.forall_mem_nil _
  before_of_parent c p h := by simp [node_of_size_le, size] at h

theorem snoc (h : d.Forest order) (hc : c < d.size) (hnew : c ∉ order) :
    d.Forest (order ++ [c]) where
  linked := h.linked
  ownsFragment := h.ownsFragment
  nodup := List.nodup_append_comm.mp (h.nodup.cons hnew)
  lt_size_of_mem := List.forall_mem_append.mpr ⟨h.lt_size_of_mem, by simpa using hc⟩
  before_of_parent c p hp := (h.before_of_parent c p hp).append _

theorem create (h : d.Forest order) (content : Content) : (d.create content).2.Forest order where
  linked := h.linked.create content
  ownsFragment := ownsFragment_create h.ownsFragment
  nodup := h.nodup
  lt_size_of_mem id hid := by
    rw [size_create]
    exact Nat.lt_succ_of_lt (h.lt_size_of_mem id hid)
  before_of_parent c p hp := h.before_of_parent c p ((links_create d content c).1 ▸ hp)

variable {e : Edit NodeId}

theorem edit (h : d.Forest order) (he : e.joined? = none)
    (hnodes : ∀ id ∈ e.nodes, id < d.size ∧ id ∉ order) :
    ∃ extra, (edit e d).Forest (order ++ extra) ∧ ∀ id ∈ extra, d.size ≤ id := by
  have hroots : d.Roots e.nodes := fun id hid =>
    ⟨(hnodes id hid).1, h.parent_eq_none (hnodes id hid).2⟩
  have hapart : e.Apart := by cases e <;> trivial
  have hsize := size_le_edit d he hroots
  have hlt (id : NodeId) (hid : id ∈ order) : id < (Document.edit e d).size :=
    Nat.lt_of_lt_of_le (h.lt_size_of_mem id hid) hsize
  have hnew : d.size ∉ order := fun hmem => Nat.lt_irrefl _ (h.lt_size_of_mem _ hmem)
  have hlinked := h.linked.edit (fun id hid => (hnodes id hid).1) hapart
  have howns := ownsFragment_edit h.ownsFragment fun id hid => (hnodes id hid).1
  -- The new text, if there is one, is last in the order: its parent is outside.
  by_cases hgrows : d.size < (Document.edit e d).size
  · have hnodup : (order ++ [d.size]).Nodup := List.nodup_append_comm.mp (h.nodup.cons hnew)
    refine ⟨[d.size], ⟨hlinked, howns, hnodup, ?_, ?_⟩, by simp⟩
    · exact List.forall_mem_append.mpr ⟨hlt, by simpa using hgrows⟩
    · intro c p hp
      rcases parent_edit_of_roots he hroots hp with hp | ⟨rfl, hmem, -⟩
      · exact (h.before_of_parent c p hp).append _
      · exact before_snoc (hnodes p hmem).2 (Nat.ne_of_lt (hnodes p hmem).1)
  · refine ⟨[], ⟨hlinked, howns, by simpa using h.nodup, by simpa using hlt, ?_⟩, by simp⟩
    intro c p hp
    rcases parent_edit_of_roots he hroots hp with hp | ⟨-, -, hlt⟩
    · exact (h.before_of_parent c p hp).append _
    · exact absurd hlt hgrows

theorem join {pair : NodeId × NodeId} (h : d.Forest order) (he : e.joined? = some pair)
    (hbefore : Before order pair.2 pair.1) (hother : pair.1 < d.size) :
    (Document.edit e d).Forest order ∧ (Document.edit e d).size = d.size := by
  obtain ⟨other, child⟩ := pair
  have hchild : child < d.size := h.lt_size_of_mem child hbefore.mem
  have hne : other ≠ child := hbefore.ne.symm
  have hnodes : ∀ id ∈ e.nodes, id < d.size := by
    rw [Edit.nodes_of_joined? he]
    simpa using ⟨hother, hchild⟩
  have hapart : e.Apart := by cases e <;> cases he <;> trivial
  have hsize : (Document.edit e d).size = d.size := size_edit_of_joined he
  refine ⟨⟨h.linked.edit hnodes hapart, ownsFragment_edit h.ownsFragment hnodes, h.nodup, ?_, ?_⟩,
    hsize⟩
  · rw [hsize]
    exact h.lt_size_of_mem
  · intro c p hp
    rcases parent_edit_of_joined he hchild hne hp with hp | ⟨rfl, rfl | hp⟩
    · exact h.before_of_parent c p hp
    · exact hbefore
    -- Put beside a node that has got a parent by now, the child comes before that parent too.
    · exact hbefore.trans (h.before_of_parent other p hp)

/-! ## Above and below -/

/-- Parent after parent, one does not come back to a node. -/
theorem not_above_itself (h : d.Forest order) (id : NodeId) :
    ¬ Relation.TransGen (fun c p => (d.node c).parent = some p) id id := by
  have hbefore {c p : NodeId}
      (hpath : Relation.TransGen (fun c p => (d.node c).parent = some p) c p) :
      Before order c p := by
    induction hpath with
    | single hp => exact h.before_of_parent _ _ hp
    | tail _ hp ih => exact ih.trans (h.before_of_parent _ _ hp)
  exact fun hcycle => (hbefore hcycle).ne rfl

theorem idxOf_lt_size (h : d.Forest order) {id : NodeId} (hid : id < d.size) :
    order.idxOf id < d.size := by
  by_cases hmem : id ∈ order
  · exact Nat.lt_of_lt_of_le (List.idxOf_lt_length_iff.mpr hmem)
      (length_le_of_nodup h.nodup h.lt_size_of_mem)
  · rw [List.idxOf_of_notMem hmem]
    exact length_le_of_nodup (h.nodup.cons hmem) (by simpa using ⟨hid, h.lt_size_of_mem⟩)

/-- To read a node and all below it takes no more depth than its place in the order. -/
theorem isSome_markupWithin (h : d.Forest order) {depth : Nat} {id : NodeId}
    (hdepth : order.idxOf id < depth) : (d.markupWithin depth id).isSome := by
  induction depth generalizing id with
  | zero => cases hdepth
  | succ depth ih =>
    unfold markupWithin
    split
    · rfl
    · rw [Option.isSome_map]
      refine isSome_mapM fun child hchild => ih ?_
      have hparent := (h.linked.parent_eq_some_iff child id).mpr hchild
      exact Nat.lt_of_lt_of_le (h.before_of_parent child id hparent) (Nat.le_of_lt_succ hdepth)

theorem isSome_markup? (h : d.Forest order) {id : NodeId} (hid : id < d.size) :
    (d.markup? id).isSome :=
  h.isSome_markupWithin (h.idxOf_lt_size hid)

theorem isSome_fragmentHtml? (h : d.Forest order) : d.fragmentHtml?.isSome := by
  rw [fragmentHtml?, Option.isSome_map]
  exact isSome_mapM fun id hid => h.isSome_markup? (h.ownsFragment id hid)

end Forest

end TreeCode.Document
