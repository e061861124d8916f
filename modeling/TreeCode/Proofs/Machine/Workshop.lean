import TreeCode.Proofs.Document.Forest

/-!
# Machines on one document

A `Workshop` is a host with all the machines that work on it, each with a program and operands of
its own. Whatever the machines are asked, and in whatever order, a document in a workshop is a
forest (`Workshop.acyclic_and_readable`). Its order is that in which nodes left the tables of the
machines, with the texts put into elements: a live node is outside the order, so that it can become
the parent of any that is in it, and an insertion that waits joins two nodes of which the child left
first (`Tended`).
-/

namespace TreeCode

variable {σ ν : Type}

/-- A host and the machines that work on it. -/
structure Workshop (σ ν : Type) where
  host : σ
  machines : List (Machine ν) := []

/-- What can happen in a workshop: one more machine starts, or one of them is asked something. -/
inductive Turn where
  | start (program : List UInt8) (defersSiblings : Bool) (settings : Settings)
    (registry : RegistryId)
  | ask (machine : Nat) (request : Request)

namespace Workshop

variable [Host σ ν]

/-- The workshop after a turn. A machine that is not there is not asked. -/
def take (w : Workshop σ ν) : Turn → Workshop σ ν
  | .start program defersSiblings settings registry =>
    { w with machines := w.machines ++ [.start program defersSiblings settings registry] }
  | .ask machine request =>
    match w.machines[machine]? with
    | none => w
    | some m =>
      let answered := m.perform w.host request
      ⟨answered.host, w.machines.set machine answered.machine⟩

def after (w : Workshop σ ν) (turns : List Turn) : Workshop σ ν := turns.foldl take w

def live (w : Workshop σ ν) : List ν := w.machines.flatMap (·.table.nodes)

def pending (w : Workshop σ ν) : List (ν × ν) := w.machines.flatMap (·.deferred)

end Workshop

namespace Document

variable {d : Document} {order live : List NodeId} {pending : List (NodeId × NodeId)}

/-- The document is a forest, the live nodes are outside its order, and of the nodes of an insertion
that waits the child stands before the other. -/
structure Tended (d : Document) (order live : List NodeId) (pending : List (NodeId × NodeId)) :
    Prop where
  forest : d.Forest order
  nodup : live.Nodup
  free : ∀ id ∈ live, id < d.size ∧ id ∉ order
  before : ∀ pair ∈ pending, pair.1 < d.size ∧ Before order pair.2 pair.1

namespace Tended

theorem mono {live' : List NodeId} {pending' : List (NodeId × NodeId)}
    (h : d.Tended order live pending) (hlive : live'.Perm live) (hpending : pending' ⊆ pending) :
    d.Tended order live' pending' where
  forest := h.forest
  nodup := hlive.nodup_iff.mpr h.nodup
  free id hid := h.free id (hlive.mem_iff.mp hid)
  before pair hpair := h.before pair (hpending hpair)

theorem create (h : d.Tended order live pending) (content : Content) :
    (d.create content).2.Tended order (d.size :: live) pending where
  forest := h.forest.create content
  nodup := h.nodup.cons fun hmem => Nat.lt_irrefl _ (h.free _ hmem).1
  free := by
    rw [size_create, List.forall_mem_cons]
    refine ⟨⟨Nat.lt_succ_self _, fun hmem => ?_⟩, fun id hid => ?_⟩
    · exact Nat.lt_irrefl _ (h.forest.lt_size_of_mem _ hmem)
    · exact (h.free id hid).imp_left Nat.lt_succ_of_lt
  before pair hpair := by
    rw [size_create]
    exact (h.before pair hpair).imp_left Nat.lt_succ_of_lt

theorem edit {e : Edit NodeId} (h : d.Tended order live pending) (he : e.joined? = none)
    (hnodes : ∀ id ∈ e.nodes, id ∈ live) :
    ∃ extra, (edit e d).Tended (order ++ extra) live pending := by
  have hfree : ∀ id ∈ e.nodes, id < d.size ∧ id ∉ order := fun id hid => h.free id (hnodes id hid)
  have hsize : d.size ≤ (Document.edit e d).size :=
    size_le_edit d he fun id hid => ⟨(hfree id hid).1, h.forest.parent_eq_none (hfree id hid).2⟩
  obtain ⟨extra, hforest, hextra⟩ := h.forest.edit he hfree
  refine ⟨extra, hforest, h.nodup, fun id hid => ?_, fun pair hpair => ?_⟩
  · obtain ⟨hlt, hmem⟩ := h.free id hid
    refine ⟨Nat.lt_of_lt_of_le hlt hsize, ?_⟩
    rw [List.mem_append, not_or]
    exact ⟨hmem, fun hmem => Nat.not_le_of_lt hlt (hextra id hmem)⟩
  · obtain ⟨hlt, hbefore⟩ := h.before pair hpair
    exact ⟨Nat.lt_of_lt_of_le hlt hsize, hbefore.append extra⟩

theorem take {child other : NodeId} (h : d.Tended order (child :: other :: live) pending) :
    d.Tended (order ++ [child]) (other :: live) ((other, child) :: pending) := by
  obtain ⟨hchild, hrest⟩ := List.forall_mem_cons.mp h.free
  obtain ⟨hnotmem, hnodup⟩ := List.nodup_cons.mp h.nodup
  refine ⟨h.forest.snoc hchild.1 hchild.2, hnodup, fun id hid => ⟨(hrest id hid).1, ?_⟩, ?_⟩
  · rw [List.mem_append, List.mem_singleton, not_or]
    exact ⟨(hrest id hid).2, fun he => hnotmem (he ▸ hid)⟩
  · rw [List.forall_mem_cons]
    obtain ⟨hlt, hother⟩ := hrest other List.mem_cons_self
    refine ⟨⟨hlt, before_snoc hother (List.ne_of_not_mem_cons hnotmem).symm⟩, fun pair hpair => ?_⟩
    exact (h.before pair hpair).imp_right (·.append [child])

theorem join {e : Edit NodeId} {pair : NodeId × NodeId} (he : e.joined? = some pair)
    (h : d.Tended order live (pair :: pending)) :
    (Document.edit e d).Tended order live pending := by
  obtain ⟨⟨hother, hbefore⟩, hrest⟩ := List.forall_mem_cons.mp h.before
  obtain ⟨hforest, hsize⟩ := h.forest.join he hbefore hother
  refine ⟨hforest, h.nodup, ?_, ?_⟩
  · rw [hsize]
    exact h.free
  · rw [hsize]
    exact hrest

theorem flush (pairs : List (NodeId × NodeId)) (h : d.Tended order live (pairs ++ pending)) :
    (pairs.foldl (fun d pair => Document.edit (.insertAfter pair.1 pair.2) d) d).Tended order live
      pending := by
  induction pairs generalizing d with
  | nil => exact h
  | cons pair rest ih => exact ih (h.join rfl)

/-- What a machine does leaves the document tended, with the nodes and insertions of others as they
are. -/
theorem deed {m m' : Machine NodeId} {d' : Document} (hdeed : Machine.Deed m m' d d')
    (h : ∃ order, d.Tended order (m.table.nodes ++ live) (m.deferred ++ pending)) :
    ∃ order, d'.Tended order (m'.table.nodes ++ live) (m'.deferred ++ pending) := by
  obtain ⟨order, h⟩ := h
  cases hdeed with
  | idle htable hdeferred => exact ⟨order, by rwa [htable, hdeferred]⟩
  | create request htable hdeferred =>
    rw [htable, hdeferred]
    exact ⟨order, h.create (contentOf request)⟩
  | edit he hnodes htable hdeferred =>
    rw [htable, hdeferred]
    obtain ⟨extra, hextra⟩ := h.edit he fun id hid => List.mem_append_left live (hnodes id hid)
    exact ⟨order ++ extra, hextra⟩
  | @join e pair he hc hdeferred =>
    obtain ⟨⟨rest, hnodes, hnodes'⟩, -⟩ := SlotTable.nodes_of_consume? hc
    rw [hnodes] at h
    rw [hnodes', hdeferred]
    exact ⟨order ++ [pair.2], h.take.join he⟩
  | @putOff pair hc hdeferred =>
    obtain ⟨⟨rest, hnodes, hnodes'⟩, -⟩ := SlotTable.nodes_of_consume? hc
    rw [hnodes] at h
    rw [hnodes', hdeferred]
    refine ⟨order ++ [pair.2], h.take.mono (.refl _) ?_⟩
    rw [List.append_assoc]
    exact List.perm_middle.subset
  | flush htable hdeferred =>
    rw [htable, hdeferred]
    exact ⟨order, h.flush m.deferred⟩

end Tended

end Document

namespace Workshop

variable {w : Workshop Document NodeId}

/-- A document in a workshop is tended. -/
def Tended (w : Workshop Document NodeId) : Prop := ∃ order, w.host.Tended order w.live w.pending

/-- One of many, and the others, which stay when that one is changed. -/
theorem exists_others {α : Type} {xs : List α} {i : Nat} {x : α} (h : xs[i]? = some x) :
    ∃ others, xs.Perm (x :: others) ∧ ∀ y, (xs.set i y).Perm (y :: others) := by
  obtain ⟨hlt, hget⟩ := List.getElem?_eq_some_iff.mp h
  refine ⟨xs.take i ++ xs.drop (i + 1), ?_, fun y => ?_⟩
  · conv_lhs => rw [← List.take_append_drop i xs, List.drop_eq_getElem_cons hlt, hget]
    exact List.perm_middle
  · rw [List.set_eq_take_append_cons_drop, if_pos hlt]
    exact List.perm_middle

theorem Tended.set (h : w.Tended) {machine : Nat} {m m' : Machine NodeId} {d' : Document}
    (hm : w.machines[machine]? = some m)
    (hkeeps : ∀ P : Machine NodeId → Document → Prop,
      (∀ k k' d d', Machine.Deed k k' d d' → P k d → P k' d') → P m w.host → P m' d') :
    Tended ⟨d', w.machines.set machine m'⟩ := by
  obtain ⟨others, hmachines, hset⟩ := exists_others hm
  let nodes (m : Machine NodeId) : List NodeId := m.table.nodes
  let kept (m : Machine NodeId) (d : Document) : Prop :=
    ∃ order, d.Tended order (nodes m ++ others.flatMap nodes)
      (m.deferred ++ others.flatMap Machine.deferred)
  have hbefore : kept m w.host := by
    obtain ⟨order, h⟩ := h
    exact ⟨order, h.mono (hmachines.flatMap_right nodes).symm
      (hmachines.flatMap_right Machine.deferred).symm.subset⟩
  obtain ⟨order, hafter⟩ :=
    hkeeps kept (fun _ _ _ _ hdeed => Document.Tended.deed hdeed) hbefore
  exact ⟨order, hafter.mono ((hset _).flatMap_right nodes)
    ((hset _).flatMap_right Machine.deferred).subset⟩

theorem Tended.take (h : w.Tended) (turn : Turn) : (w.take turn).Tended := by
  cases turn with
  | start program defersSiblings settings registry =>
    obtain ⟨order, h⟩ := h
    refine ⟨order, h.mono ?_ ?_⟩
    · simp [Workshop.take, live, Machine.start, SlotTable.nodes, SlotTable.empty]
    · simp [Workshop.take, pending, Machine.start]
  | ask machine request =>
    simp only [Workshop.take]
    cases hm : w.machines[machine]? with
    | none => exact h
    | some m =>
      exact h.set hm fun P hdeed => Machine.perform_keeps hdeed request m w.host

theorem Tended.after (h : w.Tended) (turns : List Turn) : (w.after turns).Tended := by
  induction turns generalizing w with
  | nil => exact h
  | cons turn rest ih => exact ih (h.take turn)

/-- **Machines make forests.** Let machines start on a document that was empty, any number of them
and at any time, with any programs, and let them be fed, given operands, asked for operands, run and
flushed in any order, whether or not they fail. Then no node is above itself, and what a node and
all below it show can be read for every node, and for the fragment. -/
theorem acyclic_and_readable (defersSiblings : Bool) (turns : List Turn) :
    let d := (Workshop.after ⟨({ defersSiblings } : Document), []⟩ turns).host
    (∀ id, ¬ Relation.TransGen (fun c p => (d.node c).parent = some p) id id) ∧
      (∀ id < d.size, (d.html? id).isSome ∧ (d.textContent? id).isSome) ∧
      d.fragmentHtml?.isSome := by
  have hempty : Tended ⟨{ defersSiblings }, []⟩ :=
    ⟨[], .empty defersSiblings, .nil, List.forall_mem_nil _, List.forall_mem_nil _⟩
  obtain ⟨order, h⟩ := hempty.after turns
  intro d
  refine ⟨h.forest.not_above_itself, fun id hid => ?_, h.forest.isSome_fragmentHtml?⟩
  rw [Document.html?, Document.textContent?, Option.isSome_map, Option.isSome_map]
  exact ⟨h.forest.isSome_markup? hid, h.forest.isSome_markup? hid⟩

/-- A text is put beside another that is then put in a list. A second machine fails before the first
makes the insertion, which takes the text to the list too. -/
theorem acyclic_and_readable_late_sibling :
    let turns : List Turn :=
      [.start [1, 2, 117, 108, 6, 1, 97, 6, 1, 98, 12, 3] true {} 0, .ask 0 .run,
        .start [6, 1, 99, 3] false {} 1, .ask 1 .run, .ask 0 .flush]
    let d := (Workshop.after ⟨({ defersSiblings := true } : Document), []⟩ turns).host
    0 < d.size ∧ (d.html? 0).isSome ∧ d.html? 0 = some "<ul>ab</ul>" ∧ (d.node 2).parent = some 0 ∧
      ¬ Relation.TransGen (fun c p => (d.node c).parent = some p) 2 2 := by
  intro turns d
  obtain ⟨hacyclic, hreadable, -⟩ := acyclic_and_readable true turns
  have hsize : 0 < d.size := by decide +kernel
  exact ⟨hsize, (hreadable 0 hsize).1, by decide +kernel, by decide +kernel, hacyclic 2⟩

end Workshop

end TreeCode
