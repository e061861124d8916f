import TreeCode.Proofs.Machine.Workshop
import TreeCode.Proofs.Session.Postponing

/-!
# What a run leaves in the fragment

On a document that puts no siblings off, the fragment fills by insertions and by nothing else. A live
node is in it just where another was put beside it (`Shown`), be the insertion long ago and other
nodes created since; and once a node was inserted, the fragment is never empty again, for the node
stays in it. A run keeps that (`Displays.runOn`), and so what a session leaves of an empty document is
known from the calls (`exists_of_run`).
-/

namespace TreeCode

variable {ν : Type}

/-- The nodes beside which calls put others. -/
def Call.siblings (calls : List (Call ν)) : List ν := calls.filterMap Call.sibling?

theorem Call.siblings_append (calls more : List (Call ν)) :
    siblings (calls ++ more) = siblings calls ++ siblings more := List.filterMap_append ..

theorem Call.siblings_create (calls : List (Call ν)) (request : Creation) (node : ν) :
    siblings (calls ++ [.create request node]) = siblings calls := by
  rw [siblings_append]
  exact List.append_nil _

theorem Call.siblings_edit (calls : List (Call ν)) {e : Edit ν}
    (he : ∀ s c, e ≠ .insertAfter s c) : siblings (calls ++ [.edit e]) = siblings calls := by
  rw [siblings_append]
  cases e with
  | insertAfter s c => exact absurd rfl (he s c)
  | _ => exact List.append_nil _

namespace Document

variable {d : Document} {c p s : NodeId} {siblings live : List NodeId}

/-- The fragment after nodes were put beside `siblings`: of the live nodes it holds these, and it is
empty only if there are none. -/
structure Shown (d : Document) (siblings live : List NodeId) : Prop where
  lt_size : ∀ id ∈ siblings, id < d.size
  mem_iff : ∀ id ∈ live, id ∈ d.fragment ↔ id ∈ siblings
  /-- What was put beside a node is not live, and stays in the fragment. -/
  exists_mem : siblings ≠ [] → ∃ id ∈ d.fragment, id ∉ live
  eq_nil : siblings = [] → d.fragment = []

namespace Shown

theorem create (h : d.Shown siblings live) (howns : d.OwnsFragment) (content : Content) :
    (d.create content).2.Shown siblings (d.size :: live) where
  lt_size id hid := by
    rw [size_create]
    exact Nat.lt_succ_of_lt (h.lt_size id hid)
  mem_iff := by
    rw [List.forall_mem_cons]
    refine ⟨⟨fun hmem => ?_, fun hmem => ?_⟩, h.mem_iff⟩
    · exact absurd (howns _ hmem) (Nat.lt_irrefl _)
    · exact absurd (h.lt_size _ hmem) (Nat.lt_irrefl _)
  exists_mem hne := by
    obtain ⟨id, hid, hlive⟩ := h.exists_mem hne
    refine ⟨id, hid, fun hmem => ?_⟩
    -- The new node cannot be the one in the fragment, which was there before.
    rcases List.mem_cons.mp hmem with rfl | hmem
    · exact absurd (howns _ hid) (Nat.lt_irrefl _)
    · exact hlive hmem
  eq_nil := h.eq_nil

theorem edit (h : d.Shown siblings live) (howns : d.OwnsFragment) {e : Edit NodeId}
    (he : e.joined? = none) (hroots : d.Roots e.nodes) :
    (Document.edit e d).Shown siblings live := by
  have hfragment := fragment_edit_of_roots howns he hroots
  refine ⟨fun id hid => ?_, ?_, ?_, ?_⟩
  · exact Nat.lt_of_lt_of_le (h.lt_size id hid) (size_le_edit d he hroots)
  · rw [hfragment]
    exact h.mem_iff
  · rw [hfragment]
    exact h.exists_mem
  · rw [hfragment]
    exact h.eq_nil

theorem appendChild (h : d.Shown siblings (c :: live)) (hnodup : (c :: live).Nodup) (p : NodeId) :
    (d.appendChild p c).Shown siblings live := by
  have hfragment : (d.appendChild p c).fragment = d.fragment.filter (· ≠ c) := fragment_detach d c
  have hc : c ∉ live := (List.nodup_cons.mp hnodup).1
  refine ⟨?_, fun id hid => ?_, fun hne => ?_, fun hnil => ?_⟩
  · rw [size_appendChild]
    exact h.lt_size
  · have hidc : id ≠ c := fun heq => hc (heq ▸ hid)
    rw [hfragment, ← h.mem_iff id (List.mem_cons_of_mem c hid)]
    simp [hidc]
  · obtain ⟨id, hid, hlive⟩ := h.exists_mem hne
    have hidc : id ≠ c := List.ne_of_not_mem_cons hlive
    refine ⟨id, ?_, List.not_mem_of_not_mem_cons hlive⟩
    rw [hfragment]
    simp [hid, hidc]
  · rw [hfragment, h.eq_nil hnil]
    rfl

theorem insertAfter (h : d.Shown siblings (c :: s :: live)) (hnodup : (c :: s :: live).Nodup)
    (hroot : s < d.size ∧ (d.node s).parent = none) :
    (d.insertAfter s c).Shown (siblings ++ [s]) (s :: live) := by
  have hc : c ∉ s :: live := (List.nodup_cons.mp hnodup).1
  have hfragment : (d.insertAfter s c).fragment = beside (d.fragment.filter (· ≠ c)) (s, c) :=
    fragment_insertAfter_of_root hroot.2 (List.ne_of_not_mem_cons hc).symm
  refine ⟨?_, fun id hid => ?_, fun _ => ⟨c, ?_, hc⟩, fun hnil => ?_⟩
  · rw [size_insertAfter, List.forall_mem_append]
    exact ⟨h.lt_size, by simpa using hroot.1⟩
  · have hidc : id ≠ c := fun heq => hc (heq ▸ hid)
    rw [hfragment, mem_beside, List.mem_append, ← h.mem_iff id (List.mem_cons_of_mem c hid)]
    simp [hidc]
  · rw [hfragment, mem_beside]
    exact .inr (.inr rfl)
  · simp at hnil

end Shown

end Document

namespace Session

open Document (Tended Shown)
open Machine (Deed Prompt)

variable {m m' : Machine NodeId} {t t' : Traced Document NodeId}

/-- The machine has put nothing off, its document is tended, and the fragment shows the nodes beside
which it put others. -/
structure Displays (m : Machine NodeId) (t : Traced Document NodeId) : Prop where
  prompt : m.Prompt
  tended : ∃ order, t.host.Tended order m.table.nodes []
  shown : t.host.Shown (Call.siblings t.calls) m.table.nodes

theorem Displays.deed (h : Displays m t) (hm' : m'.Prompt) (hdeed : Deed m m' t t') :
    Displays m' t' := by
  obtain ⟨order, htended⟩ := h.tended
  have htended' : ∃ order, t'.host.Tended order m'.table.nodes [] := by
    have hbefore : t.host.Tended order (m.table.nodes ++ []) (m.deferred ++ []) := by
      rwa [h.prompt.deferred, List.append_nil]
    obtain ⟨order', hafter⟩ := Tended.deed hdeed.untraced ⟨order, hbefore⟩
    rw [hm'.deferred, List.append_nil] at hafter
    exact ⟨order', hafter⟩
  -- A live node has no parent, so what is put beside it goes to the fragment.
  have hroot (id : NodeId) (hid : id ∈ m.table.nodes) :
      id < t.host.size ∧ (t.host.node id).parent = none :=
    ⟨(htended.free id hid).1, htended.forest.parent_eq_none (htended.free id hid).2⟩
  have hshown := h.shown
  refine ⟨hm', htended', ?_⟩
  cases hdeed with
  | idle htable _ => rwa [htable]
  | create request htable _ =>
    rw [htable, Machine.calls_create, Call.siblings_create]
    exact hshown.create htended.forest.ownsFragment (Document.contentOf request)
  | @edit e he hnodes htable _ =>
    rw [htable, Machine.calls_edit, Call.siblings_edit _ fun s c hi => by rw [hi] at he; cases he]
    exact hshown.edit htended.forest.ownsFragment he fun id hid => hroot id (hnodes id hid)
  | @join e pair he hc _ =>
    obtain ⟨⟨rest, hnodes, hnodes'⟩, -⟩ := SlotTable.nodes_of_consume? hc
    have hnodup := htended.nodup
    rw [hnodes] at hshown hnodup
    rw [hnodes', Machine.calls_edit]
    cases e <;> cases he
    case appendChild.refl p c =>
      rw [Call.siblings_edit _ fun s c hi => by cases hi]
      exact hshown.appendChild hnodup p
    case insertAfter.refl s c =>
      rw [Call.siblings_append]
      exact hshown.insertAfter hnodup (hroot s (by simp [hnodes]))
  | putOff _ hdeferred =>
    rw [hm'.deferred] at hdeferred
    simp at hdeferred
  | flush htable _ =>
    rw [htable, h.prompt.deferred]
    exact hshown

theorem displays_start (program : List UInt8) (settings : Settings) (registry : RegistryId) :
    Displays (Machine.start program false settings registry) ⟨({} : Document), []⟩ where
  prompt := ⟨rfl, rfl⟩
  tended := ⟨[], .empty false, .nil, List.forall_mem_nil _, List.forall_mem_nil _⟩
  shown := ⟨List.forall_mem_nil _, List.forall_mem_nil _, fun hne => absurd rfl hne, fun _ => rfl⟩

theorem Displays.runOn (h : Displays m t) (bytes : List UInt8) :
    Displays (Machine.runOn bytes m t).machine (Machine.runOn bytes m t).host := by
  refine Machine.runOn_preserves ?_ ?_ bytes m t h
  · intro m t program place h
    exact ⟨h.prompt.relocate program place, h.tended, h.shown⟩
  · intro i m t h
    exact h.deed (h.prompt.execute i t) (Machine.deed_execute i m t)

/-- What a live node shows can be read, and what the fragment shows. -/
theorem Displays.isSome_html? (h : Displays m t) {id : NodeId} (hid : id ∈ m.table.nodes) :
    (t.host.html? id).isSome ∧ t.host.fragmentHtml?.isSome := by
  obtain ⟨order, htended⟩ := h.tended
  refine ⟨?_, htended.forest.isSome_fragmentHtml?⟩
  rw [Document.html?, Option.isSome_map]
  exact htended.forest.isSome_markup? (htended.free id hid).1

/-- What a session leaves when it answers the root of a program that it ran on an empty document. The
root is one of the live nodes, and it can be read as well as the fragment. -/
theorem exists_of_run {program : List UInt8} {root : NodeId} (s : Session Document)
    (hs : s.host = {}) (hrun : (s.run program).1 = .ok (some root)) :
    let d := (s.run program).2.1.host
    (d.html? root).isSome ∧ d.fragmentHtml?.isSome ∧
      ∃ live, root ∈ live ∧ d.Shown (Call.siblings (s.calls program)) live := by
  intro d
  obtain ⟨host, registry, queue, settings⟩ := s
  subst hs
  let s : Session Document := ⟨{}, registry, queue, settings⟩
  let m : Machine NodeId := s.machine program
  let traced := m.run (⟨s.host, []⟩ : Traced Document NodeId)
  have huntraced : m.run s.host = traced.untraced :=
    (Machine.untraced_runOn m.remaining m ⟨s.host, []⟩).symm
  obtain ⟨state, hend⟩ := exists_result_eq_ok huntraced (.inl ⟨some root, hrun⟩)
  obtain ⟨hanswer, hhost⟩ := run_of_ok huntraced hend
  have hdisplays : Displays traced.machine traced.host :=
    (displays_start program settings registry).runOn m.remaining
  have hd : d = traced.host.host := hhost.trans (hdisplays.prompt.host_flush _)
  have hroot : traced.machine.root? = some root := by
    rw [hanswer] at hrun
    split at hrun
    · cases hrun
    · exact Except.ok.inj hrun
  have hlive : root ∈ traced.machine.table.nodes := by
    obtain ⟨entry, hentry, rfl⟩ := Option.map_eq_some_iff.mp hroot
    exact SlotTable.mem_nodes_of_newest? hentry
  obtain ⟨hhtml, hfragment⟩ := hdisplays.isSome_html? hlive
  rw [hd]
  exact ⟨hhtml, hfragment, _, hlive, hdisplays.shown⟩

end Session

end TreeCode
