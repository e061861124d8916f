import TreeCode.Proofs.Tree.Building
import TreeCode.Proofs.Tree.Sketch
import TreeCode.Proofs.Tree.Writing
import TreeCode.Session

/-!
# Running trees in a session

A session that runs the program of a tree on a document adds the tree to it (`run_encode`): its
machine is the plain machine, and the program lists as the programs of the outlines that the tree
shows.
-/

namespace TreeCode

open Outline (idsFrom)

variable {σ ν : Type}

theorem Outcome.of_plain_eq_ok {α : Type} {o : Outcome σ ν α} {a : α} {live : Handles ν} {host : σ}
    (h : o.plain = .ok a (live, host)) :
    o.result = .ok a ∧ o.machine.handles = live ∧ o.host = host := by
  unfold Outcome.plain at h
  cases hr : o.result with
  | error e =>
    rw [hr] at h
    cases h
  | ok b =>
    rw [hr] at h
    cases h
    exact ⟨rfl, rfl, rfl⟩

theorem Machine.root?_eq (m : Machine ν) : m.root? = (m.table.live.map (·.2)).head? := by
  rw [root?, SlotTable.nodeTable_newest?, SlotTable.newest?, List.head?_map, List.head?_eq_getElem?]

theorem Machine.map_handles (m : Machine ν) : m.handles.map (·.2) = m.table.live.map (·.2) := by
  rw [handles, List.map_map]
  rfl

namespace Session

variable [Host σ ν]

theorem run_of_done {s : Session σ} {program : List UInt8}
    (hresult : ((s.machine program : Machine ν).run s.host).result = .ok .done)
    (hdeferred : ((s.machine program : Machine ν).run s.host).machine.deferred = []) :
    (s.run program).1 = .ok (((s.machine program : Machine ν).run s.host).machine.root?) ∧
      (s.run program).2.1 =
        { s with host := ((s.machine program : Machine ν).run s.host).host } := by
  simp only [run, hresult, Machine.flush, hdeferred]
  exact ⟨rfl, rfl⟩

/-- A program that was written from inward instructions runs as the plain machine executes them. -/
theorem plain_run_of_written {s : Session σ} {program : List UInt8}
    {is : List (Instruction String)} (hw : Written is program)
    (his : ∀ i ∈ is, Outline.Inward i) {live : Handles ν} {host : σ}
    (hx : Plain.executeAll s.registry 0 is ([], s.host) = .ok () (live, host)) :
    ((s.machine program : Machine ν).run s.host).plain = .ok .done (live, host) ∧
      ((s.machine program : Machine ν).run s.host).machine.deferred = [] := by
  obtain ⟨hitems, hending⟩ := hw.listing 0
  have hplain : ∀ item ∈ (Listing.ofBytes 0 program).items,
      (s.machine program : Machine ν).Plainly item.2 := by
    intro item hitem
    have hi : item.2 ∈ is := hitems ▸ List.mem_map_of_mem hitem
    exact ⟨(his _ hi).1, fun h => absurd h (his _ hi).2⟩
  obtain ⟨hrun, hdeferred⟩ :=
    Machine.plain_runOn program (s.machine program : Machine ν) s.host hplain
  refine ⟨hrun.trans ?_, hdeferred⟩
  change Plain.runFrom s.registry 0 (Listing.ofBytes 0 program) ([], s.host) = _
  rw [Plain.runFrom, hitems, hending]
  exact Plain.bind_of_ok hx

/-- **A session adds the tree whose program it runs.** A tree was made by any calls, as that of every
sketch is (`Sketch.shows_build`), and its program could be written. On any document that can be
reached, and whatever the sizes of the memories, the run succeeds. The document gains the outlines
that the tree shows, their listeners with the numbers that registering the callbacks answered, which
they look up in the registry of the session. The live nodes are the first nodes of the outlines, one
for each element or text that the tree stands for, and the run answers the last of them. -/
theorem run_encode {t : Tree} {outlines : List Outline} {program : List UInt8}
    (s : Session Document) (ht : t.Shows outlines) (hp : t.encode = .ok program)
    (hs : s.host.Reachable) :
    let ids := idsFrom s.host.size outlines
    let ran := (s.machine program : Machine NodeId).run s.host
    (s.run program).1 = .ok ids.getLast? ∧
      ran.machine.table.live.map (·.2) = ids.reverse ∧
      ids.length = t.flatten.length ∧
      s.host.Gains s.registry (s.run program).2.1.host outlines := by
  intro ids ran
  obtain ⟨live, hlive, hx⟩ := Plain.executeAll_programAll s.registry hs.ownsFragment
    (buildableAll_of_writes ht.writes) 0 []
  rw [List.append_nil] at hx
  obtain ⟨hplain, hdeferred⟩ := plain_run_of_written (Tree.written_encode ht hp)
    (Outline.inward_programAll outlines) hx
  obtain ⟨hresult, hhandles, hhost⟩ := Outcome.of_plain_eq_ok hplain
  obtain ⟨hanswer, hafter⟩ := run_of_done hresult hdeferred
  have hids : ran.machine.table.live.map (·.2) = ids.reverse := by
    rw [← Machine.map_handles, hhandles, hlive]
  refine ⟨?_, hids, ?_, ?_⟩
  · rw [hanswer, Machine.root?_eq, hids, List.head?_reverse]
  · rw [Outline.length_idsFrom, ← ht.writes.length_eq, Tree.length_steps]
  · rw [hafter, hhost]
    exact Document.gains_extend s.registry s.host outlines

/-- A section with two listeners holds a button that a group stands for. The document holds a text
before and puts siblings off. -/
theorem run_encode_section_with_button :
    let sketch : Sketch String := .container [.group [.button "go" [.listener "click" "start"]]]
      [.decorate (.attribute "id" "a"), .decorate (.listener "focus" "show"), .setTag .section]
    let r : Reactor Unit String := { embedder := () }
    let built := sketch.build 3 r
    let program : List UInt8 := [1, 7, 115, 101, 99, 116, 105, 111, 110, 2, 3, 105, 100, 11, 1, 97,
      1, 6, 98, 117, 116, 116, 111, 110, 6, 2, 103, 111, 10, 5, 99, 108, 105, 99, 107, 0, 3,
      10, 5, 102, 111, 99, 117, 115, 1, 3]
    let host : Document := (Host.create (.text "old") ({ defersSiblings := true } : Document)).2
    let s : Session Document := { host, registry := 3 }
    host.Reachable ∧ built.1.encode = .ok program ∧ (s.run program).1 = .ok (some 1) ∧
      (s.run program).2.1.host.size = 4 ∧
      (s.run program).2.1.host.node 1 =
        { content := .element "section" [("id", "a")] [], children := [2],
          listeners := [("focus", ⟨3, 1⟩)] } := by
  intro sketch r built program host s
  have hshows : built.1.Shows _ := Sketch.shows_build sketch r
  have hencode : built.1.encode = .ok program := by decide +kernel
  have hreachable : host.Reachable := .create _ (.empty true)
  obtain ⟨hanswer, -, -, hgains⟩ := run_encode s hshows hencode hreachable
  exact ⟨hreachable, hencode, hanswer, hgains.size, hgains.stand.1.1⟩

end Session

end TreeCode
