import TreeCode.Proofs.Document.Beside
import TreeCode.Proofs.Document.Contents
import TreeCode.Proofs.Machine.Postponing
import TreeCode.Session

/-!
# Sessions that put siblings off

A session makes the insertions that its machine put off when the program is over. Where no node
beside which another was put is put somewhere itself after that (`SiblingsStay`), nobody can tell:
the session answers as if nothing had been put off and leaves the same document
(`postponing_unseen`). Until the insertions are made, its document is one that awaits them
(`Waits`).
-/

namespace TreeCode

variable {ν : Type}

def Call.sibling? : Call ν → Option ν
  | .edit (.insertAfter sibling _) => some sibling
  | _ => none

/-- The node that a call puts under another or beside it. -/
def Call.child? : Call ν → Option ν
  | .edit e => e.joined?.map (·.2)
  | .create _ _ => none

/-- No node beside which another was put is put somewhere itself later. -/
def SiblingsStay (calls : List (Call ν)) : Prop :=
  calls.Pairwise fun earlier later => ∀ sibling ∈ earlier.sibling?, sibling ∉ later.child?

instance [DecidableEq ν] (calls : List (Call ν)) : Decidable (SiblingsStay calls) :=
  inferInstanceAs (Decidable (List.Pairwise _ calls))

theorem siblingsStay_snoc {calls : List (Call ν)} {call : Call ν} :
    SiblingsStay (calls ++ [call]) ↔ SiblingsStay calls ∧
      ∀ earlier ∈ calls, ∀ sibling ∈ earlier.sibling?, sibling ∉ call.child? := by
  simp only [SiblingsStay, List.pairwise_append, List.pairwise_singleton, List.forall_mem_singleton,
    true_and]

namespace Session

open Document (Awaiting contentOf)
open Machine (Prompt)

/-- The second document has not had some insertions that were made in the first, and is otherwise
the same, if siblings stay. -/
structure Waits (t : SlotTable NodeId) (pairs : List (NodeId × NodeId)) (s : Traced Document NodeId)
    (b : Document) : Prop where
  alike : s.host.Alike b
  made : ∀ pair ∈ pairs, Call.insertion pair ∈ s.calls
  awaiting : SiblingsStay s.calls → Awaiting t.nodes pairs s.host b

namespace Waits

variable {t : SlotTable NodeId} {pairs : List (NodeId × NodeId)} {s : Traced Document NodeId}
  {b : Document} {call : Call NodeId} {child : NodeId}

theorem made_snoc (h : Waits t pairs s b) (call : Call NodeId) :
    ∀ pair ∈ pairs, Call.insertion pair ∈ s.calls ++ [call] :=
  fun pair hpair => List.mem_append_left _ (h.made pair hpair)

theorem ne_child (h : Waits t pairs s b) (hstay : SiblingsStay (s.calls ++ [call]))
    (hchild : call.child? = some child) : ∀ pair ∈ pairs, pair.1 ≠ child := by
  rintro pair hpair rfl
  exact (siblingsStay_snoc.mp hstay).2 _ (h.made pair hpair) pair.1 rfl hchild

end Waits

/-- The relation holds on condition of the calls made so far. That the documents are alike does not
depend on them, so that both give new nodes the same numbers in any case. -/
theorem bears_waits : Bears Waits where
  create {t pairs s b} request h := by
    have hnode : (Host.create request b).1 = (Host.create request s).1 := h.alike.size.symm
    refine ⟨hnode, h.alike.create _, h.made_snoc _, fun hstay => ?_⟩
    have hcreated := (h.awaiting (siblingsStay_snoc.mp hstay).1).create (contentOf request)
    rwa [← h.alike.size] at hcreated
  edit {t pairs s b e} h he hnodes := by
    refine ⟨h.alike.edit e, h.made_snoc _, fun hstay => ?_⟩
    exact (h.awaiting (siblingsStay_snoc.mp hstay).1).edit he hnodes
  append {t t' pairs s b parent child} h hc := by
    obtain ⟨⟨rest, hnodes, hnodes'⟩, -⟩ := SlotTable.nodes_of_consume? hc
    refine ⟨h.alike.edit (.appendChild parent child), h.made_snoc _, fun hstay => ?_⟩
    have hbefore := h.awaiting (siblingsStay_snoc.mp hstay).1
    rw [hnodes] at hbefore
    rw [hnodes']
    exact hbefore.appendChild (h.ne_child hstay rfl) parent
  insert {t t' pairs s b sibling child} h hc := by
    obtain ⟨⟨rest, hnodes, hnodes'⟩, -⟩ := SlotTable.nodes_of_consume? hc
    refine ⟨(Document.alike_insertAfter _ _ _).trans h.alike, ?_, fun hstay => ?_⟩
    · rw [List.forall_mem_append]
      exact ⟨h.made_snoc _, by simp [Call.insertion]⟩
    · have hbefore := h.awaiting (siblingsStay_snoc.mp hstay).1
      rw [hnodes] at hbefore
      rw [hnodes']
      exact hbefore.insertAfter (h.ne_child hstay rfl) List.mem_cons_self

/-! ## How a session ends a run -/

section

variable {σ : Type} [Host σ ν] {s : Session σ} {program : List UInt8} {ran : Outcome σ ν RunState}

theorem run_of_ok {state : RunState} (hran : (s.machine program : Machine ν).run s.host = ran)
    (hresult : ran.result = .ok state) :
    (s.run program).1 = (if state = .pending then .error (.unfinished ran.machine.place)
        else .ok ran.machine.root?) ∧
      (s.run program).2.1.host = (ran.machine.flush ran.host).host := by
  simp only [run, hran, hresult]
  exact ⟨rfl, trivial⟩

theorem run_of_error {e : Error} (hran : (s.machine program : Machine ν).run s.host = ran)
    (hresult : ran.result = .error e) : (s.run program).1 = .error e := by
  simp only [run, hran, hresult]

/-- A session that answers a root, or that the program is unfinished, has seen no instruction fail.
-/
theorem exists_result_eq_ok (hran : (s.machine program : Machine ν).run s.host = ran)
    (hanswer : (∃ root, (s.run program).1 = .ok root) ∨
      ∃ place, (s.run program).1 = .error (.unfinished place)) :
    ∃ state, ran.result = .ok state := by
  cases hresult : ran.result with
  | ok state => exact ⟨state, rfl⟩
  | error e =>
    have hraised : e.raised :=
      Machine.raised_of_runOn ((congrArg Outcome.result hran).trans hresult)
    rw [run_of_error hran hresult] at hanswer
    obtain ⟨root, h⟩ | ⟨place, h⟩ := hanswer
    · cases h
    · cases h
      cases hraised

end

/-! ## Runs that put siblings off -/

/-- The session with its document set to put siblings off. -/
def deferring (s : Session Document) : Session Document :=
  { s with host := { s.host with defersSiblings := true } }

def calls (s : Session Document) (program : List UInt8) : List (Call NodeId) :=
  ((s.machine program : Machine NodeId).run (⟨s.host, []⟩ : Traced Document NodeId)).host.calls

/-- **Putting siblings off is not seen.** A session runs a program on a document that puts no
siblings off, and no node beside which another was put is put under another or beside it later in
the run. Then a session that differs only in that its document has siblings put off gives the same
answer. If that is a root, or that the program is unfinished, it also leaves a document with the
same nodes, in all that they hold and are linked to, and with the same fragment. Of the links that
the document has before the run it matters only that the fragment holds nodes that are there. -/
theorem postponing_unseen {s : Session Document} {program : List UInt8}
    (howns : s.host.OwnsFragment) (hdefers : s.host.defersSiblings = false)
    (hstay : SiblingsStay (s.calls program)) :
    (s.deferring.run program).1 = (s.run program).1 ∧
      ((∃ root, (s.run program).1 = .ok root) ∨
          (∃ place, (s.run program).1 = .error (.unfinished place)) →
        (s.deferring.run program).2.1.host.nodes = (s.run program).2.1.host.nodes ∧
          (s.deferring.run program).2.1.host.fragment = (s.run program).2.1.host.fragment) := by
  let m : Machine NodeId := s.machine program
  let traced := m.run (⟨s.host, []⟩ : Traced Document NodeId)
  let put := (s.deferring.machine program : Machine NodeId).run s.deferring.host
  have hput : (s.deferring.machine program : Machine NodeId).run s.deferring.host = put := rfl
  have huntraced : m.run s.host = traced.untraced :=
    (Machine.untraced_runOn m.remaining m ⟨s.host, []⟩).symm
  have hwaits : Waits m.table [] ⟨s.host, []⟩ s.deferring.host :=
    ⟨.of_nodes_eq rfl, List.forall_mem_nil _, fun _ =>
      ⟨rfl, rfl, ⟨howns, .nil, List.forall_mem_nil _, List.forall_mem_nil _⟩,
        List.forall_mem_nil _⟩⟩
  obtain ⟨hresult, hprompt, later, hmachine, hlater⟩ : Abreast Waits traced put :=
    Machine.abreast_runOn bears_waits m.remaining m _ ⟨hdefers, rfl⟩ s.deferring.host [] hwaits
  have hawaiting := hlater.awaiting hstay
  -- The first machine has put nothing off, so its flush does nothing.
  have hflush : (traced.untraced.machine.flush traced.untraced.host).host = traced.host.host := by
    have hdeferred : traced.untraced.machine.deferred = [] := hprompt.deferred
    simp only [Machine.flush, hdeferred]
    rfl
  have hflush' : (put.machine.flush put.host).host =
      { put.host with fragment := traced.host.host.fragment } := by
    rw [hmachine]
    exact hawaiting.foldl_insertAfter
  refine ⟨?_, fun hanswer => ?_⟩
  · cases hend : traced.result with
    | error e =>
      rw [run_of_error huntraced hend, run_of_error hput (hresult.trans hend)]
    | ok state =>
      rw [(run_of_ok huntraced hend).1, (run_of_ok hput (hresult.trans hend)).1, hmachine]
      rfl
  · obtain ⟨state, hend⟩ := exists_result_eq_ok huntraced hanswer
    rw [(run_of_ok huntraced hend).2, (run_of_ok hput (hresult.trans hend)).2, hflush,
      hflush']
    exact ⟨hawaiting.nodes.symm, rfl⟩

/-- An element and then a text are put beside a paragraph, which gets a child in between, behind a
text that was in the fragment before. The program is unfinished. -/
theorem postponing_unseen_unfinished :
    let s : Session Document :=
      { host := { nodes := #[{ content := .text "x" }], fragment := [0] } }
    let program : List UInt8 := [1, 1, 112, 1, 1, 113, 12, 6, 1, 97, 3, 6, 1, 98, 12, 1, 9]
    s.host.OwnsFragment ∧ s.host.defersSiblings = false ∧ SiblingsStay (s.calls program) ∧
      (s.run program).1 = .error (.unfinished 15) ∧
      (s.deferring.run program).1 = .error (.unfinished 15) ∧
      (s.deferring.run program).2.1.host.fragment = [0, 1, 4, 2] ∧
      ((s.deferring.run program).2.1.host.node 1).children = [3] := by
  intro s program
  have howns : s.host.OwnsFragment := by simp [Document.OwnsFragment, Document.size, s]
  have hanswer : (s.run program).1 = .error (.unfinished 15) := by decide +kernel
  have hstay : SiblingsStay (s.calls program) := by decide +kernel
  have hfragment : (s.run program).2.1.host.fragment = [0, 1, 4, 2] := by decide +kernel
  have hchildren : ((s.run program).2.1.host.node 1).children = [3] := by decide +kernel
  obtain ⟨hsame, hequal⟩ := postponing_unseen howns rfl hstay
  obtain ⟨hnodes, hfragment'⟩ := hequal (.inr ⟨15, hanswer⟩)
  refine ⟨howns, rfl, hstay, hanswer, hsame.trans hanswer, hfragment'.trans hfragment, ?_⟩
  rw [Document.node, hnodes]
  exact hchildren

end Session

end TreeCode
