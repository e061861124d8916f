import TreeCode.Proofs.Session.Postponing

/-!
# Insertions that are lost

A session makes the insertions that its machine put off when the run is over, and where an
instruction failed it never gets there: they are lost with the machine. So a session that puts
siblings off makes the insertions that another makes at once just where nothing failed behind them
(`insertions_made_iff`). That the program is unfinished is no failure of this kind.
-/

namespace TreeCode

variable {α ν : Type}

/-- Whether a session answers that an instruction of its program failed, or could not be read. -/
def failed : Except Error α → Bool
  | .ok _ => false
  | .error e => e.raised

def Call.insertions (calls : List (Call ν)) : List (Call ν) := calls.filter Call.isInsertion

theorem Call.insertions_append (calls more : List (Call ν)) :
    insertions (calls ++ more) = insertions calls ++ insertions more := List.filter_append ..

namespace Session

variable {σ : Type} [Host σ ν] {s : Session σ} {program : List UInt8} {ran : Outcome σ ν RunState}

theorem host_run_of_error {e : Error} (hran : (s.machine program : Machine ν).run s.host = ran)
    (hresult : ran.result = .error e) : (s.run program).2.1.host = ran.host := by
  simp only [run, hran, hresult]

theorem failed_run_of_ok {state : RunState} (hran : (s.machine program : Machine ν).run s.host = ran)
    (hresult : ran.result = .ok state) : failed (s.run program).1 = false := by
  rw [(run_of_ok hran hresult).1]
  split <;> rfl

theorem failed_run_of_error {e : Error} (hran : (s.machine program : Machine ν).run s.host = ran)
    (hresult : ran.result = .error e) : failed (s.run program).1 = true := by
  have hraised : e.raised := Machine.raised_of_runOn ((congrArg Outcome.result hran).trans hresult)
  rw [run_of_error hran hresult]
  exact hraised

end Session

namespace Machine

variable {pairs : List (Nat × Nat)} {s t : Traced Numbering Nat}

theorem AskedLess.insertions_eq_nil (h : AskedLess pairs s t) : Call.insertions t.calls = [] := by
  rw [Call.insertions, h.calls, List.filter_filter, List.filter_eq_nil_iff]
  intro call _
  cases call.isInsertion <;> simp

theorem AskedLess.others_eq (h : AskedLess pairs s t) :
    t.calls.filter (!·.isInsertion) = s.calls.filter (!·.isInsertion) := by
  rw [h.calls, List.filter_filter]
  simp

end Machine

namespace Session

open Machine (AskedLess bears_askedLess)

/-- The session with a host that goes on numbering the nodes, keeps its calls from now on, and puts
siblings off or not. -/
def recording (s : Session Numbering) (defersSiblings : Bool) : Session (Traced Numbering Nat) :=
  { s with host := ⟨{ s.host with defersSiblings }, []⟩ }

/-- When nothing failed, the session that puts siblings off makes the insertions in the flush. -/
theorem insertions_flush {kept put : Outcome (Traced Numbering Nat) Nat RunState}
    (h : Abreast (fun _ => AskedLess) kept put) :
    (kept.machine.flush kept.host).host = kept.host ∧
      (put.machine.flush put.host).host.calls =
        put.host.calls ++ kept.host.calls.filter Call.isInsertion := by
  obtain ⟨pairs, hmachine, hless⟩ := h.hosts
  refine ⟨h.prompt.host_flush kept.host, ?_⟩
  rw [← hless.insertions, hmachine]
  exact Machine.calls_flush pairs put.host

/-- **Which insertions are made.** A session runs a program with a host that keeps its calls, once
so that siblings are put off and once so that they are not. Both times it answers the same and makes
the same calls but for insertions. Putting siblings off it makes the same insertions too, in the same
order, unless an instruction failed or could not be read: then it makes none. So the insertions of
both are the same just where nothing failed or there were none to be made. -/
theorem insertions_made_iff (s : Session Numbering) (program : List UInt8) :
    let ran (defersSiblings : Bool) := (s.recording defersSiblings).run program
    let calls (defersSiblings : Bool) := (ran defersSiblings).2.1.host.calls
    (ran true).1 = (ran false).1 ∧
      (calls true).filter (!·.isInsertion) = (calls false).filter (!·.isInsertion) ∧
      Call.insertions (calls true) =
        (if failed (ran false).1 then [] else Call.insertions (calls false)) ∧
      ((Call.insertions (calls true)).Perm (Call.insertions (calls false)) ↔
        failed (ran false).1 = false ∨ Call.insertions (calls false) = []) := by
  intro ran calls
  let m : Machine Nat := (s.recording false).machine program
  let kept := m.run (s.recording false).host
  let put := ((s.recording true).machine program : Machine Nat).run (s.recording true).host
  have hkept : m.run (s.recording false).host = kept := rfl
  have hput : ((s.recording true).machine program : Machine Nat).run (s.recording true).host =
      put := rfl
  have habreast : Abreast (fun _ => AskedLess) kept put :=
    Machine.abreast_runOn bears_askedLess m.remaining m _ ⟨rfl, rfl⟩ (s.recording true).host []
      ⟨rfl, rfl, rfl⟩
  obtain ⟨pairs, hmachine, hless⟩ := habreast.hosts
  cases hend : kept.result with
  | ok state =>
    have hend' : put.result = .ok state := habreast.result.trans hend
    obtain ⟨hanswer, hhost⟩ := run_of_ok hkept hend
    obtain ⟨hanswer', hhost'⟩ := run_of_ok hput hend'
    obtain ⟨hflush, hflush'⟩ := insertions_flush habreast
    have hcalls : calls false = kept.host.calls := congrArg Traced.calls (hhost.trans hflush)
    have hcalls' : calls true = put.host.calls ++ kept.host.calls.filter Call.isInsertion :=
      (congrArg Traced.calls hhost').trans hflush'
    have hinsertions : Call.insertions (calls true) = Call.insertions (calls false) := by
      rw [hcalls', Call.insertions_append, hless.insertions_eq_nil, hcalls]
      simp [Call.insertions]
    have hfailed : failed (ran false).1 = false := failed_run_of_ok hkept hend
    refine ⟨?_, ?_, ?_, ?_⟩
    · change ((s.recording true).run program).1 = ((s.recording false).run program).1
      rw [hanswer, hanswer', hmachine]
      rfl
    · rw [hcalls', List.filter_append, hless.others_eq, hcalls]
      simp
    · rw [hinsertions, hfailed]
      rfl
    · rw [hinsertions, hfailed]
      simp
  | error e =>
    have hend' : put.result = .error e := habreast.result.trans hend
    have hcalls : calls false = kept.host.calls :=
      congrArg Traced.calls (host_run_of_error hkept hend)
    have hcalls' : calls true = put.host.calls :=
      congrArg Traced.calls (host_run_of_error hput hend')
    have hinsertions : Call.insertions (calls true) = [] := by rw [hcalls', hless.insertions_eq_nil]
    have hfailed : failed (ran false).1 = true := failed_run_of_error hkept hend
    refine ⟨?_, ?_, ?_, ?_⟩
    · exact (run_of_error hput hend').trans (run_of_error hkept hend).symm
    · rw [hcalls', hcalls, hless.others_eq]
    · rw [hinsertions, hfailed]
      rfl
    · rw [hinsertions, hfailed, List.nil_perm]
      simp

/-- A text is put beside another, and an append then fails. The insertion is not made when siblings
are put off. -/
theorem insertion_lost :
    let s : Session Numbering := { host := {} }
    let program : List UInt8 := [6, 1, 97, 6, 1, 98, 12, 3]
    let ran (defersSiblings : Bool) := (s.recording defersSiblings).run program
    let insertions (defersSiblings : Bool) := Call.insertions (ran defersSiblings).2.1.host.calls
    (ran true).1 = .error (.noPair none (some 0)) ∧
      insertions false = [.edit (.insertAfter 0 1)] ∧
      ¬ (insertions true).Perm (insertions false) := by
  decide +kernel

end Session

end TreeCode
