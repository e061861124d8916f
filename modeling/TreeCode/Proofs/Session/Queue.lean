import Mathlib.Data.List.Basic
import TreeCode.Proofs.Session.Firing

/-!
# The queue of a session

Programs come on the queue of a session one by one, and are run from it in the order they came
(`runs_in_order`). `Session.due` are the programs that a drain runs, `Session.runAll` is the session
after programs were run one after the other, and a `Ledger` keeps what came and what was run. A
drain leaves the programs behind those that were due, whether it ran out of its budget or of
programs or one of them failed (`runQueued_due`).
-/

namespace TreeCode

variable {σ ν : Type}

namespace Session

variable [Host σ ν] {s s' : Session σ}

/-- The session after programs were run one after the other, whether or not they failed. -/
def runAll (s : Session σ) (programs : List (List UInt8)) : Session σ :=
  programs.foldl (fun s program => (s.run program).2.1) s

def answers (s : Session σ) : List (List UInt8) → List (Except Error (Option ν))
  | [] => []
  | program :: rest => (s.run program).1 :: (s.run program).2.1.answers rest

/-- Programs run one after the other all succeed, and these are the roots that are answered. -/
def Yields (s : Session σ) (programs : List (List UInt8)) (roots : List ν) : Prop :=
  ∃ found : List (Option ν), s.answers programs = found.map .ok ∧ roots = found.filterMap id

/-- The programs that are run from a queue within a budget: up to the first that fails. -/
def dueOf (s : Session σ) : Nat → List (List UInt8) → List (List UInt8)
  | 0, _ => []
  | _ + 1, [] => []
  | budget + 1, program :: queue =>
    program :: match (s.run program).1 with
      | .error _ => []
      | .ok _ => (s.run program).2.1.dueOf budget queue

def due (s : Session σ) : List (List UInt8) := s.dueOf s.settings.runBudget s.queue

/-- Drains a session a number of times, up to the first that fails: all the roots. -/
def drains : Nat → Session σ → Except Error (List ν) × Session σ
  | 0, s => (.ok [], s)
  | n + 1, s =>
    match s.drain with
    | (.error e, s, _) => (.error e, s)
    | (.ok roots, s, _) =>
      let later := drains n s
      (later.1.map (roots ++ ·), later.2)

def withBudget (s : Session σ) (budget : Nat) : Session σ :=
  { s with settings := s.settings.withRunBudget budget }

/-! ## What a run depends on -/

/-- The sessions have the same host and registry, and make machines of the same sizes. -/
structure Agrees (s s' : Session σ) : Prop where
  host : s.host = s'.host
  registry : s.registry = s'.registry
  operandSlots : s.settings.operandSlots = s'.settings.operandSlots
  scratchBytes : s.settings.scratchBytes = s'.settings.scratchBytes

namespace Agrees

theorem machine_eq (h : s.Agrees s') (program : List UInt8) :
    (s.machine program : Machine ν) = s'.machine program := by
  simp only [machine, Machine.startOn, Machine.start, h.host, h.registry, h.operandSlots,
    h.scratchBytes]

theorem run (h : s.Agrees s') (program : List UInt8) :
    (s.run program).1 = (s'.run program).1 ∧
      (s.run program).2.1.Agrees (s'.run program).2.1 := by
  simp only [Session.run, h.machine_eq program, h.host]
  cases ((s'.machine program : Machine ν).run s'.host).result with
  | error e => exact ⟨rfl, rfl, h.registry, h.operandSlots, h.scratchBytes⟩
  | ok state => exact ⟨rfl, rfl, h.registry, h.operandSlots, h.scratchBytes⟩

theorem runAll (h : s.Agrees s') (programs : List (List UInt8)) :
    (s.runAll programs).Agrees (s'.runAll programs) := by
  induction programs generalizing s s' with
  | nil => exact h
  | cons program rest ih => exact ih (h.run program).2

theorem answers (h : s.Agrees s') (programs : List (List UInt8)) :
    s.answers programs = s'.answers programs := by
  induction programs generalizing s s' with
  | nil => rfl
  | cons program rest ih =>
    obtain ⟨hanswer, hafter⟩ := h.run program
    rw [Session.answers, Session.answers, hanswer, ih hafter]

end Agrees

theorem run_eq (s : Session σ) (program : List UInt8) :
    (s.run program).2.1 = { s with host := (s.run program).2.1.host } := by
  unfold run
  simp only
  split <;> rfl

theorem runAll_eq (s : Session σ) (programs : List (List UInt8)) :
    s.runAll programs = { s with host := (s.runAll programs).host } := by
  induction programs generalizing s with
  | nil => rfl
  | cons program rest ih =>
    change (s.run program).2.1.runAll rest =
      { s with host := ((s.run program).2.1.runAll rest).host }
    rw [ih, run_eq]

theorem runAll_append (s : Session σ) (front back : List (List UInt8)) :
    s.runAll (front ++ back) = (s.runAll front).runAll back := List.foldl_append

/-! ## Roots -/

variable {program : List UInt8} {programs : List (List UInt8)} {roots : List ν}

theorem yields_nil (s : Session σ) : s.Yields [] ([] : List ν) := ⟨[], rfl, rfl⟩

theorem yields_cons {root : Option ν} (h : (s.run program).1 = .ok root)
    (hrest : (s.run program).2.1.Yields programs roots) :
    s.Yields (program :: programs) (root.toList ++ roots) := by
  obtain ⟨found, hfound, rfl⟩ := hrest
  refine ⟨root :: found, ?_, ?_⟩
  · rw [answers, h, hfound]
    rfl
  · cases root <;> rfl

theorem exists_of_yields_cons (h : s.Yields (program :: programs) roots) :
    ∃ root rest, (s.run program).1 = .ok root ∧ (s.run program).2.1.Yields programs rest ∧
      roots = root.toList ++ rest := by
  obtain ⟨found, hfound, rfl⟩ := h
  cases found with
  | nil => cases hfound
  | cons root found =>
    obtain ⟨hroot, hrest⟩ := List.cons.inj hfound
    exact ⟨root, _, hroot, ⟨found, hrest, rfl⟩, by cases root <;> rfl⟩

theorem Agrees.yields (h : s.Agrees s') (hroots : s.Yields programs roots) :
    s'.Yields programs roots := by
  obtain ⟨found, hfound, hroots⟩ := hroots
  exact ⟨found, (h.answers programs).symm.trans hfound, hroots⟩

/-! ## A drain -/

variable {queue : List (List UInt8)} {budget : Nat}

theorem runQueued_of_error {e : Error} (h : (s.run program).1 = .error e) :
    s.runQueued (budget + 1) (program :: queue) =
      (.error e, { (s.run program).2.1 with queue }, (s.run program).2.2) := by
  rcases hrun : s.run program with ⟨result, after, log⟩
  obtain rfl : result = .error e := by rwa [hrun] at h
  simp only [runQueued, hrun]

theorem runQueued_of_ok {root : Option ν} (h : (s.run program).1 = .ok root) :
    s.runQueued (budget + 1) (program :: queue) =
      (((s.run program).2.1.runQueued budget queue).1.map fun ran =>
          (root.toList ++ ran.1, ran.2 + 1),
        ((s.run program).2.1.runQueued budget queue).2.1,
        (s.run program).2.2 ++ ((s.run program).2.1.runQueued budget queue).2.2) := by
  rcases hrun : s.run program with ⟨result, after, log⟩
  obtain rfl : result = .ok root := by rwa [hrun] at h
  simp only [runQueued, hrun]

theorem dueOf_of_error {e : Error} (h : (s.run program).1 = .error e) :
    s.dueOf (budget + 1) (program :: queue) = [program] := by
  simp only [dueOf, h]

theorem dueOf_of_ok {root : Option ν} (h : (s.run program).1 = .ok root) :
    s.dueOf (budget + 1) (program :: queue) =
      program :: (s.run program).2.1.dueOf budget queue := by
  simp only [dueOf, h]

/-- A drain leaves the programs behind those that were due, and the host as running these leaves
it. -/
theorem runQueued_due (s : Session σ) (budget : Nat) (queue : List (List UInt8)) :
    ∃ rest, queue = s.dueOf budget queue ++ rest ∧
      (s.runQueued budget queue).2.1 = { s.runAll (s.dueOf budget queue) with queue := rest } := by
  induction budget generalizing s queue with
  | zero => exact ⟨queue, rfl, rfl⟩
  | succ budget ih =>
    cases queue with
    | nil => exact ⟨[], rfl, rfl⟩
    | cons program queue =>
      cases h : (s.run program).1 with
      | error e =>
        rw [dueOf_of_error h, runQueued_of_error h]
        exact ⟨queue, rfl, rfl⟩
      | ok root =>
        obtain ⟨rest, hqueue, hafter⟩ := ih (s.run program).2.1 queue
        rw [dueOf_of_ok h, runQueued_of_ok h]
        exact ⟨rest, congrArg _ hqueue, hafter⟩

/-- Either all programs that were due succeeded, as many as the budget and the queue allow, or the
last of them failed. -/
theorem runQueued_result (s : Session σ) (budget : Nat) (queue : List (List UInt8)) :
    match (s.runQueued budget queue).1 with
    | .ok (roots, _) => (s.dueOf budget queue).length = min budget queue.length ∧
        s.Yields (s.dueOf budget queue) roots
    | .error e => ∃ front last roots, s.dueOf budget queue = front ++ [last] ∧
        s.Yields front roots ∧ ((s.runAll front).run last).1 = .error e ∧
        front.length < min budget queue.length := by
  induction budget generalizing s queue with
  | zero => exact ⟨by simp [dueOf], s.yields_nil⟩
  | succ budget ih =>
    cases queue with
    | nil => exact ⟨by simp [dueOf], s.yields_nil⟩
    | cons program queue =>
      cases h : (s.run program).1 with
      | error e =>
        rw [dueOf_of_error h, runQueued_of_error h]
        exact ⟨[], program, [], rfl, s.yields_nil, h, by simp⟩
      | ok root =>
        have hrest := ih (s.run program).2.1 queue
        rw [dueOf_of_ok h, runQueued_of_ok h]
        cases hresult : ((s.run program).2.1.runQueued budget queue).1 with
        | error e =>
          rw [hresult] at hrest
          obtain ⟨front, last, roots, hdue, hfront, hlast, hlength⟩ := hrest
          refine ⟨program :: front, last, _, congrArg _ hdue, yields_cons h hfront, hlast, ?_⟩
          simp only [List.length_cons]
          omega
        | ok ran =>
          rw [hresult] at hrest
          obtain ⟨hlength, hroots⟩ := hrest
          refine ⟨?_, yields_cons h hroots⟩
          simp only [List.length_cons, hlength]
          omega

theorem drain_eq (s : Session σ) :
    s.drain.1 = (s.runQueued s.settings.runBudget s.queue).1.map (·.1) ∧
      s.drain.2.1 = (s.runQueued s.settings.runBudget s.queue).2.1 := by
  unfold drain
  rcases s.runQueued s.settings.runBudget s.queue with ⟨_ | ⟨roots, runs⟩, after, log⟩ <;>
    exact ⟨rfl, rfl⟩

theorem drain_due (s : Session σ) :
    ∃ rest, s.queue = s.due ++ rest ∧ s.drain.2.1 = { s.runAll s.due with queue := rest } := by
  rw [(drain_eq s).2]
  exact runQueued_due s s.settings.runBudget s.queue

theorem drain_result (s : Session σ) :
    match s.drain.1 with
    | .ok roots => s.due.length = min s.settings.runBudget s.queue.length ∧ s.Yields s.due roots
    | .error e => ∃ front last roots, s.due = front ++ [last] ∧ s.Yields front roots ∧
        ((s.runAll front).run last).1 = .error e ∧
        front.length < min s.settings.runBudget s.queue.length := by
  have hresult := runQueued_result s s.settings.runBudget s.queue
  rw [(drain_eq s).1]
  cases hran : (s.runQueued s.settings.runBudget s.queue).1 with
  | error e => rwa [hran] at hresult
  | ok ran => rwa [hran] at hresult

/-! ## Drain after drain -/

theorem runQueued_of_yields (budget : Nat) (h : s.Yields queue roots) :
    ∃ first rest log, roots = first ++ rest ∧
      s.runQueued budget queue =
        (.ok (first, min budget queue.length),
          { s.runAll (queue.take budget) with queue := queue.drop budget }, log) ∧
      (s.runAll (queue.take budget)).Yields (queue.drop budget) rest := by
  induction budget generalizing s queue roots with
  | zero => exact ⟨[], roots, [], rfl, by simp [runQueued, runAll], h⟩
  | succ budget ih =>
    cases queue with
    | nil =>
      obtain ⟨found, hfound, rfl⟩ := h
      obtain rfl : found = [] := List.map_eq_nil_iff.mp hfound.symm
      exact ⟨[], [], [], rfl, rfl, s.yields_nil⟩
    | cons program queue =>
      obtain ⟨root, others, hroot, hothers, rfl⟩ := exists_of_yields_cons h
      obtain ⟨first, rest, log, rfl, hran, hrest⟩ := ih hothers
      refine ⟨root.toList ++ first, rest, (s.run program).2.2 ++ log, ?_, ?_, hrest⟩
      · rw [List.append_assoc]
      · rw [runQueued_of_ok hroot, hran]
        simp only [Except.map, List.length_cons, Nat.add_min_add_right]
        rfl

theorem drains_succ_of_ok {n : Nat} (h : s.drain.1 = .ok roots) :
    drains (n + 1) s =
      ((drains n s.drain.2.1).1.map (roots ++ ·), (drains n s.drain.2.1).2) := by
  rcases hdrain : s.drain with ⟨result, after, log⟩
  obtain rfl : result = .ok roots := by rwa [hdrain] at h
  simp only [drains, hdrain]

/-- As many drains as the budget needs for the queue run all of it, if all of it succeeds. -/
theorem drains_of_yields {n : Nat} (h : s.Yields s.queue roots)
    (hn : s.queue.length ≤ n * s.settings.runBudget) :
    (drains n s).1 = .ok roots ∧ (drains n s).2.host = (s.runAll s.queue).host ∧
      (drains n s).2.queue = [] := by
  induction n generalizing s roots with
  | zero =>
    have hqueue : s.queue = [] := List.length_eq_zero_iff.mp (by omega)
    rw [hqueue] at h
    obtain ⟨found, hfound, rfl⟩ := h
    obtain rfl : found = [] := List.map_eq_nil_iff.mp hfound.symm
    rw [hqueue]
    exact ⟨rfl, rfl, hqueue⟩
  | succ n ih =>
    obtain ⟨first, rest, log, rfl, hran, hrest⟩ := runQueued_of_yields s.settings.runBudget h
    obtain ⟨hresult, hafter⟩ := drain_eq s
    rw [hran] at hresult hafter
    have hagrees : (s.runAll (s.queue.take s.settings.runBudget)).Agrees s.drain.2.1 := by
      rw [hafter]
      exact ⟨rfl, rfl, rfl, rfl⟩
    have hqueue : s.drain.2.1.queue = s.queue.drop s.settings.runBudget := by rw [hafter]
    have hbudget : s.drain.2.1.settings.runBudget = s.settings.runBudget := by
      rw [hafter, s.runAll_eq]
    have hlength : s.drain.2.1.queue.length ≤ n * s.drain.2.1.settings.runBudget := by
      rw [hqueue, hbudget, List.length_drop]
      rw [Nat.succ_mul] at hn
      omega
    obtain ⟨hroots, hhost, hempty⟩ := ih (hqueue ▸ hagrees.yields hrest) hlength
    rw [drains_succ_of_ok hresult]
    refine ⟨by rw [hroots]; rfl, ?_, hempty⟩
    calc (drains n s.drain.2.1).2.host
        = (s.drain.2.1.runAll (s.queue.drop s.settings.runBudget)).host := by rw [hhost, hqueue]
      _ = ((s.runAll (s.queue.take s.settings.runBudget)).runAll
            (s.queue.drop s.settings.runBudget)).host := (hagrees.runAll _).host.symm
      _ = (s.runAll s.queue).host := by rw [← s.runAll_append, List.take_append_drop]

end Session

/-! ## Histories -/

/-- What can happen to a session on a document: a program is put on its queue, a callback is
registered, an event reaches a node and its callbacks run, or the queue is drained. -/
inductive Happening (κ : Type) where
  | push (program : List UInt8)
  | register (id : RegistryId) (callback : κ)
  | fire (node : NodeId) (event : String)
  | drain

/-- A session and its callbacks, with the programs that came on its queue and those that were run
from it. -/
structure Ledger (ε κ : Type) where
  session : Session Document
  reactor : Reactor ε κ
  pushed : List (List UInt8) := []
  executed : List (List UInt8) := []

namespace Ledger

open Session (Agrees)

variable {ε κ : Type} {l l' : Ledger ε κ} {s : Session Document}

/-- What a ledger that was opened on a session shows: the programs in the order they came, and the
host as running those that were run leaves it. -/
structure Sound (s : Session Document) (l : Ledger ε κ) : Prop where
  order : l.executed ++ l.session.queue = s.queue ++ l.pushed
  host : l.session.host = (s.runAll l.executed).host
  registry : l.session.registry = s.registry
  settings : l.session.settings = s.settings

theorem Sound.agrees (h : Sound s l) : l.session.Agrees (s.runAll l.executed) := by
  refine ⟨h.host, ?_, ?_, ?_⟩
  · rw [h.registry, s.runAll_eq]
  · rw [h.settings, s.runAll_eq]
  · rw [h.settings, s.runAll_eq]

variable [Embedder ε κ]

/-- Enters what happens. Programs that callbacks push come behind those on the queue; callbacks that
never end have no entry. -/
def enter (l : Ledger ε κ) : Happening κ → Option (Ledger ε κ)
  | .push program =>
    some { l with session := l.session.enqueue program, pushed := l.pushed ++ [program] }
  | .register id callback => some { l with reactor := (l.reactor.register id callback).2 }
  | .fire node event => do
    let (_, session, reactor) ← l.session.fire node event l.reactor
    return { l with session, reactor,
                    pushed := l.pushed ++ session.queue.drop l.session.queue.length }
  | .drain =>
    some { l with session := l.session.drain.2.1, executed := l.executed ++ l.session.due }

theorem Sound.enter (h : Sound s l) {happening : Happening κ} (he : l.enter happening = some l') :
    Sound s l' := by
  cases happening with
  | push program =>
    cases he
    refine ⟨?_, h.host, h.registry, h.settings⟩
    simp only [Session.enqueue, ← List.append_assoc, h.order]
  | register id callback =>
    cases he
    exact ⟨h.order, h.host, h.registry, h.settings⟩
  | fire node event =>
    obtain ⟨⟨count, session, reactor⟩, hfire, he⟩ := Option.bind_eq_some_iff.mp he
    cases he
    obtain ⟨pushed, rfl⟩ := Session.exists_queue_eq_of_fire hfire
    refine ⟨?_, h.host, h.registry, h.settings⟩
    rw [List.drop_left, ← List.append_assoc, h.order, List.append_assoc]
  | drain =>
    cases he
    obtain ⟨rest, hqueue, hafter⟩ := l.session.drain_due
    rw [hafter]
    refine ⟨?_, ?_, ?_, ?_⟩
    · rw [List.append_assoc, ← hqueue, h.order]
    · rw [s.runAll_append, ← (h.agrees.runAll _).host]
    · rw [l.session.runAll_eq]
      exact h.registry
    · rw [l.session.runAll_eq]
      exact h.settings

theorem Sound.enterAll (h : Sound s l) {happenings : List (Happening κ)}
    (he : happenings.foldlM Ledger.enter l = some l') : Sound s l' := by
  induction happenings generalizing l with
  | nil =>
    cases he
    exact h
  | cons happening rest ih =>
    rw [List.foldlM_cons] at he
    obtain ⟨next, hnext, hrest⟩ := Option.bind_eq_some_iff.mp he
    exact ih (h.enter hnext) hrest

/-- **Programs run in order.** Programs are pushed on the queue of a session by whoever holds it and
by callbacks that events run, and the queue is drained, in any order. Then those that were run, with
those that are still on the queue behind them, are those that were pushed, in their order, and the
document is that which running them one after the other leaves. The next drain runs as many as its
budget and the queue allow and answers their roots in order, or it ends with the first that fails
and answers its error; the others stay on the queue in either case. If all on the queue succeed,
then whatever the budget is, drains enough to run them answer the same roots and leave the same
document. -/
theorem runs_in_order (s : Session Document) (r : Reactor ε κ) {happenings : List (Happening κ)}
    {l : Ledger ε κ} (h : happenings.foldlM Ledger.enter ⟨s, r, [], []⟩ = some l) :
    let t := l.session
    (l.executed ++ t.queue = s.queue ++ l.pushed ∧ t.host = (s.runAll l.executed).host) ∧
      (∃ rest, t.queue = t.due ++ rest ∧ t.drain.2.1.queue = rest ∧
        t.drain.2.1.host = (t.runAll t.due).host ∧
        match t.drain.1 with
        | .ok roots =>
          t.due.length = min t.settings.runBudget t.queue.length ∧ t.Yields t.due roots
        | .error e => ∃ front last roots, t.due = front ++ [last] ∧ t.Yields front roots ∧
            ((t.runAll front).run last).1 = .error e ∧
            t.due.length ≤ min t.settings.runBudget t.queue.length) ∧
      ∀ roots, t.Yields t.queue roots → ∀ budget n, t.queue.length ≤ n * budget →
        ((t.withBudget budget).drains n).1 = .ok roots ∧
          ((t.withBudget budget).drains n).2.host = (t.runAll t.queue).host ∧
          ((t.withBudget budget).drains n).2.queue = [] := by
  intro t
  have hsound : Sound s l := Sound.enterAll ⟨by simp, rfl, rfl, rfl⟩ h
  obtain ⟨rest, hqueue, hafter⟩ := t.drain_due
  refine ⟨⟨hsound.order, hsound.host⟩, ⟨rest, hqueue, by rw [hafter], by rw [hafter], ?_⟩, ?_⟩
  · have hresult := t.drain_result
    cases hdrain : t.drain.1 with
    | ok roots => rwa [hdrain] at hresult
    | error e =>
      rw [hdrain] at hresult
      obtain ⟨front, last, roots, hdue, hfront, hlast, hlength⟩ := hresult
      refine ⟨front, last, roots, hdue, hfront, hlast, ?_⟩
      rw [hdue, List.length_append]
      exact hlength
  · intro roots hroots budget n hn
    have hagrees : t.Agrees (t.withBudget budget) := ⟨rfl, rfl, rfl, rfl⟩
    obtain ⟨hanswer, hhost, hempty⟩ :=
      Session.drains_of_yields (s := t.withBudget budget) (hagrees.yields hroots) hn
    exact ⟨hanswer, hhost.trans (hagrees.runAll t.queue).host.symm, hempty⟩

/-- A text is pushed, and a click pushes a program that fails and another text. One drain runs the
first two; the next would run the last. -/
theorem runs_in_order_past_a_failure :
    let listening : Node := { content := .element "p" [] [], listeners := [("click", ⟨0, 0⟩)] }
    let s : Session Document :=
      { host := { nodes := #[listening] }, settings := { runBudget := 2 } }
    let r : Reactor (Session.Script String) String :=
      { embedder := ⟨[.push [3], .push [6, 1, 98]]⟩ }
    let happenings : List (Happening String) :=
      [.register 0 "twice", .push [6, 1, 97], .fire 0 "click", .drain]
    ∃ l, happenings.foldlM Ledger.enter ⟨s, r, [], []⟩ = some l ∧
      l.pushed = [[6, 1, 97], [3], [6, 1, 98]] ∧ l.executed = [[6, 1, 97], [3]] ∧
      l.session.queue = [[6, 1, 98]] ∧ l.session.host = (s.runAll [[6, 1, 97], [3]]).host ∧
      ((l.session.withBudget 2).drains 1).1 = .ok [2] ∧
      ((l.session.withBudget 1).drains 1).2.host = (l.session.runAll [[6, 1, 98]]).host := by
  intro listening s r happenings
  let t : Session Document := { s with queue := [[6, 1, 97], [3], [6, 1, 98]] }
  obtain ⟨r', hfire⟩ : ∃ r', (s.enqueue [6, 1, 97]).fire 0 "click" (r.register 0 "twice").2 =
      some (1, t, r') :=
    ⟨_, Session.fire_eq_some_iff.mpr ⟨Reactor.fire_eq_some_iff.mpr
      ⟨[⟨⟨0, 0⟩, some ("twice", _)⟩],
        .turn (.run rfl (.push rfl (.push rfl (.finish rfl)))) (.done _), rfl, rfl⟩, rfl⟩⟩
  let l : Ledger (Session.Script String) String :=
    ⟨t.drain.2.1, r', [[6, 1, 97], [3], [6, 1, 98]], t.due⟩
  have hl : happenings.foldlM Ledger.enter ⟨s, r, [], []⟩ = some l := by
    change (((s.enqueue [6, 1, 97]).fire 0 "click" (r.register 0 "twice").2).bind _).bind _ = _
    rw [hfire]
    rfl
  have hexecuted : l.executed = [[6, 1, 97], [3]] := by
    change t.due = _
    decide +kernel
  have hqueue : l.session.queue = [[6, 1, 98]] := by
    change t.drain.2.1.queue = _
    decide +kernel
  have hanswers : l.session.answers [[6, 1, 98]] = [.ok (some 2)] := by
    change t.drain.2.1.answers _ = _
    decide +kernel
  have hyields : l.session.Yields l.session.queue [2] := ⟨[some 2], hqueue ▸ hanswers, rfl⟩
  obtain ⟨⟨-, hhost⟩, -, hall⟩ := runs_in_order s r hl
  have hlength : l.session.queue.length = 1 := by rw [hqueue]; rfl
  obtain ⟨-, hlater, -⟩ := hall [2] hyields 1 1 (by omega)
  obtain ⟨hroots, -, -⟩ := hall [2] hyields 2 1 (by omega)
  rw [hexecuted] at hhost
  rw [hqueue] at hlater
  exact ⟨l, hl, rfl, hexecuted, hqueue, hhost, hroots, hlater⟩

end Ledger

end TreeCode
