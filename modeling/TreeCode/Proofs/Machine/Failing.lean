import TreeCode.Proofs.Machine.Echoing
import TreeCode.Proofs.Machine.Taking
import TreeCode.Session

/-!
# Instructions that fail

An instruction that fails has asked the host for nothing, and has done nothing to the machine but
take some of its operands off the stack (`execute_error`). A run that fails does so at one
instruction, to which it came by instructions that did not (`executes_to_failure`).
-/

namespace TreeCode.Machine

variable {σ ν : Type} [Host σ ν] {m k : Machine ν} {host : σ} {e : Error}

/-- A machine executes the instruction it stands before, and does not fail. -/
inductive Executes : Machine ν × σ → Machine ν × σ → Prop
  | mk {m : Machine ν} {raw : Instruction (List UInt8)} {width : Nat} {host : σ} :
      Instruction.read m.remaining = .complete raw width →
      (execute raw.ofBytes (m.advance width) host).result = .ok () →
      Executes (m, host) ((execute raw.ofBytes (m.advance width) host).machine,
        (execute raw.ofBytes (m.advance width) host).host)

/-- A machine stands before an instruction that fails: it cannot be read, or not be executed. -/
inductive Stuck (m : Machine ν) (host : σ) : Error → Prop
  | undelimited {found : UInt8} : Instruction.read m.remaining = .undelimited found →
      Stuck m host (.undelimitedKey m.place found)
  | executed {raw : Instruction (List UInt8)} {width : Nat} {e : Error} :
      Instruction.read m.remaining = .complete raw width →
      (execute raw.ofBytes (m.advance width) host).result = .error e → Stuck m host e

theorem execute_error {i : Instruction String} (hs : m.operands.Sound)
    (he : (execute i m host).result = .error e) :
    ∃ operands, execute i m host = ⟨.error e, { m with operands }, host, []⟩ ∧
      m.operands.Lowered operands ∧ (i.opcode.usesOperands = false → operands = m.operands) := by
  have hlowered := lowers_prepare i m hs
  unfold execute at he ⊢
  cases hp : prepare i m with
  | ok demand k =>
    rw [hp] at he
    cases demand <;> cases he
  | error e' k =>
    rw [hp] at he
    cases he
    rw [leftBy_of_error hp] at hlowered
    have hk : k = { m with operands := k.operands } := by
      rw [(local_prepare i).eq_within_of_error hp, within, (prepare_error hp).1]
    refine ⟨k.operands, by rw [← hk], hlowered, fun hi => ?_⟩
    cases hc : consumes i with
    | false => rw [(eq_of_prepare hi hc).2 hp]
    | true => rw [(consume_of_prepare hc).2 hp]

theorem remaining_execute (i : Instruction String) (m : Machine ν) (host : σ) (width : Nat) :
    (execute i (m.advance width) host).machine.remaining = m.remaining.drop width := by
  rw [remaining, remaining, program_execute, place_execute, List.drop_drop]
  rfl

/-- A run that fails has come to an instruction that fails, and ends there. -/
theorem executes_to_failure (he : (m.run host).result = .error e) :
    ∃ (k : Machine ν) (later : σ),
      Relation.ReflTransGen Executes (m, host) (k, later) ∧ Stuck k later e ∧
        (m.run host).silent = (k.run later).silent := by
  -- A run is on the bytes that remain, and stays so from one instruction to the next.
  suffices h : ∀ bytes (m : Machine ν) (host : σ), m.remaining = bytes →
      (runOn bytes m host).result = .error e →
      ∃ (k : Machine ν) (later : σ),
        Relation.ReflTransGen Executes (m, host) (k, later) ∧ Stuck k later e ∧
          (runOn bytes m host).silent = (k.run later).silent from
    h m.remaining m host rfl he
  clear he
  intro bytes m host hbytes he
  induction bytes, m, host using runOn_induction with
  | finished m host => rw [runOn_nil] at he; cases he
  | failed bytes m host raw width e' hr he' =>
    subst hbytes
    have hsame : e' = e := by
      rw [runOn_of_error hr he'] at he
      exact Except.error.inj he
    exact ⟨m, host, .refl, .executed hr (hsame ▸ he'), rfl⟩
  | continued bytes m host raw width hr hok ih =>
    subst hbytes
    rw [runOn_of_ok hr hok] at he ⊢
    obtain ⟨k, later, hpath, hstuck, hsilent⟩ := ih (remaining_execute _ m host width) he
    exact ⟨k, later, .head (.mk hr hok) hpath, hstuck, hsilent⟩
  | truncated bytes m host hne hr => rw [runOn_of_truncated hne hr] at he; cases he
  | unknown bytes m host byte hr => rw [runOn_of_unknown hr] at he; cases he
  | undelimited bytes m host found hr =>
    subst hbytes
    rw [runOn_of_undelimited hr] at he
    cases he
    exact ⟨m, host, .refl, .undelimited hr, rfl⟩

/-- Instructions that a machine executes on a host that keeps its calls leave it as on any other. -/
theorem Reachable.of_executes {m k : Machine ν} {t u : Traced σ ν} (hm : Reachable σ m)
    (h : Relation.ReflTransGen Executes (m, t) (k, u)) : Reachable σ k := by
  suffices hkept : ∀ s : Machine ν × Traced σ ν,
      Relation.ReflTransGen Executes (m, t) s → Reachable σ s.1 from hkept _ h
  intro s hs
  induction hs with
  | refl => exact hm
  | tail _ hstep ih =>
    cases hstep with
    | @mk m raw width host hr hok =>
      have hplain := congrArg Outcome.machine (untraced_execute raw.ofBytes (m.advance width) host)
      change (execute _ _ host).machine = _ at hplain
      rw [hplain]
      exact .instruction host.host hr ih

/-- **A failing instruction does nothing but take operands.** An attribute whose key is not followed
by the delimiter leaves the machine as it is, so that it fails again. An instruction that fails when
it is executed makes no call to the host and leaves the machine behind it, and that is all it does,
but for the operands: one that takes operands may have taken some off the top of the stack, and
leaves the values and texts below. The machine can go on from there. A run that fails does so by one
of these, and comes to it by instructions that do not fail; the session it is a run of keeps its
registry, its queue and its settings. -/
theorem failure_takes_operands {m : Machine ν} (hm : Reachable σ m) (t : Traced σ ν) :
    let ran := m.run t
    (∀ found, Instruction.read m.remaining = .undelimited found →
      ran = ⟨.error (.undelimitedKey m.place found), m, t, []⟩ ∧ ran.machine.run ran.host = ran) ∧
    (∀ raw width e, Instruction.read m.remaining = .complete raw width →
      (execute raw.ofBytes (m.advance width) t).result = .error e →
      ran.result = .error e ∧ ran.host = t ∧
      ran.machine =
        { m with place := m.place + width, operands := ran.machine.operands } ∧
      (raw.opcode.usesOperands = false → ran.machine.operands = m.operands) ∧
      (∃ n ≤ m.operands.depth, ran.machine.operands = m.operands.release n ∧
        ran.machine.operands.contents = m.operands.contents.drop n ∧
        ran.machine.operands.scratch = m.operands.scratch) ∧
      ∀ later : Traced σ ν, ran.machine.run later =
        runOn (m.program.drop (m.place + width)) ran.machine later) ∧
    ∀ e, ran.result = .error e →
      (∃ k u, Relation.ReflTransGen Executes (m, t) (k, u) ∧ Reachable σ k ∧ Stuck k u e ∧
        ran.silent = (k.run u).silent) ∧
      ∀ (s : Session (Traced σ ν)) (program : List UInt8), s.host = t → s.machine program = m →
        (s.run program).2.1 = { s with host := ran.host } := by
  intro ran
  refine ⟨fun found hr => ?_, fun raw width e hr he => ?_, fun e he => ⟨?_, ?_⟩⟩
  · have hran : ran = ⟨.error (.undelimitedKey m.place found), m, t, []⟩ := runOn_of_undelimited hr
    refine ⟨hran, ?_⟩
    conv_lhs => rw [hran]
  · obtain ⟨operands, hexecute, ⟨n, hn, hoperands⟩, hspared⟩ :=
      execute_error (m := m.advance width) hm.sound he
    have hran : ran = ⟨.error e, { m with place := m.place + width, operands }, t,
        [executing m.place raw.ofBytes]⟩ := by
      change runOn m.remaining m t = _
      rw [runOn_of_error hr he, hexecute]
      rfl
    have hopcode : raw.ofBytes.opcode = raw.opcode := Instruction.opcode_map _ raw
    rw [hran]
    refine ⟨rfl, rfl, rfl, fun hi => hspared (hopcode ▸ hi), ⟨n, hn, hoperands, ?_, ?_⟩,
      fun _ => rfl⟩
    · rw [hoperands]
      exact Operands.contents_release hm.sound hn
    · rw [hoperands]
      exact Operands.scratch_release _ n
  · obtain ⟨k, u, hpath, hstuck, hsilent⟩ := executes_to_failure he
    exact ⟨k, u, hpath, hm.of_executes hpath, hstuck, hsilent⟩
  · rintro s program rfl rfl
    rw [Session.run]
    simp only [show ((s.machine program : Machine ν).run s.host).result = .error e from he]
    rfl

/-- A text is to be set in a slot where no node lives. The three operands are gone, what lies below
them is not, and the machine goes on with the next instruction. -/
theorem failure_takes_operands_unknown_slot :
    let m : Machine Nat :=
      (serve [.run, .push 9, .pushText "ab", .push 2, .feed [7, 6, 1, 120]]
        (start [1, 1, 112] false {} 0) ({} : Numbering)).2.1
    let t : Traced Numbering Nat := ⟨{ created := 1 }, []⟩
    let ran := m.run t
    ran.result = .error (.noNode (some 9)) ∧ ran.host = t ∧ ran.machine.table = m.table ∧
      m.operands.contents = [2, 0, 9, 0] ∧ ran.machine.operands.contents = [0] ∧
      (ran.machine.run t).host.calls = [.create (.text "x") 1] := by
  intro m t ran
  have hm : Reachable Numbering m := .request _ _ (.request _ _ (.request _ _ (.request _ _
    (.request _ _ (.start _ _ _ _)))))
  have hread : Instruction.read m.remaining = .complete .setText 1 := by decide +kernel
  have hfails : (execute .setText (m.advance 1) t).result = .error (.noNode (some 9)) := by
    decide +kernel
  obtain ⟨-, hexecuted, -⟩ := failure_takes_operands hm t
  obtain ⟨hresult, hhost, hmachine, -⟩ := hexecuted .setText 1 _ hread hfails
  have htable := congrArg Machine.table hmachine
  exact ⟨hresult, hhost, htable, by decide +kernel, by decide +kernel, by decide +kernel⟩

end TreeCode.Machine
