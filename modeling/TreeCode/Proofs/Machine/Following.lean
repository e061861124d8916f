import TreeCode.Proofs.Grammar
import TreeCode.Proofs.Listing
import TreeCode.Proofs.Machine.Running

/-!
# Runs and listings

A machine reads a program on its own, instruction by instruction as it gets to them, and never sees
a listing. `follow` executes a listing instead, up to the first instruction that fails. A machine at
the start of a program follows its listing: it does the same to its host and to its nodes, the
records it leaves of its instructions are their lines, and its run ends as the listing does
(`run_follows_listing`).
-/

namespace TreeCode

variable {σ ν : Type}

/-- The line of an instruction, with a gap behind its offset. -/
def Listing.spacedLine (gap : String) (item : Nat × Instruction String) : String :=
  offsetText item.1 ++ gap ++ item.2.text

/-- How a run ends that has executed all instructions before an ending, and where its machine then
stands in a program of `length` bytes. -/
def Ending.final (length : Nat) : Ending → Except Error RunState × Nat
  | .finished => (.ok .done, length)
  | .unknown _ _ => (.ok .halted, length)
  | .truncated offset => (.ok .pending, offset)
  | .undelimited offset found => (.error (.undelimitedKey offset found), offset)

namespace Machine

variable [Host σ ν] {m : Machine ν} {host : σ}

/-- Executes instructions one after the other, up to the first that fails: those that were executed,
with the one that failed, and the outcome. -/
def follow : List (Nat × Instruction String) → Machine ν → σ →
    List (Nat × Instruction String) × Outcome σ ν Unit
  | [], m, host => ([], ⟨.ok (), m, host, []⟩)
  | item :: rest, m, host =>
    let first := execute item.2 m host
    match first.result with
    | .error _ => ([item], first)
    | .ok () =>
      let later := follow rest first.machine first.host
      (item :: later.1, later.2.after first.log)

/-! ## Following, instruction by instruction -/

variable {item : Nat × Instruction String} {rest items : List (Nat × Instruction String)}

theorem follow_cons_of_error {e : Error} (h : (execute item.2 m host).result = .error e) :
    follow (item :: rest) m host = ([item], execute item.2 m host) := by
  simp only [follow, h]

theorem follow_cons_of_ok (h : (execute item.2 m host).result = .ok ()) :
    follow (item :: rest) m host =
      (item :: (follow rest (execute item.2 m host).machine (execute item.2 m host).host).1,
        (follow rest (execute item.2 m host).machine (execute item.2 m host).host).2.after
          (execute item.2 m host).log) := by
  simp only [follow, h]

theorem follow_relocate (items : List (Nat × Instruction String)) (m : Machine ν) (host : σ)
    (program : List UInt8) (place : Nat) :
    follow items (m.relocate program place) host =
      ((follow items m host).1, (follow items m host).2.relocate program place) := by
  induction items generalizing m host with
  | nil => rfl
  | cons item rest ih =>
    have hx := execute_relocate item.2 m host program place
    cases h : (execute item.2 m host).result with
    | error e =>
      have h' : (execute item.2 (m.relocate program place) host).result = .error e := by
        rw [hx]; exact h
      rw [follow_cons_of_error h, follow_cons_of_error h', hx]
    | ok u =>
      have h' : (execute item.2 (m.relocate program place) host).result = .ok () := by
        rw [hx]; exact h
      rw [follow_cons_of_ok h, follow_cons_of_ok h', hx]
      simp only [Outcome.relocate, ih]
      rfl

theorem follow_prefix (items : List (Nat × Instruction String)) (m : Machine ν) (host : σ) :
    (follow items m host).1 <+: items := by
  induction items generalizing m host with
  | nil => exact List.nil_prefix
  | cons item rest ih =>
    cases h : (execute item.2 m host).result with
    | error e =>
      rw [follow_cons_of_error h]
      exact ⟨rest, rfl⟩
    | ok u =>
      rw [follow_cons_of_ok h]
      exact List.prefix_cons_inj item |>.mpr (ih _ _)

theorem follow_of_ok (h : (follow items m host).2.result = .ok ()) :
    (follow items m host).1 = items := by
  induction items generalizing m host with
  | nil => rfl
  | cons item rest ih =>
    cases hfirst : (execute item.2 m host).result with
    | error e =>
      rw [follow_cons_of_error hfirst, hfirst] at h
      cases h
    | ok u =>
      rw [follow_cons_of_ok hfirst] at h ⊢
      exact congrArg _ (ih h)

/-! ## The records of a run -/

def traces (log : List Record) : List Record := log.filter (·.level = .trace)

theorem traces_execute (i : Instruction String) (m : Machine ν) (host : σ) :
    traces (execute i m host).log = [] := by
  unfold execute
  cases prepare i m with
  | error e k => rfl
  | ok demand k =>
    cases demand with
    | create request =>
      simp only [satisfy]
      cases (k.adopt (Host.create request host).1).1 <;> rfl
    | edit request => rfl
    | defer sibling child => rfl

theorem traces_append (front back : List Record) :
    traces (front ++ back) = traces front ++ traces back := List.filter_append ..

theorem traces_executing (place : Nat) (i : Instruction String) (log : List Record) :
    traces (executing place i :: log) = executing place i :: traces log := rfl

/-! ## A run follows a listing -/

/-- A run has gone as following a listing went. -/
structure Followed (l : Listing) (program : List UInt8)
    (followed : List (Nat × Instruction String) × Outcome σ ν Unit) (ran : Outcome σ ν RunState) :
    Prop where
  host : ran.host = followed.2.host
  machine : ran.machine = followed.2.machine.relocate program ran.machine.place
  traces : traces ran.log = followed.1.map fun item => executing item.1 item.2
  ended : followed.2.result = .ok () →
    (ran.result, ran.machine.place) = l.ending.final program.length
  failed : ∀ e, followed.2.result = .error e → ran.result = .error e ∧
    ∃ front offset i, followed.1 = front ++ [(offset, i)] ∧
      Instruction.readAt program offset = .ok (.complete i ran.machine.place)

theorem execute_advance (i : Instruction String) (m : Machine ν) (host : σ) (width : Nat) :
    execute i (m.advance width) host =
      (execute i m host).relocate m.program (m.place + width) :=
  execute_relocate i m host m.program (m.place + width)

omit [Host σ ν] in
theorem readAt_place {raw : Instruction (List UInt8)} {width : Nat}
    (h : Instruction.read m.remaining = .complete raw width) :
    Instruction.readAt m.program m.place = .ok (.complete raw.ofBytes (m.place + width)) := by
  have hlt : m.place < m.program.length := by
    have hne : m.remaining ≠ [] := ne_nil_of_read_complete h
    rw [remaining, Ne, List.drop_eq_nil_iff] at hne
    exact Nat.lt_of_not_le hne
  rw [Instruction.readAt_of_lt hlt]
  change (Instruction.read m.remaining).at m.place = _
  rw [h]
  rfl

/-- A machine that has got to a place of its program follows the listing from there on. -/
theorem runOn_followed (bytes : List UInt8) (m : Machine ν) (host : σ)
    (hbytes : m.remaining = bytes) (hplace : m.place ≤ m.program.length) :
    Followed (.ofBytes m.place bytes) m.program
      (follow (Listing.ofBytes m.place bytes).items m host) (runOn bytes m host) := by
  induction bytes, m, host using runOn_induction with
  | finished m host =>
    have hend : m.place = m.program.length :=
      Nat.le_antisymm hplace (List.drop_eq_nil_iff.mp hbytes)
    rw [runOn_nil, Listing.ofBytes_nil]
    exact ⟨rfl, rfl, rfl, fun _ => by rw [hend]; rfl, fun e he => by cases he⟩
  | failed bytes m host raw width e hr he =>
    have hx := execute_advance raw.ofBytes m host width
    have he' : (execute raw.ofBytes m host).result = .error e := by rwa [hx] at he
    have hfollow (rest : List (Nat × Instruction String)) :
        follow ((m.place, raw.ofBytes) :: rest) m host = _ := follow_cons_of_error he'
    rw [runOn_of_error hr he, Listing.ofBytes_of_complete hr, hx]
    simp only [Listing.cons, hfollow]
    refine ⟨rfl, rfl, ?_, fun h => ?_, fun e' h => ?_⟩
    · rw [traces_executing, Outcome.relocate, traces_execute]
      rfl
    · rw [he'] at h
      cases h
    · rw [he'] at h
      cases h
      exact ⟨rfl, [], m.place, raw.ofBytes, rfl, readAt_place (hbytes ▸ hr)⟩
  | continued bytes m host raw width hr hok ih =>
    have hx := execute_advance raw.ofBytes m host width
    have hok' : (execute raw.ofBytes m host).result = .ok () := by rwa [hx] at hok
    have hw := Instruction.read_width hr
    have hremaining : ((execute raw.ofBytes m host).relocate m.program
        (m.place + width)).machine.remaining = bytes.drop width := by
      rw [← hbytes, remaining, remaining, List.drop_drop]
      rfl
    have hbound : m.place + width ≤ m.program.length := by
      have hlength : bytes.length = m.program.length - m.place := by
        rw [← hbytes, remaining, List.length_drop]
      omega
    rw [hx] at ih
    obtain ⟨hhost, hmachine, htraces, hended, hfailed⟩ :
        Followed (.ofBytes (m.place + width) (bytes.drop width)) m.program
          (follow (Listing.ofBytes (m.place + width) (bytes.drop width)).items
            ((execute raw.ofBytes m host).machine.relocate m.program (m.place + width))
            (execute raw.ofBytes m host).host)
          (runOn (bytes.drop width)
            ((execute raw.ofBytes m host).machine.relocate m.program (m.place + width))
            (execute raw.ofBytes m host).host) := ih hremaining hbound
    rw [follow_relocate] at hhost hmachine htraces hended hfailed
    have hfollow (rest : List (Nat × Instruction String)) :
        follow ((m.place, raw.ofBytes) :: rest) m host = _ := follow_cons_of_ok hok'
    rw [runOn_of_ok hr hok, Listing.ofBytes_of_complete hr, hx]
    simp only [Listing.cons, hfollow]
    refine ⟨hhost, hmachine, ?_, hended, fun e h => ?_⟩
    · rw [Outcome.after, List.cons_append, traces_executing, traces_append, Outcome.relocate,
        traces_execute]
      exact congrArg _ htraces
    · obtain ⟨hresult, front, offset, i, hfront, hread⟩ := hfailed e h
      refine ⟨hresult, (m.place, raw.ofBytes) :: front, offset, i, ?_, hread⟩
      exact congrArg _ hfront
  | truncated bytes m host hne hr =>
    rw [runOn_of_truncated hne hr, Listing.ofBytes_of_truncated hne hr]
    exact ⟨rfl, rfl, rfl, fun _ => rfl, fun e he => by cases he⟩
  | unknown bytes m host byte hr =>
    rw [runOn_of_unknown hr, Listing.ofBytes_of_unknown hr]
    exact ⟨rfl, rfl, rfl, fun _ => rfl, fun e he => by cases he⟩
  | undelimited bytes m host found hr =>
    rw [runOn_of_undelimited hr, Listing.ofBytes_of_undelimited hr]
    exact ⟨rfl, rfl, rfl, fun _ => rfl, fun e he => by cases he⟩

/-- **A run follows a listing.** A machine at the start of any program, whatever its operand stack
holds, does to its host, its nodes and its operands what executing the listing of the program up to
the first failure does, and nothing else. The records of its instructions are, in order and with the
one that fails, their lines in the listing, which has one blank more behind the offset. If none
fails, the run ends as the listing does; otherwise it fails with the error of the instruction and
stands just past it. -/
theorem run_follows_listing (host : σ) (program : List UInt8) (settings : Settings)
    (registry : RegistryId) (operands : Operands) :
    let listing := Listing.ofProgram program
    let m : Machine ν := { startOn host program settings registry with operands }
    let ran := m.run host
    let followed := follow listing.items m host
    followed.1 <+: listing.items ∧
      (ran.host = followed.2.host ∧ ran.machine.table = followed.2.machine.table ∧
        ran.machine.operands = followed.2.machine.operands ∧
        ran.machine.deferred = followed.2.machine.deferred) ∧
      ran.log.filter (·.level = .trace) =
        followed.1.map (fun item => record .trace (Listing.spacedLine " " item)) ∧
      listing.text = String.join (listing.items.map (Listing.spacedLine "  " · ++ "\n")) ++
        Listing.endingLine listing.ending ∧
      match followed.2.result with
      | .ok () => followed.1 = listing.items ∧
          (ran.result, ran.machine.place) = listing.ending.final program.length
      | .error e => ran.result = .error e ∧
          ∃ front offset i, followed.1 = front ++ [(offset, i)] ∧
            Instruction.readAt program offset = .ok (.complete i ran.machine.place) := by
  intro listing m ran followed
  have hfront : followed.1 <+: listing.items := follow_prefix listing.items m host
  obtain ⟨hhost, hmachine, htraces, hended, hfailed⟩ :
      Followed listing program followed ran := runOn_followed m.remaining m host rfl (Nat.zero_le _)
  refine ⟨hfront, ⟨hhost, ?_, ?_, ?_⟩, htraces, rfl, ?_⟩
  · rw [hmachine]; rfl
  · rw [hmachine]; rfl
  · rw [hmachine]; rfl
  · cases hresult : followed.2.result with
    | ok u => exact ⟨follow_of_ok hresult, hended hresult⟩
    | error e => exact hfailed e hresult

end Machine

end TreeCode
