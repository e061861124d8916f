import TreeCode.Proofs.Machine.Locality

/-!
# A run, instruction by instruction

One equation for each way in which the bytes before a machine can start, and the induction that
follows a run (`runOn_induction`). By it, a host that keeps its calls does not change a run
(`untraced_runOn`).
-/

namespace TreeCode

variable {σ ν α : Type} {T : Type → Type}

def Outcome.silent (o : Outcome σ ν α T) : Outcome σ ν α T := { o with log := [] }

/-- An outcome with records that were left before it. -/
def Outcome.after (records : List Record) (o : Outcome σ ν α T) : Outcome σ ν α T :=
  { o with log := records ++ o.log }

def Outcome.untraced (o : Outcome (Traced σ ν) ν α T) : Outcome σ ν α T :=
  ⟨o.result, o.machine, o.host.host, o.log⟩

namespace Machine

variable [Host σ ν] [NodeTable T] {bytes : List UInt8} {m : Machine ν T} {host : σ}

/-- The machine with `width` more bytes behind it. -/
def advance (m : Machine ν T) (width : Nat) : Machine ν T :=
  m.relocate m.program (m.place + width)

@[simp] theorem runOn_nil (m : Machine ν T) (host : σ) :
    runOn [] m host = ⟨.ok .done, m, host, []⟩ := by
  rw [runOn, if_pos rfl]

theorem ne_nil_of_read_complete {i : Instruction (List UInt8)} {width : Nat}
    (h : Instruction.read bytes = .complete i width) : bytes ≠ [] := by
  rintro rfl
  cases h

theorem runOn_of_complete {raw : Instruction (List UInt8)} {width : Nat}
    (h : Instruction.read bytes = .complete raw width) :
    runOn bytes m host =
      let first := execute raw.ofBytes (m.advance width) host
      match first.result with
      | .error e => ⟨.error e, first.machine, first.host, executing m.place raw.ofBytes :: first.log⟩
      | .ok () => (runOn (bytes.drop width) first.machine first.host).after
          (executing m.place raw.ofBytes :: first.log) := by
  rw [runOn, if_neg (ne_nil_of_read_complete h)]
  split
  · rename_i raw' width' h'
    obtain ⟨rfl, rfl⟩ := Instruction.Verdict.complete.inj (h.symm.trans h')
    rfl
  all_goals rename_i h'; rw [h] at h'; cases h'

theorem runOn_of_ok {raw : Instruction (List UInt8)} {width : Nat}
    (h : Instruction.read bytes = .complete raw width)
    (hok : (execute raw.ofBytes (m.advance width) host).result = .ok ()) :
    runOn bytes m host =
      (runOn (bytes.drop width) (execute raw.ofBytes (m.advance width) host).machine
        (execute raw.ofBytes (m.advance width) host).host).after
        (executing m.place raw.ofBytes :: (execute raw.ofBytes (m.advance width) host).log) := by
  rw [runOn_of_complete h]
  simp only [hok]

theorem runOn_of_error {raw : Instruction (List UInt8)} {width : Nat} {e : Error}
    (h : Instruction.read bytes = .complete raw width)
    (he : (execute raw.ofBytes (m.advance width) host).result = .error e) :
    runOn bytes m host =
      ⟨.error e, (execute raw.ofBytes (m.advance width) host).machine,
        (execute raw.ofBytes (m.advance width) host).host,
        executing m.place raw.ofBytes :: (execute raw.ofBytes (m.advance width) host).log⟩ := by
  rw [runOn_of_complete h]
  simp only [he]

theorem runOn_of_truncated (hne : bytes ≠ []) (h : Instruction.read bytes = .truncated) :
    runOn bytes m host = ⟨.ok .pending, m, host, [waiting m.place]⟩ := by
  rw [runOn, if_neg hne]
  split
  case h_2 => rfl
  all_goals rename_i h'; rw [h] at h'; cases h'

theorem runOn_of_unknown {byte : UInt8} (h : Instruction.read bytes = .unknown byte) :
    runOn bytes m host =
      ⟨.ok .halted, m.relocate m.program m.program.length, host, [halting m.place byte]⟩ := by
  rw [runOn, if_neg (by rintro rfl; cases h)]
  split
  case h_3 => rename_i h'; rw [h] at h'; cases h'; rfl
  all_goals rename_i h'; rw [h] at h'; cases h'

theorem runOn_of_undelimited {found : UInt8} (h : Instruction.read bytes = .undelimited found) :
    runOn bytes m host = ⟨.error (.undelimitedKey m.place found), m, host, []⟩ := by
  rw [runOn, if_neg (by rintro rfl; cases h)]
  split
  case h_4 => rename_i h'; rw [h] at h'; cases h'; rfl
  all_goals rename_i h'; rw [h] at h'; cases h'

/-- Induction along a run: it is at the end of its bytes, it executes an instruction and fails or
goes on behind it, or it stands before bytes that are no instruction. -/
@[elab_as_elim]
theorem runOn_induction {motive : List UInt8 → Machine ν T → σ → Prop}
    (finished : ∀ m host, motive [] m host)
    (failed : ∀ bytes m host raw width e, Instruction.read bytes = .complete raw width →
      (execute raw.ofBytes (m.advance width) host).result = .error e → motive bytes m host)
    (continued : ∀ bytes m host raw width, Instruction.read bytes = .complete raw width →
      (execute raw.ofBytes (m.advance width) host).result = .ok () →
      motive (bytes.drop width) (execute raw.ofBytes (m.advance width) host).machine
        (execute raw.ofBytes (m.advance width) host).host → motive bytes m host)
    (truncated : ∀ bytes m host, bytes ≠ [] → Instruction.read bytes = .truncated →
      motive bytes m host)
    (unknown : ∀ bytes m host byte, Instruction.read bytes = .unknown byte → motive bytes m host)
    (undelimited : ∀ bytes m host found, Instruction.read bytes = .undelimited found →
      motive bytes m host)
    (bytes : List UInt8) (m : Machine ν T) (host : σ) : motive bytes m host := by
  induction bytes, m, host using runOn.induct with
  | case1 m host => exact finished m host
  | case2 bytes m host _ raw width hr i first e he => exact failed _ _ _ _ _ _ hr he
  | case3 bytes m host _ raw width hr i first hok ih => exact continued _ _ _ _ _ hr hok ih
  | case4 bytes m host hne hr => exact truncated _ _ _ hne hr
  | case5 bytes m host _ byte hr => exact unknown _ _ _ _ hr
  | case6 bytes m host _ found hr => exact undelimited _ _ _ _ hr

theorem runOn_preserves {P : Machine ν T → σ → Prop}
    (hmove : ∀ m host program place, P m host → P (m.relocate program place) host)
    (hexecute : ∀ i m host, P m host → P (execute i m host).machine (execute i m host).host)
    (bytes : List UInt8) (m : Machine ν T) (host : σ) (h : P m host) :
    P (runOn bytes m host).machine (runOn bytes m host).host := by
  induction bytes, m, host using runOn_induction with
  | finished m host => rwa [runOn_nil]
  | failed bytes m host raw width e hr he =>
    rw [runOn_of_error hr he]
    exact hexecute _ _ host (hmove m host _ _ h)
  | continued bytes m host raw width hr hok ih =>
    rw [runOn_of_ok hr hok]
    exact ih (hexecute _ _ host (hmove m host _ _ h))
  | truncated bytes m host hne hr => rwa [runOn_of_truncated hne hr]
  | unknown bytes m host byte hr =>
    rw [runOn_of_unknown hr]
    exact hmove m host _ _ h
  | undelimited bytes m host found hr => rwa [runOn_of_undelimited hr]

/-! ## Hosts that keep their calls -/

theorem untraced_execute (i : Instruction String) (m : Machine ν T) (s : Traced σ ν) :
    (execute i m s).untraced = execute i m s.host := by
  unfold execute
  cases prepare i m with
  | error e k => rfl
  | ok demand k => cases demand <;> rfl

/-- A run goes the same way whether or not the host keeps its calls. -/
theorem untraced_runOn (bytes : List UInt8) (m : Machine ν T) (s : Traced σ ν) :
    (runOn bytes m s).untraced = runOn bytes m s.host := by
  induction bytes, m, s using runOn_induction with
  | finished m s => rw [runOn_nil, runOn_nil]; rfl
  | failed bytes m s raw width e hr he =>
    have hx := untraced_execute raw.ofBytes (m.advance width) s
    rw [runOn_of_error hr he, runOn_of_error hr ((congrArg Outcome.result hx).symm.trans he), ← hx]
    rfl
  | continued bytes m s raw width hr hok ih =>
    have hx := untraced_execute raw.ofBytes (m.advance width) s
    rw [runOn_of_ok hr hok, runOn_of_ok hr ((congrArg Outcome.result hx).symm.trans hok), ← hx]
    exact congrArg (Outcome.after _) ih
  | truncated bytes m s hne hr => rw [runOn_of_truncated hne hr, runOn_of_truncated hne hr]; rfl
  | unknown bytes m s byte hr => rw [runOn_of_unknown hr, runOn_of_unknown hr]; rfl
  | undelimited bytes m s found hr =>
    rw [runOn_of_undelimited hr, runOn_of_undelimited hr]; rfl

end Machine

end TreeCode
