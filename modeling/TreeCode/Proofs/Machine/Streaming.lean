import TreeCode.Proofs.Machine.Running
import TreeCode.Proofs.Reading

/-!
# Streaming

A program can come in chunks, cut anywhere, with a run after each (`feedRuns`). The run after the
last chunk then ends as one run on the whole program would have ended, and an earlier run ends the
stream only where the one run ends too (`feedRuns_eq_run`).

A run that is done or waits leaves some of its bytes unread, and goes on from them whatever comes
behind (`run_feed_of_not_final`). A run that halts or fails would have done so whatever came behind
(`run_feed_of_final`).
-/

namespace TreeCode

variable {σ ν : Type}

/-- Whether a run that ended so is not taken up again: it halted or failed. -/
def isFinal : Except Error RunState → Bool
  | .ok .done | .ok .pending => false
  | .ok .halted | .error _ => true

/-- Where the machine of a run stands when the run was on `program`: at its end if the run
halted. -/
def Outcome.placeIn (o : Outcome σ ν RunState) (program : List UInt8) : Nat :=
  match o.result with
  | .ok .halted => program.length
  | _ => o.machine.place

/-- Two runs end alike: with the same result, host, live nodes, operand stack and insertions put
off, and at the same place, unless they halted. -/
structure Outcome.EndsLike (o o' : Outcome σ ν RunState) : Prop where
  result : o.result = o'.result
  host : o.host = o'.host
  table : o.machine.table = o'.machine.table
  operands : o.machine.operands = o'.machine.operands
  deferred : o.machine.deferred = o'.machine.deferred
  place : o.result ≠ .ok .halted → o.machine.place = o'.machine.place

theorem Outcome.endsLike_of_silent_eq {o o' : Outcome σ ν RunState} (h : o.silent = o'.silent) :
    o.EndsLike o' := by
  have hresult : o.silent.result = o'.silent.result := by rw [h]
  have hhost : o.silent.host = o'.silent.host := by rw [h]
  have hmachine : o.silent.machine = o'.silent.machine := by rw [h]
  exact ⟨hresult, hhost, congrArg Machine.table hmachine, congrArg Machine.operands hmachine,
    congrArg Machine.deferred hmachine, fun _ => congrArg Machine.place hmachine⟩

theorem Outcome.EndsLike.trans {o₁ o₂ o₃ : Outcome σ ν RunState} (h : o₁.EndsLike o₂)
    (h' : o₂.EndsLike o₃) : o₁.EndsLike o₃ :=
  ⟨h.result.trans h'.result, h.host.trans h'.host, h.table.trans h'.table,
    h.operands.trans h'.operands, h.deferred.trans h'.deferred,
    fun hne => (h.place hne).trans (h'.place (h.result ▸ hne))⟩

namespace Machine

variable [Host σ ν]

/-- Feeds chunks one by one and runs the machine after each, up to the first run that halts or
fails: the outcomes of the runs. -/
def feedRuns : List (List UInt8) → Machine ν → σ → List (Outcome σ ν RunState)
  | [], _, _ => []
  | chunk :: rest, m, host =>
    let ran := (m.feed chunk).run host
    ran :: if isFinal ran.result then [] else feedRuns rest ran.machine ran.host

/-! ## More bytes behind a run -/

section More

variable {bytes : List UInt8} {m : Machine ν} {host : σ} (more program : List UInt8)

theorem execute_advance_relocate (m : Machine ν) (host : σ) (i : Instruction String)
    (width : Nat) :
    execute i ((m.relocate program m.place).advance width) host =
      (execute i (m.advance width) host).relocate program
        (execute i (m.advance width) host).machine.place := by
  rw [place_execute]
  exact execute_relocate i (m.advance width) host program (m.place + width)

theorem read_append_of_complete {raw : Instruction (List UInt8)} {width : Nat}
    (h : Instruction.read bytes = .complete raw width) :
    Instruction.read (bytes ++ more) = .complete raw width :=
  (Instruction.read_append (by rw [h]; simp) more).trans h

theorem runOn_append_of_ok {raw : Instruction (List UInt8)} {width : Nat}
    (h : Instruction.read bytes = .complete raw width)
    (hok : (execute raw.ofBytes (m.advance width) host).result = .ok ()) :
    (runOn (bytes ++ more) (m.relocate program m.place) host).silent =
      (runOn (bytes.drop width ++ more)
        ((execute raw.ofBytes (m.advance width) host).machine.relocate program
          (execute raw.ofBytes (m.advance width) host).machine.place)
        (execute raw.ofBytes (m.advance width) host).host).silent := by
  have hx := execute_advance_relocate program m host raw.ofBytes width
  rw [runOn_of_ok (read_append_of_complete more h) (by rw [hx]; exact hok), hx,
    List.drop_append_of_le_length (Instruction.read_width h).2]
  rfl

/-- A run that halts or fails does so whatever bytes follow. -/
theorem runOn_append_of_final (hf : isFinal (runOn bytes m host).result = true) :
    (runOn (bytes ++ more) (m.relocate program m.place) host).silent =
      ((runOn bytes m host).relocate program ((runOn bytes m host).placeIn program)).silent := by
  induction bytes, m, host using runOn_induction with
  | finished m host => rw [runOn_nil] at hf; cases hf
  | failed bytes m host raw width e hr he =>
    have hx := execute_advance_relocate program m host raw.ofBytes width
    rw [runOn_of_error (read_append_of_complete more hr) (by rw [hx]; exact he),
      runOn_of_error hr he, hx]
    rfl
  | continued bytes m host raw width hr hok ih =>
    rw [runOn_of_ok hr hok] at hf ⊢
    rw [runOn_append_of_ok more program hr hok, ih hf]
    rfl
  | truncated bytes m host hne hr => rw [runOn_of_truncated hne hr] at hf; cases hf
  | unknown bytes m host byte hr =>
    rw [runOn_of_unknown ((Instruction.read_append (by rw [hr]; simp) more).trans hr),
      runOn_of_unknown hr]
    rfl
  | undelimited bytes m host found hr =>
    rw [runOn_of_undelimited ((Instruction.read_append (by rw [hr]; simp) more).trans hr),
      runOn_of_undelimited hr]
    rfl

/-- A run that is done or waits has read some of its bytes, and goes on from the others whatever
follows them. -/
theorem runOn_append_of_not_final (hf : isFinal (runOn bytes m host).result = false) :
    ∃ n ≤ bytes.length,
      (runOn bytes m host).machine.program = m.program ∧
      (runOn bytes m host).machine.place = m.place + n ∧
      ∀ more program : List UInt8,
        (runOn (bytes ++ more) (m.relocate program m.place) host).silent =
          (runOn (bytes.drop n ++ more)
            ((runOn bytes m host).machine.relocate program (m.place + n))
            (runOn bytes m host).host).silent := by
  induction bytes, m, host using runOn_induction with
  | finished m host => exact ⟨0, Nat.le_refl _, by simp, by simp, fun _ _ => by simp⟩
  | failed bytes m host raw width e hr he => rw [runOn_of_error hr he] at hf; cases hf
  | continued bytes m host raw width hr hok ih =>
    rw [runOn_of_ok hr hok] at hf ⊢
    obtain ⟨n, hn, hprogram, hplace, hgo⟩ := ih hf
    have hw := Instruction.read_width hr
    have hat : (execute raw.ofBytes (m.advance width) host).machine.place = m.place + width :=
      place_execute ..
    rw [hat, Nat.add_assoc] at hplace
    refine ⟨width + n, ?_, hprogram.trans (program_execute ..), hplace, fun more program => ?_⟩
    · rw [List.length_drop] at hn
      omega
    · rw [runOn_append_of_ok more program hr hok, hgo more program, List.drop_drop, hat,
        Nat.add_assoc]
      rfl
  | truncated bytes m host hne hr =>
    rw [runOn_of_truncated hne hr]
    exact ⟨0, Nat.zero_le _, rfl, rfl, fun _ _ => rfl⟩
  | unknown bytes m host byte hr => rw [runOn_of_unknown hr] at hf; cases hf
  | undelimited bytes m host found hr => rw [runOn_of_undelimited hr] at hf; cases hf

end More

/-! ## More bytes behind a machine -/

variable {m : Machine ν} {host : σ}

theorem remaining_feed (hm : m.place ≤ m.program.length) (bytes : List UInt8) :
    (m.feed bytes).remaining = m.remaining ++ bytes :=
  List.drop_append_of_le_length hm

theorem feed_feed (m : Machine ν) (bytes more : List UInt8) :
    (m.feed bytes).feed more = m.feed (bytes ++ more) := by
  simp [feed]

theorem run_feed_of_final (hm : m.place ≤ m.program.length)
    (hf : isFinal (m.run host).result = true) (more : List UInt8) :
    ((m.feed more).run host).silent =
      ((m.run host).relocate (m.program ++ more)
        ((m.run host).placeIn (m.program ++ more))).silent := by
  unfold run
  rw [remaining_feed hm]
  exact runOn_append_of_final more (m.program ++ more) hf

theorem run_feed_of_not_final (hm : m.place ≤ m.program.length)
    (hf : isFinal (m.run host).result = false) (more : List UInt8) :
    ((m.feed more).run host).silent =
      (((m.run host).machine.feed more).run (m.run host).host).silent := by
  obtain ⟨n, hn, hprogram, hplace, hgo⟩ := runOn_append_of_not_final hf
  have hle : m.place + n ≤ m.program.length := by
    rw [remaining, List.length_drop] at hn
    omega
  have hfeed : (m.run host).machine.feed more =
      (m.run host).machine.relocate (m.program ++ more) (m.place + n) := by
    rw [feed, relocate]
    simp only [run, hprogram, hplace]
  have hrest : ((m.run host).machine.feed more).remaining = m.remaining.drop n ++ more := by
    rw [hfeed, remaining, remaining, List.drop_drop]
    exact List.drop_append_of_le_length hle
  calc ((m.feed more).run host).silent
      = (runOn (m.remaining ++ more) (m.relocate (m.program ++ more) m.place) host).silent := by
        rw [run, remaining_feed hm]; rfl
    _ = (runOn (m.remaining.drop n ++ more)
          ((m.run host).machine.relocate (m.program ++ more) (m.place + n))
          (m.run host).host).silent := hgo more (m.program ++ more)
    _ = (((m.run host).machine.feed more).run (m.run host).host).silent := by
        rw [← hfeed, ← hrest]; rfl

theorem place_run_le (hm : m.place ≤ m.program.length)
    (hf : isFinal (m.run host).result = false) :
    (m.run host).machine.place ≤ (m.run host).machine.program.length := by
  obtain ⟨n, hn, hprogram, hplace, -⟩ := runOn_append_of_not_final hf
  rw [remaining, List.length_drop] at hn
  rw [run, hprogram, hplace]
  omega

/-! ## Chunks -/

theorem endsLike_feed_of_final (hm : m.place ≤ m.program.length)
    (hf : isFinal (m.run host).result = true) (more : List UInt8) :
    (m.run host).EndsLike ((m.feed more).run host) := by
  have h := run_feed_of_final hm hf more
  have hmachine : ((m.feed more).run host).machine =
      (m.run host).machine.relocate (m.program ++ more)
        ((m.run host).placeIn (m.program ++ more)) := congrArg Outcome.machine h
  refine ⟨(congrArg Outcome.result h).symm, (congrArg Outcome.host h).symm, by rw [hmachine]; rfl,
    by rw [hmachine]; rfl, by rw [hmachine]; rfl, fun hne => ?_⟩
  rw [hmachine]
  change _ = (m.run host).placeIn (m.program ++ more)
  unfold Outcome.placeIn
  split
  · contradiction
  · rfl

/-- The last of the runs ends like one run on all the chunks, and a run that halts or fails does
so as that one run does. -/
theorem feedRuns_endsLike (chunk : List UInt8) (rest : List (List UInt8)) (m : Machine ν) (host : σ)
    (hm : m.place ≤ m.program.length) :
    let whole := (m.feed (chunk :: rest).flatten).run host
    (∃ last, (feedRuns (chunk :: rest) m host).getLast? = some last ∧ last.EndsLike whole) ∧
    ∀ ran ∈ feedRuns (chunk :: rest) m host, isFinal ran.result = true →
      ran.result = whole.result := by
  induction rest generalizing chunk m host with
  | nil =>
    have hone : feedRuns [chunk] m host = [(m.feed chunk).run host] := by
      simp [feedRuns]
    simp only [hone, List.flatten_cons, List.flatten_nil, List.append_nil]
    refine ⟨⟨_, rfl, Outcome.endsLike_of_silent_eq rfl⟩, fun ran hran _ => ?_⟩
    rw [List.mem_singleton.mp hran]
  | cons next rest ih =>
    have hm₁ : (m.feed chunk).place ≤ (m.feed chunk).program.length := by
      simp only [feed, List.length_append]
      omega
    rw [List.flatten_cons, ← feed_feed]
    cases hf : isFinal ((m.feed chunk).run host).result with
    | true =>
      have hone : feedRuns (chunk :: next :: rest) m host = [(m.feed chunk).run host] := by
        rw [feedRuns]
        simp only [hf, if_true]
      have hlike := endsLike_feed_of_final hm₁ hf (next :: rest).flatten
      rw [hone]
      refine ⟨⟨_, rfl, hlike⟩, fun ran hran _ => ?_⟩
      rw [List.mem_singleton.mp hran]
      exact hlike.result
    | false =>
      have hmore : feedRuns (chunk :: next :: rest) m host =
          (m.feed chunk).run host :: feedRuns (next :: rest) ((m.feed chunk).run host).machine
            ((m.feed chunk).run host).host := by
        rw [feedRuns]
        simp only [hf, Bool.false_eq_true, if_false]
      have hgo := Outcome.endsLike_of_silent_eq
        (run_feed_of_not_final hm₁ hf (next :: rest).flatten).symm
      obtain ⟨⟨last, hlast, hends⟩, hfinal⟩ :=
        ih next _ ((m.feed chunk).run host).host (place_run_le hm₁ hf)
      rw [hmore]
      refine ⟨⟨last, ?_, hends.trans hgo⟩, fun ran hran hran' => ?_⟩
      · rw [List.getLast?_cons, hlast]
        rfl
      · rcases List.mem_cons.mp hran with rfl | hran
        · rw [hf] at hran'
          cases hran'
        · exact (hfinal ran hran hran').trans hgo.result

/-- **Streaming is running at once.** A machine without a program, whatever its operand stack
holds, is fed a program in chunks and run after each, on a host that keeps its calls. The last run
ends like one run on the whole program, its host with the same calls; and only a run that ends as
the one run does can halt or fail. -/
theorem feedRuns_eq_run (host : σ) (settings : Settings) (registry : RegistryId)
    (operands : Operands) (chunk : List UInt8) (rest : List (List UInt8)) :
    let traced : Traced σ ν := ⟨host, []⟩
    let machine (program : List UInt8) : Machine ν :=
      { startOn traced program settings registry with operands }
    let runs := feedRuns (chunk :: rest) (machine []) traced
    let whole := (machine (chunk :: rest).flatten).run traced
    (∃ last, runs.getLast? = some last ∧ last.EndsLike whole) ∧
    ∀ ran ∈ runs, isFinal ran.result = true → ran.result = whole.result :=
  feedRuns_endsLike chunk rest _ _ (Nat.zero_le _)

end Machine

end TreeCode
