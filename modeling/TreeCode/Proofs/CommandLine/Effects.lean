import TreeCode.CommandLine
import TreeCode.Proofs.CommandLine.Files
import TreeCode.Proofs.Patch

/-!
# What a call does

A command reads the files that it names, may write one, and ends in one of four ways (`Ends`): it
prints something, it has written a patch, the program that it ran has failed, or a file could not be
read or written. A call ends as the command that its arguments spell, if they spell one, and its exit
code tells which way that was (`call_effects`). Only a patch that was written changes a file.
-/

namespace TreeCode.CommandLine

variable {d : Directory} {arguments : List String}

/-! ## Commands and their files -/

namespace Command

def spellings : Command → List (List String)
  | .list file => [["disasm", file]]
  | .run file => [["run", file]]
  | .patch old new out => [["patch", old, new, out]]
  | .help => [["help"], ["-h"], ["--help"]]

def inputs : Command → List String
  | .list file | .run file => [file]
  | .patch old new _ => [old, new]
  | .help => []

def output? : Command → Option String
  | .patch _ _ out => some out
  | _ => none

/-- What the command names can be read, and be written. -/
structure Served (c : Command) (d : Directory) : Prop where
  readable : ∀ path ∈ c.inputs, ∃ bytes, d.read path = .ok bytes
  writable : ∀ path ∈ c.output?, d.Writable path

/-- The command is to run a program, and the program fails or is unfinished. -/
def Crashes (c : Command) (d : Directory) : Prop :=
  ∃ file program e, c = .run file ∧ d.read file = .ok program ∧
    (Session.run { host := ({} : Document) } program).1 = .error e

theorem ofArguments?_eq_some_iff {c : Command} :
    ofArguments? arguments = some c ↔ arguments ∈ c.spellings := by
  constructor
  · intro h
    unfold ofArguments? at h
    split at h <;> cases h <;> simp [spellings]
  · intro h
    cases c with
    | list | run | patch =>
      obtain rfl := List.mem_singleton.mp h
      rfl
    | help =>
      simp only [spellings, List.mem_cons, List.not_mem_nil, or_false] at h
      rcases h with rfl | rfl | rfl <;> rfl

theorem Crashes.served {c : Command} (h : c.Crashes d) : c.Served d := by
  obtain ⟨file, program, e, rfl, hread, -⟩ := h
  refine ⟨fun path hpath => ?_, fun path hpath => by cases hpath⟩
  obtain rfl := List.mem_singleton.mp hpath
  exact ⟨program, hread⟩

/-- How a command ends, and the files after it. -/
inductive Ends (c : Command) (d : Directory) : Except Failure String → Directory → Prop
  | printed (text : String) : c.Served d → ¬ c.Crashes d → c.output? = none → Ends c d (.ok text) d
  | wrote {old new out name : String} {bytes : List UInt8} (text : String) :
      c = .patch old new out → c.Served d → d.read new = .ok bytes → d.LeadsTo out name →
      Ends c d (.ok text) (d.put name bytes)
  | crashed (e : Error) : c.Crashes d → Ends c d (.error (.program e)) d
  | denied (path : String) (fault : FileFault) : ¬ c.Served d →
      Ends c d (.error (.file path fault)) d

end Command

/-! ## Steps in a directory -/

section Steps

variable {α β : Type}

/-- A step of a command that can fail. -/
abbrev Attempt (α : Type) := ExceptT Failure (StateM Directory) α

theorem run_bind (x : StateM Directory α) (f : α → StateM Directory β) (d : Directory) :
    (x >>= f).run d = (f (x.run d).1).run (x.run d).2 := rfl

theorem run_lift_bind (x : StateM Directory α) (f : α → Attempt β) (d : Directory) :
    StateT.run (liftM x >>= f : Attempt β) d = StateT.run (f (x.run d).1) (x.run d).2 := rfl

theorem run_attempt_bind (x : Attempt α) (f : α → Attempt β) (d : Directory) :
    StateT.run (x >>= f : Attempt β) d =
      match StateT.run x d with
      | (.ok a, d') => StateT.run (f a) d'
      | (.error e, d') => (.error e, d') := by
  change StateT.run (ExceptT.bindCont f (StateT.run x d).1) (StateT.run x d).2 = _
  rcases StateT.run x d with ⟨_ | _, d'⟩ <;> rfl

theorem run_read (d : Directory) (path : String) :
    StateT.run (Files.read path : StateM Directory _) d = (d.read path, d) := rfl

theorem run_write (d : Directory) (path : String) (bytes : List UInt8) :
    StateT.run (Files.write path bytes : StateM Directory _) d =
      match d.write path bytes with
      | .ok d' => (.ok (), d')
      | .error fault => (.error fault, d) := by
  change StateT.run (match d.write path bytes with
    | .ok d' => (do set d'; return .ok () : StateM Directory (Except FileFault Unit))
    | .error fault => return .error fault) d = _
  cases d.write path bytes <;> rfl

theorem run_readFile (d : Directory) (path : String) :
    StateT.run (readFile path : Attempt (List UInt8)) d =
      (match d.read path with
        | .ok bytes => .ok bytes
        | .error fault => .error (.file path fault), d) := by
  rw [readFile, run_lift_bind, run_read]
  cases d.read path <;> rfl

theorem run_writeFile (d : Directory) (path : String) (bytes : List UInt8) :
    StateT.run (writeFile path bytes : Attempt Unit) d =
      match d.write path bytes with
      | .ok d' => (.ok (), d')
      | .error fault => (.error (.file path fault), d) := by
  rw [writeFile, run_lift_bind, run_write]
  cases d.write path bytes <;> rfl

end Steps

/-! ## Commands -/

namespace Command

/-- A command in a directory: what it answers, and the files after it. -/
def act (c : Command) (d : Directory) : (Except Failure String × List Record) × Directory :=
  (c.perform : StateM Directory _).run d

theorem act_list (file : String) (d : Directory) :
    (list file).act d =
      (match d.read file with
        | .ok program => (.ok (Listing.ofProgram program).text, [])
        | .error fault => (.error (.file file fault), []), d) := by
  rw [act, perform, run_bind, run_readFile]
  cases d.read file <;> rfl

theorem act_run (file : String) (d : Directory) :
    (run file).act d =
      (match d.read file with
        | .ok program =>
          let (result, session, log) := Session.run { host := ({} : Document) } program
          (match result with
            | .ok root => .ok (render session root ++ "\n")
            | .error e => .error (.program e), log)
        | .error fault => (.error (.file file fault), []), d) := by
  rw [act, perform, run_bind, run_readFile]
  cases d.read file with
  | error fault => rfl
  | ok program =>
    simp only
    obtain ⟨result, session, log⟩ := Session.run { host := ({} : Document) } program
    cases result <;> rfl

theorem run_inputs (old new : String) (d : Directory) :
    StateT.run (do
        let old ← readFile old
        let new ← readFile new
        return (old, new) : Attempt (List UInt8 × List UInt8)) d =
      (match d.read old with
        | .error fault => .error (.file old fault)
        | .ok oldBytes =>
          match d.read new with
          | .error fault => .error (.file new fault)
          | .ok newBytes => .ok (oldBytes, newBytes), d) := by
  rw [run_attempt_bind, run_readFile]
  cases d.read old with
  | error fault => rfl
  | ok oldBytes =>
    simp only [run_attempt_bind, run_readFile]
    cases d.read new <;> rfl

theorem act_patch (old new out : String) (d : Directory) :
    (patch old new out).act d =
      match d.read old with
      | .error fault => ((.error (.file old fault), []), d)
      | .ok oldBytes =>
        match d.read new with
        | .error fault => ((.error (.file new fault), []), d)
        | .ok newBytes =>
          let log := (TreeCode.patch oldBytes newBytes).2
          match d.write out newBytes with
          | .error fault => ((.error (.file out fault), log), d)
          | .ok d' =>
            let text := "wrote " ++ Nat.repr newBytes.length ++ " byte(s) to " ++ out ++ "\n"
            ((.ok text, log), d') := by
  rw [act, perform, run_bind, run_inputs]
  cases d.read old with
  | error fault => rfl
  | ok oldBytes =>
    cases d.read new with
    | error fault => rfl
    | ok newBytes =>
      have hbytes : (TreeCode.patch oldBytes newBytes).1 = newBytes :=
        Patch.fst_walk 0 oldBytes newBytes
      simp only [run_bind, run_writeFile, hbytes]
      cases d.write out newBytes <;> rfl

/-! ## How commands end -/

variable {c : Command} {path : String}

theorem not_served_of_read {fault : FileFault} (hpath : path ∈ c.inputs)
    (h : d.read path = .error fault) : ¬ c.Served d := by
  intro hserved
  obtain ⟨bytes, hbytes⟩ := hserved.readable path hpath
  rw [h] at hbytes
  cases hbytes

theorem served_of_read {bytes : List UInt8} (hinputs : c.inputs = [path])
    (houtput : c.output? = none) (h : d.read path = .ok bytes) : c.Served d where
  readable other hother := by
    rw [hinputs] at hother
    obtain rfl := List.mem_singleton.mp hother
    exact ⟨bytes, h⟩
  writable other hother := by
    rw [houtput] at hother
    cases hother

theorem ends_run (file : String) (d : Directory) :
    (run file).Ends d ((run file).act d).1.1 ((run file).act d).2 := by
  rw [act_run]
  cases hread : d.read file with
  | error fault => exact .denied file fault (not_served_of_read List.mem_cons_self hread)
  | ok program =>
    have hserved : (run file).Served d := served_of_read rfl rfl hread
    simp only
    cases hresult : (Session.run { host := ({} : Document) } program).1 with
    | error e => exact .crashed e ⟨file, program, e, rfl, hread, hresult⟩
    | ok root =>
      refine .printed _ hserved ?_ rfl
      rintro ⟨_, _, e, ⟨⟩, hread', hresult'⟩
      rw [hread] at hread'
      cases hread'
      rw [hresult] at hresult'
      cases hresult'

theorem ends_patch (old new out : String) (d : Directory) :
    (patch old new out).Ends d ((patch old new out).act d).1.1 ((patch old new out).act d).2 := by
  rw [act_patch]
  cases hold : d.read old with
  | error fault => exact .denied old fault (not_served_of_read List.mem_cons_self hold)
  | ok oldBytes =>
    cases hnew : d.read new with
    | error fault => exact .denied new fault (not_served_of_read (by simp [inputs]) hnew)
    | ok newBytes =>
      -- Whether the write succeeds is a matter of the path alone, not of the bytes.
      by_cases hwritable : d.Writable out
      · obtain ⟨name, hname⟩ := hwritable
        have hserved : (patch old new out).Served d := by
          refine ⟨?_, ?_⟩
          · simp [inputs, hold, hnew]
          · rintro _ ⟨⟩
            exact ⟨name, hname⟩
        simp only [Directory.write_of_leadsTo hname]
        exact .wrote _ rfl hserved hnew hname
      · obtain ⟨fault, hfault⟩ := Directory.exists_write_error hwritable newBytes
        simp only [hfault]
        exact .denied out fault fun hserved => hwritable (hserved.writable out rfl)

/-- Every command ends in one of the four ways. -/
theorem ends (c : Command) (d : Directory) : c.Ends d (c.act d).1.1 (c.act d).2 := by
  cases c with
  | list file =>
    rw [act_list]
    cases hread : d.read file with
    | error fault => exact .denied file fault (not_served_of_read List.mem_cons_self hread)
    | ok program =>
      exact .printed _ (served_of_read rfl rfl hread) (by rintro ⟨_, _, _, ⟨⟩, _⟩) rfl
  | run file => exact ends_run file d
  | patch old new out => exact ends_patch old new out d
  | help =>
    refine .printed _ ⟨List.forall_mem_nil _, ?_⟩ (by rintro ⟨_, _, _, ⟨⟩, _⟩) rfl
    rintro _ ⟨⟩

def codeOf : Except Failure String → UInt32
  | .ok _ => 0
  | .error e => e.exitCode

namespace Ends

variable {result : Except Failure String} {after : Directory}

theorem codeOf_iff (h : c.Ends d result after) :
    (codeOf result = 0 ↔ c.Served d ∧ ¬ c.Crashes d) ∧ (codeOf result = 1 ↔ c.Crashes d) ∧
      (codeOf result = 2 ↔ ¬ c.Served d) := by
  cases h with
  | printed text hserved hfine _ => simp [codeOf, hserved, hfine]
  | wrote text hc hserved _ _ =>
    have hfine : ¬ c.Crashes d := by
      rintro ⟨_, _, _, hrun, _⟩
      rw [hc] at hrun
      cases hrun
    simp [codeOf, hserved, hfine]
  | crashed e hcrash => simp [codeOf, Failure.exitCode, hcrash, hcrash.served]
  | denied path fault hserved =>
    have hfine : ¬ c.Crashes d := fun hcrash => hserved hcrash.served
    simp [codeOf, Failure.exitCode, hserved, hfine]

theorem after_patch {old new out : String} (h : (patch old new out).Ends d result after)
    (hserved : (patch old new out).Served d) :
    ∃ name bytes, d.LeadsTo out name ∧ d.read new = .ok bytes ∧ after = d.put name bytes := by
  cases h with
  | printed _ _ _ houtput => cases houtput
  | wrote text hc _ hread hname =>
    cases hc
    exact ⟨_, _, hname, hread, rfl⟩
  | crashed e hcrash =>
    obtain ⟨_, _, _, ⟨⟩, _⟩ := hcrash
  | denied path fault hdenied => exact absurd hserved hdenied

/-- Any other command leaves the files as they were, and so does a patch that is not served. -/
theorem after_eq (h : c.Ends d result after) (hc : c.output? = none ∨ codeOf result ≠ 0) :
    after = d := by
  cases h with
  | printed | crashed | denied => rfl
  | wrote text hpatch _ _ _ =>
    rw [hpatch] at hc
    rcases hc with houtput | hcode
    · cases houtput
    · exact absurd rfl hcode

end Ends

end Command

/-! ## Calls -/

/-- A call in a directory: its reply, and the files after it. -/
def call (environment : Environment) (arguments : List String) (d : Directory) :
    Reply × Directory :=
  (execute environment arguments : StateM Directory Reply).run d

theorem call_of_none (environment : Environment) (d : Directory)
    (h : Command.ofArguments? arguments = none) :
    (call environment arguments d).1.code = 2 ∧ (call environment arguments d).1.stdout = "" ∧
      (call environment arguments d).2 = d := by
  unfold call execute
  simp only [h]
  exact ⟨rfl, rfl, rfl⟩

theorem call_of_some (environment : Environment) (d : Directory) {c : Command}
    (h : Command.ofArguments? arguments = some c) :
    (call environment arguments d).1.code = Command.codeOf (c.act d).1.1 ∧
      (call environment arguments d).1.stdout =
        (match (c.act d).1.1 with
          | .ok text => text
          | .error _ => "") ∧
      (call environment arguments d).2 = (c.act d).2 := by
  unfold call execute
  simp only [h, run_bind]
  rw [show (c.perform : StateM Directory _).run d = c.act d from rfl]
  cases (c.act d).1.1 <;> exact ⟨rfl, rfl, rfl⟩

theorem not_mem_spellings (h : Command.ofArguments? arguments = none) (c : Command) :
    arguments ∉ c.spellings := by
  intro hspelled
  rw [← Command.ofArguments?_eq_some_iff, h] at hspelled
  cases hspelled

theorem exists_spelled_iff {c : Command} (h : Command.ofArguments? arguments = some c)
    {P : Command → Prop} : (∃ c', arguments ∈ c'.spellings ∧ P c') ↔ P c := by
  constructor
  · rintro ⟨c', hspelled, hP⟩
    rw [← Command.ofArguments?_eq_some_iff, h] at hspelled
    cases hspelled
    exact hP
  · intro hP
    exact ⟨c, Command.ofArguments?_eq_some_iff.mp h, hP⟩

/-- **What calls do to files, and how they end.** In any directory and with any arguments, a call
that writes a patch, of inputs that can be read and at a path that can be written, leaves a file
there with just the bytes of the new program, be it one of the inputs, and all other files as they
were. Any other call leaves all files as they were, and so does one that fails. The exit code is 1
just where the call is to run a program that can be read, and the program fails or is unfinished; it
is 2 just where the arguments spell no command, or the command names a file that cannot be read or
written; and it is 0 just where neither is so. Only then is something printed. -/
theorem call_effects (environment : Environment) (arguments : List String) (d : Directory) :
    let reply := (call environment arguments d).1
    let after := (call environment arguments d).2
    (∀ old new out, arguments = ["patch", old, new, out] → (Command.patch old new out).Served d →
        ∃ name bytes, d.LeadsTo out name ∧ d.read new = .ok bytes ∧ after.read out = .ok bytes ∧
          ∀ other, List.lookup other after =
            if other = name then some bytes else List.lookup other d) ∧
      ((∀ old new out, arguments ≠ ["patch", old, new, out]) ∨ reply.code ≠ 0 → after = d) ∧
      (reply.code = 0 ↔ ∃ c : Command, arguments ∈ c.spellings ∧ c.Served d ∧ ¬ c.Crashes d) ∧
      (reply.code = 1 ↔ ∃ c : Command, arguments ∈ c.spellings ∧ c.Crashes d) ∧
      (reply.code = 2 ↔ (∀ c : Command, arguments ∉ c.spellings) ∨
        ∃ c : Command, arguments ∈ c.spellings ∧ ¬ c.Served d) ∧
      (reply.code ≠ 0 → reply.stdout = "") := by
  intro reply after
  cases hc : Command.ofArguments? arguments with
  | none =>
    have hunspelled := not_mem_spellings hc
    obtain ⟨hcode, hstdout, hafter⟩ := call_of_none environment d hc
    rw [show reply.code = 2 from hcode]
    refine ⟨fun old new out h => ?_, fun _ => hafter, ?_, ?_, ?_, fun _ => hstdout⟩
    · exact absurd (List.mem_singleton.mpr h) (hunspelled (.patch old new out))
    · simp [hunspelled]
    · simp [hunspelled]
    · simp [hunspelled]
  | some c =>
    obtain ⟨hcode, hstdout, hafter⟩ := call_of_some environment d hc
    have hends := Command.ends c d
    obtain ⟨hzero, hone, htwo⟩ := hends.codeOf_iff
    rw [show reply.code = _ from hcode, show reply.stdout = _ from hstdout,
      show after = _ from hafter, exists_spelled_iff hc, exists_spelled_iff hc,
      exists_spelled_iff hc]
    refine ⟨fun old new out harguments hserved => ?_, fun h => ?_, hzero, hone, ?_, fun hne => ?_⟩
    · have hpatch : Command.ofArguments? arguments = some (.patch old new out) := by
        rw [harguments]
        rfl
      obtain rfl : c = .patch old new out := Option.some.inj (hc.symm.trans hpatch)
      obtain ⟨name, bytes, hname, hread, hput⟩ := hends.after_patch hserved
      rw [hput]
      exact ⟨name, bytes, hname, hread, Directory.read_put hname bytes,
        Directory.lookup_put d name bytes⟩
    · refine hends.after_eq (h.imp_left fun hother => ?_)
      have hspelled := Command.ofArguments?_eq_some_iff.mp hc
      cases c with
      | list | run | help => rfl
      | patch old new out => exact absurd (List.mem_singleton.mp hspelled) (hother old new out)
    · rw [htwo]
      have hspelled := Command.ofArguments?_eq_some_iff.mp hc
      exact ⟨.inr, fun h => h.resolve_left fun hnone => hnone c hspelled⟩
    · cases hresult : (c.act d).1.1 with
      | ok text =>
        rw [hresult] at hne
        exact absurd rfl hne
      | error e => rfl

/-- A patch is written onto the old program, by another path that leads to it. -/
theorem call_effects_onto_input :
    let d : Directory := [("a", [1, 1, 97]), ("b", [6, 1, 98])]
    let called := call {} ["patch", "a", "b", "./a"] d
    (Command.patch "a" "b" "./a").Served d ∧ called.2.read "./a" = .ok [6, 1, 98] ∧
      ∀ other ≠ "a", List.lookup other called.2 = List.lookup other d := by
  intro d called
  have hname : d.LeadsTo "./a" "a" :=
    ⟨by simp +decide [Directory.target, Directory.follow, String.splitOn, String.splitOnAux],
      by decide +kernel⟩
  have hold : d.read "a" = .ok [1, 1, 97] :=
    Directory.read_eq_ok_iff.mpr ⟨"a", Directory.leadsTo_name
      (by simp +decide [String.splitOn, String.splitOnAux]) (by decide) (by decide +kernel)
      (by decide +kernel), rfl⟩
  have hnew : d.read "b" = .ok [6, 1, 98] :=
    Directory.read_eq_ok_iff.mpr ⟨"b", Directory.leadsTo_name
      (by simp +decide [String.splitOn, String.splitOnAux]) (by decide) (by decide +kernel)
      (by decide +kernel), rfl⟩
  have hserved : (Command.patch "a" "b" "./a").Served d := by
    refine ⟨fun path hpath => ?_, ?_⟩
    · simp only [Command.inputs, List.mem_cons, List.not_mem_nil, or_false] at hpath
      rcases hpath with rfl | rfl
      · exact ⟨_, hold⟩
      · exact ⟨_, hnew⟩
    · rintro _ ⟨⟩
      exact ⟨"a", hname⟩
  obtain ⟨hpatch, -⟩ := call_effects {} ["patch", "a", "b", "./a"] d
  obtain ⟨name, bytes, hname', hread, hafter, hothers⟩ := hpatch "a" "b" "./a" rfl hserved
  obtain rfl : name = "a" := by
    cases hname'.target.symm.trans hname.target
    rfl
  cases hread.symm.trans hnew
  refine ⟨hserved, hafter, fun other hne => ?_⟩
  rw [hothers other, if_neg hne]

end TreeCode.CommandLine
