import Mathlib.Data.List.Basic
import TreeCode.Proofs.Machine.Deeds
import TreeCode.Proofs.Machine.Following
import TreeCode.Session

/-!
# How a session ends a program

What a session answers to a program, and what it leaves, follows from the listing of the program
(`run_of_followed_ok`, `run_of_followed_error`): an instruction that fails ends it at once, and
otherwise the ending of the listing tells. So bytes behind a program that start no instruction, or
one that is not finished, do not change what the program does (`bad_tail`).
-/

namespace TreeCode

variable {σ ν : Type}

/-- What a session answers to a program of which all instructions were executed. -/
def Ending.answer (root : Option ν) : Ending → Except Error (Option ν)
  | .finished | .unknown _ _ => .ok root
  | .truncated offset => .error (.unfinished offset)
  | .undelimited offset found => .error (.undelimitedKey offset found)

/-- Whether a program with this ending has failed when all its instructions were executed. -/
def Ending.fails : Ending → Bool
  | .undelimited _ _ => true
  | _ => false

namespace Session

open Machine (follow)

variable [Host σ ν] {s : Session σ} {program : List UInt8}

/-- The instructions of a program as a new machine of the session executes them. -/
def followed (s : Session σ) (program : List UInt8) :
    List (Nat × Instruction String) × Outcome σ ν Unit :=
  follow (Listing.ofProgram program).items (s.machine program) s.host

theorem run_followed (s : Session σ) (program : List UInt8) :
    Machine.Followed (.ofProgram program) program (s.followed program)
      ((s.machine program : Machine ν).run s.host) :=
  Machine.runOn_followed (s.machine program : Machine ν).remaining _ s.host rfl (Nat.zero_le _)

theorem run_of_followed_error {e : Error} (h : (s.followed program).2.result = .error e) :
    (s.run program).1 = .error e ∧
      (s.run program).2.1 = { s with host := (s.followed program).2.host } := by
  have hf := run_followed s program
  obtain ⟨hresult, -⟩ := hf.failed e h
  simp only [run, hresult, hf.host, and_self]

theorem run_of_followed_ok (h : (s.followed program).2.result = .ok ()) :
    (s.run program).1 =
        (Listing.ofProgram program).ending.answer (s.followed program).2.machine.root? ∧
      (s.run program).2.1 = { s with
        host := if (Listing.ofProgram program).ending.fails then (s.followed program).2.host
          else ((s.followed program).2.machine.flush (s.followed program).2.host).host } := by
  have hf := run_followed s program
  obtain ⟨hresult, hplace⟩ := Prod.mk.inj (hf.ended h)
  have hroot : ((s.machine program : Machine ν).run s.host).machine.root? =
      (s.followed program).2.machine.root? := by rw [hf.machine]; rfl
  have hhost (host : σ) : { s with
      host := (((s.machine program : Machine ν).run s.host).machine.flush host).host } =
      { s with host := ((s.followed program).2.machine.flush host).host } := by
    rw [hf.machine]; rfl
  cases hending : (Listing.ofProgram program).ending with
  | finished | unknown _ _ =>
    rw [hending] at hresult
    simp only [run, hresult, hf.host]
    exact ⟨congrArg Except.ok hroot, hhost _⟩
  | truncated offset =>
    rw [hending] at hresult hplace
    simp only [run, hresult, hf.host]
    exact ⟨congrArg (Except.error ∘ Error.unfinished) hplace, hhost _⟩
  | undelimited offset found =>
    rw [hending] at hresult
    simp only [run, hresult, hf.host]
    exact ⟨rfl, rfl⟩

/-- A session says that a program is unfinished only where the listing of the program is truncated
and all instructions before were executed. -/
theorem truncated_of_run {offset : Nat} (h : (s.run program).1 = .error (.unfinished offset)) :
    (Listing.ofProgram program).ending = .truncated offset ∧
      (s.followed program).2.result = .ok () := by
  cases hresult : (s.followed program).2.result with
  | error e =>
    rw [(run_of_followed_error hresult).1] at h
    cases h
    -- No instruction fails so.
    have hraised := Machine.raised_of_runOn ((run_followed s program).failed _ hresult).1
    cases hraised
  | ok u =>
    rw [(run_of_followed_ok hresult).1] at h
    cases hending : (Listing.ofProgram program).ending with
    | finished | unknown _ _ | undelimited _ _ => rw [hending] at h; cases h
    | truncated place => rw [hending] at h; cases h; exact ⟨rfl, rfl⟩

/-! ## Tails -/

variable {p q : List UInt8} {ending : Ending}

theorem readAt_zero (hq : q ≠ []) : Instruction.readAt q 0 = (Instruction.read q).at 0 :=
  Instruction.readAt_of_lt (List.length_pos_iff.mpr hq)

theorem ofBytes_of_readAt_unknown {byte : UInt8} (hne : q ≠ [])
    (hq : Instruction.readAt q 0 = .ok (.unknown byte)) (offset : Nat) :
    Listing.ofBytes offset q = ⟨[], .unknown offset byte⟩ := by
  rw [readAt_zero hne, Instruction.Verdict.at_eq_unknown_iff] at hq
  exact Listing.ofBytes_of_unknown hq offset

theorem ofBytes_of_readAt_truncated (hq : Instruction.readAt q 0 = .ok .truncated) (offset : Nat) :
    Listing.ofBytes offset q = ⟨[], .truncated offset⟩ := by
  have hne : q ≠ [] := by
    rintro rfl
    cases hq
  rw [readAt_zero hne, Instruction.Verdict.at_eq_truncated_iff] at hq
  exact Listing.ofBytes_of_truncated hne hq offset

/-- Behind a program that is listed to its end stand bytes that begin with no instruction. Then the
session does what it does without them, and only its answer can be another. -/
theorem run_append_tail (hp : (Listing.ofProgram p).ending = .finished)
    (hq : Listing.ofBytes p.length q = ⟨[], ending⟩) (hending : ending.fails = false) :
    (s.run (p ++ q)).1 = (s.run p).1.bind ending.answer ∧
      (s.run (p ++ q)).2.1 = (s.run p).2.1 := by
  have hlisting : Listing.ofProgram (p ++ q) = ⟨(Listing.ofProgram p).items, ending⟩ := by
    rw [Listing.ofProgram, Listing.ofBytes_append hp, Nat.zero_add, hq, List.append_nil]
    rfl
  have hfollowed : s.followed (p ++ q) =
      ((s.followed p).1, (s.followed p).2.relocate (p ++ q) 0) := by
    rw [followed, hlisting]
    exact Machine.follow_relocate _ (s.machine p) s.host (p ++ q) 0
  have hresult : (s.followed (p ++ q)).2.result = (s.followed p).2.result := by rw [hfollowed]; rfl
  cases h : (s.followed p).2.result with
  | error e =>
    obtain ⟨hanswer, hafter⟩ := run_of_followed_error h
    obtain ⟨hanswer', hafter'⟩ := run_of_followed_error (hresult.trans h)
    rw [hanswer, hanswer', hafter, hafter', hfollowed]
    exact ⟨rfl, rfl⟩
  | ok u =>
    obtain ⟨hanswer, hafter⟩ := run_of_followed_ok h
    obtain ⟨hanswer', hafter'⟩ := run_of_followed_ok (hresult.trans h)
    rw [hanswer, hanswer', hafter, hafter', hfollowed, hp, hlisting, hending]
    exact ⟨rfl, rfl⟩

/-- **What stands behind a finished program.** A program is listed to its end, and bytes follow it.
If they start no instruction, the session answers what it answers without them; if they are the
start of an instruction, it says that the program is unfinished where they stand, or fails as it
fails without them. Either way it is left as it is without them, with the insertions that were put off
made. And it says of any program that it is unfinished only where the listing is truncated, all
instructions before that being executed. -/
theorem bad_tail (s : Session σ) (hp : (Listing.ofProgram p).ending = .finished) (q : List UInt8) :
    (∀ byte, Instruction.readAt q 0 = .ok (.unknown byte) →
      (s.run (p ++ q)).1 = (s.run p).1 ∧ (s.run (p ++ q)).2.1 = (s.run p).2.1) ∧
    (Instruction.readAt q 0 = .ok .truncated →
      (s.run (p ++ q)).1 = (match (s.run p).1 with
        | .ok _ => .error (.unfinished p.length)
        | .error e => .error e) ∧
      (s.run (p ++ q)).2.1 = (s.run p).2.1) ∧
    ∀ program offset, (s.run program).1 = .error (.unfinished offset) →
      let listing := Listing.ofProgram program
      let followed := follow listing.items (s.machine program : Machine ν) s.host
      listing.ending = .truncated offset ∧ followed.1 = listing.items ∧
        followed.2.result = .ok () := by
  refine ⟨fun byte hq => ?_, fun hq => ?_, fun program offset h => ?_⟩
  · by_cases hne : q = []
    · rw [hne, List.append_nil]
      exact ⟨rfl, rfl⟩
    · obtain ⟨hanswer, hafter⟩ :=
        run_append_tail (s := s) hp (ofBytes_of_readAt_unknown hne hq p.length) rfl
      refine ⟨hanswer.trans ?_, hafter⟩
      cases (s.run p).1 <;> rfl
  · obtain ⟨hanswer, hafter⟩ :=
      run_append_tail (s := s) hp (ofBytes_of_readAt_truncated hq p.length) rfl
    refine ⟨hanswer.trans ?_, hafter⟩
    cases (s.run p).1 <;> rfl
  · obtain ⟨hending, hresult⟩ := truncated_of_run h
    exact ⟨hending, Machine.follow_of_ok hresult, hresult⟩

/-- On a document that puts siblings off, one text is put beside another, and bytes follow: an
unknown one, or the start of a text. -/
theorem bad_tail_behind_siblings :
    let s : Session Document := { host := { defersSiblings := true } }
    let p : List UInt8 := [6, 1, 97, 6, 1, 98, 12]
    (Listing.ofProgram p).ending = .finished ∧
      Instruction.readAt [0x7f, 6] 0 = .ok (.unknown 0x7f) ∧
      Instruction.readAt [6, 5, 104] 0 = .ok .truncated ∧
      (s.run (p ++ [0x7f, 6])).1 = .ok (some 0) ∧
      (s.run (p ++ [0x7f, 6])).2.1.host.fragment = [0, 1] ∧
      (s.run (p ++ [6, 5, 104])).1 = .error (.unfinished 7) ∧
      (s.run (p ++ [6, 5, 104])).2.1.host.fragment = [0, 1] ∧
      (Listing.ofProgram (p ++ [6, 5, 104])).ending = .truncated 7 := by
  intro s p
  have hp : (Listing.ofProgram p).ending = .finished := by decide +kernel
  have hunknown : Instruction.readAt [0x7f, 6] 0 = .ok (.unknown 0x7f) := rfl
  have htruncated : Instruction.readAt [6, 5, 104] 0 = .ok .truncated := rfl
  have hanswer : (s.run p).1 = .ok (some 0) := by decide +kernel
  have hfragment : (s.run p).2.1.host.fragment = [0, 1] := by decide +kernel
  obtain ⟨hsame, hafter⟩ := (bad_tail s hp [0x7f, 6]).1 0x7f hunknown
  obtain ⟨hother, hafter'⟩ := (bad_tail s hp [6, 5, 104]).2.1 htruncated
  rw [hanswer] at hsame hother
  refine ⟨hp, hunknown, htruncated, hsame, ?_, hother, ?_, ?_⟩
  · rw [hafter, hfragment]
  · rw [hafter', hfragment]
  · exact ((bad_tail s hp []).2.2 _ 7 hother).1

end Session

end TreeCode
