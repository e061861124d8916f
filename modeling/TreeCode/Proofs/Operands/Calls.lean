import Mathlib.Algebra.Order.Floor.Div
import Mathlib.GroupTheory.GroupAction.Ring
import TreeCode.Proofs.Operands.Texts

/-!
# Calls to an operand stack

A `Call` is one of the four accesses, and `after` is the stack that a history of calls leaves, some
of which may fail. Each access fails on a condition on the depth alone, or on where its text would
lie, and then leaves the stack as it is: one equivalence for each. So the pointer is wherever the
calls that succeeded have put it, never on slot 0 and never behind the end
(`pointer_kept_and_failures`).
-/

namespace TreeCode.Operands

inductive Call where
  | push (value : Int32)
  | pop
  | pushText (bytes : List UInt8)
  | popText (length : Int32)
  deriving DecidableEq, Repr

/-- Whether an access has succeeded, and the stack it left. -/
def ended {α : Type} : EStateM.Result Error Operands α → Bool × Operands
  | .ok _ s => (true, s)
  | .error _ s => (false, s)

namespace Call

def run (s : Operands) : Call → Bool × Operands
  | push value => ended (Operands.push value s)
  | pop => ended (Operands.pop s)
  | pushText bytes => ended (Operands.pushText bytes s)
  | popText length => ended (Operands.popText length s)

/-- The slots that a call puts on when it succeeds; those that it takes off count below zero. -/
def slots : Call → Int
  | push _ => 1
  | pop => -1
  | pushText bytes => words bytes.length
  | popText length => -words length.toNatClampNeg

end Call

def after (s : Operands) : List Call → Operands
  | [] => s
  | call :: rest => (call.run s).2.after rest

/-- The slots that some calls put on, less those that they take off. -/
def taken (s : Operands) : List Call → Int
  | [] => 0
  | call :: rest => (if (call.run s).1 then call.slots else 0) + (call.run s).2.taken rest

variable {s s' : Operands} {value length : Int32} {bytes : List UInt8} {e : Error}

/-! ## Where the pointer is -/

theorem depth_add_pointer (h : s.Sound) : s.depth + s.pointer = s.capacity :=
  Nat.sub_add_cancel h.le_capacity

theorem Sound.toInt_read_zero (h : s.Sound) : (s.slots.read 0).toInt = s.pointer := by
  have hpos := h.pos
  unfold pointer Int32.toNatClampNeg at *
  omega

theorem length_le_four_mul_words (n : Nat) : n ≤ 4 * words n := by
  unfold words
  omega

/-- What a call can do: it fails and leaves the stack, or it goes well as its access does. -/
@[elab_as_elim]
theorem Call.run_cases {motive : Call → Bool × Operands → Prop} (s : Operands)
    (failed : ∀ call, motive call (false, s))
    (push : ∀ value s', Operands.push value s = .ok () s' → motive (.push value) (true, s'))
    (pop : ∀ value s', Operands.pop s = .ok value s' → motive .pop (true, s'))
    (pushText : ∀ bytes s', Operands.pushText bytes s = .ok () s' →
      motive (.pushText bytes) (true, s'))
    (popText : ∀ length text s', Operands.popText length s = .ok text s' →
      motive (.popText length) (true, s'))
    (call : Call) : motive call (call.run s) := by
  cases call with
  | push value =>
    rw [Call.run]
    cases hcall : Operands.push value s with
    | ok a s' => exact push value s' hcall
    | error e s' => exact push_error hcall ▸ failed _
  | pop =>
    rw [Call.run]
    cases hcall : Operands.pop s with
    | ok value s' => exact pop value s' hcall
    | error e s' => exact pop_error hcall ▸ failed _
  | pushText bytes =>
    rw [Call.run]
    cases hcall : Operands.pushText bytes s with
    | ok a s' => exact pushText bytes s' hcall
    | error e s' => exact pushText_error hcall ▸ failed _
  | popText length =>
    rw [Call.run]
    cases hcall : Operands.popText length s with
    | ok text s' => exact popText length text s' hcall
    | error e s' => exact popText_error hcall ▸ failed _

/-- The second stack is sound, as large as the first, and takes `n` slots more. -/
structure Moved (s : Operands) (n : Int) (s' : Operands) : Prop where
  sound : s'.Sound
  capacity : s'.capacity = s.capacity
  scratchSize : s'.scratch.size = s.scratch.size
  depth : (s'.depth : Int) = s.depth + n

theorem moved_release (h : s.Sound) {n : Nat} (hn : n ≤ s.depth) : s.Moved (-n) (s.release n) where
  sound := h.release hn
  capacity := rfl
  scratchSize := rfl
  depth := by
    rw [depth_release h hn]
    omega

theorem moved_run (h : s.Sound) (call : Call) :
    s.Moved (if (call.run s).1 then call.slots else 0) (call.run s).2 := by
  refine call.run_cases s (fun _ => ?_) (fun value s' hpush => ?_) (fun value s' hpop => ?_)
    (fun bytes s' hpush => ?_) (fun length text s' hpop => ?_)
  · exact ⟨h, rfl, rfl, (Int.add_zero _).symm⟩
  · obtain ⟨hpointer, -, hbelow⟩ := push_ok h hpush
    have hs' := h.push hpush
    have hcapacity : s'.capacity = s.capacity := hbelow.capacity
    have hsum := depth_add_pointer h
    have hsum' := depth_add_pointer hs'
    refine ⟨hs', hcapacity, hbelow.scratchSize, ?_⟩
    simp only [Call.slots, if_true]
    omega
  · obtain ⟨hdepth, rfl⟩ := pop_ok hpop
    exact moved_release h hdepth
  · obtain ⟨hpointer, -, -, hbelow⟩ := pushText_ok h hpush
    have hs' := h.pushText hpush
    have hcapacity : s'.capacity = s.capacity := hbelow.capacity
    have hsum := depth_add_pointer h
    have hsum' := depth_add_pointer hs'
    refine ⟨hs', hcapacity, hbelow.scratchSize, ?_⟩
    simp only [Call.slots, if_true]
    omega
  · obtain ⟨hdepth, rfl⟩ := popText_ok hpop
    exact moved_release h hdepth

/-- The pointer after some calls is where those that succeeded have put it. -/
theorem moved_after (h : s.Sound) (calls : List Call) : s.Moved (s.taken calls) (s.after calls) := by
  induction calls generalizing s with
  | nil => exact ⟨h, rfl, rfl, (Int.add_zero _).symm⟩
  | cons call rest ih =>
    have hfirst := moved_run h call
    have hrest := ih hfirst.sound
    refine ⟨hrest.sound, hrest.capacity.trans hfirst.capacity,
      hrest.scratchSize.trans hfirst.scratchSize, ?_⟩
    rw [after, hrest.depth, hfirst.depth, taken, Int.add_assoc]

/-! ## When an access fails -/

theorem push_eq_error_iff (h : s.Sound) :
    push value s = .error e s' ↔
      s' = s ∧ s.depth = s.capacity - 1 ∧ e = .operandOverflow s.capacity := by
  have hsum := depth_add_pointer h
  have hpos := h.pos
  unfold push
  split
  · rename_i hfull
    have hdepth : s.depth = s.capacity - 1 := by omega
    simp [hdepth, eq_comm, and_comm]
  · rename_i hroom
    have hdepth : s.depth ≠ s.capacity - 1 := by omega
    simp [hdepth]

theorem pop_eq_error_iff (h : s.Sound) :
    pop s = .error e s' ↔ s' = s ∧ s.depth = 0 ∧ e = .operandUnderflow := by
  have hsum := depth_add_pointer h
  unfold pop
  split
  · rename_i hlt
    have hdepth : s.depth ≠ 0 := by omega
    simp [hdepth]
  · rename_i hle
    have hdepth : s.depth = 0 := by omega
    simp [hdepth, eq_comm, and_comm]

theorem pushText_eq_error_iff (h : s.Sound) :
    pushText bytes s = .error e s' ↔
      s' = s ∧
        (s.capacity - 1 < s.depth + words bytes.length ∧ e = .operandOverflow s.capacity ∨
          s.depth + words bytes.length ≤ s.capacity - 1 ∧
            s.scratch.size < 4 * (s.capacity - s.depth - words bytes.length) + bytes.length ∧
            e = .outsideScratch (4 * (s.capacity - s.depth - words bytes.length)) bytes.length) := by
  have hsum := depth_add_pointer h
  have hpos := h.pos
  have hpointer : s.capacity - s.depth = s.pointer := by omega
  rw [hpointer]
  unfold pushText
  simp only
  split
  · rename_i hfull
    have hdepth : s.capacity - 1 < s.depth + words bytes.length := by omega
    simp [hdepth, Nat.not_le_of_lt hdepth, eq_comm, and_comm]
  · rename_i hroom
    have hdepth : s.depth + words bytes.length ≤ s.capacity - 1 := by omega
    split
    · rename_i hscratch
      simp [hdepth, Nat.not_lt_of_le hdepth, Nat.not_lt_of_le hscratch]
    · rename_i hscratch
      simp [hdepth, Nat.not_lt_of_le hdepth, Nat.lt_of_not_le hscratch, eq_comm, and_comm]

theorem popText_eq_error_iff (h : s.Sound) :
    popText length s = .error e s' ↔
      s' = s ∧
        (length < 0 ∧ e = .outsideScratch (4 * (s.capacity - s.depth)) length.toInt ∨
          0 ≤ length ∧ s.depth < words length.toNatClampNeg ∧ e = .operandUnderflow ∨
          0 ≤ length ∧ words length.toNatClampNeg ≤ s.depth ∧
            s.scratch.size < 4 * (s.capacity - s.depth) + length.toNatClampNeg ∧
            e = .outsideScratch (4 * (s.capacity - s.depth)) length.toInt) := by
  have hsum := depth_add_pointer h
  have hpointer : s.capacity - s.depth = s.pointer := by omega
  rw [hpointer]
  unfold popText
  simp only
  split
  · rename_i hneg
    simp [hneg, Int32.not_le.mpr hneg, eq_comm, and_comm]
  · rename_i hneg
    have hlength : 0 ≤ length := Int32.not_lt.mp hneg
    split
    · rename_i hover
      have hdepth : s.depth < words length.toNatClampNeg := by omega
      simp [hneg, hlength, hdepth, Nat.not_le_of_lt hdepth, eq_comm, and_comm]
    · rename_i hunder
      have hdepth : words length.toNatClampNeg ≤ s.depth := by omega
      split
      · rename_i hscratch
        simp [hneg, hlength, hdepth, Nat.not_lt_of_le hdepth, Nat.not_lt_of_le hscratch]
      · rename_i hscratch
        simp [hneg, hlength, hdepth, Nat.not_lt_of_le hdepth, Nat.lt_of_not_le hscratch, eq_comm,
          and_comm]

/-! ## After any calls -/

/-- With four bytes of scratch for each slot, every text that has its slots has its bytes too. -/
theorem pushText_ne_outsideScratch (h : s.Sound) (hscratch : 4 * s.capacity ≤ s.scratch.size)
    (offset : Nat) (length : Int) :
    pushText bytes s ≠ .error (.outsideScratch offset length) s' := by
  intro hfail
  rcases ((pushText_eq_error_iff h).mp hfail).2 with ⟨-, he⟩ | ⟨hdepth, houtside, -⟩
  · cases he
  · have hbytes := length_le_four_mul_words bytes.length
    omega

/-- **The pointer is kept, and accesses fail exactly when they must.** After any calls to a stack
that was empty, slot 0 holds the number of slots less those that the calls which went well have
taken, so it is never a value that was put on, and it is neither zero nor more than there are slots.
Each of the four accesses then fails on the condition given here and no other, and the stack is left
as it is. -/
theorem pointer_kept_and_failures (slots scratchBytes : Nat) (calls : List Call) :
    let capacity := min (max slots 1) maxSlots
    let s := (empty slots scratchBytes).after calls
    ((s.slots.read 0).toInt = capacity - (empty slots scratchBytes).taken calls ∧
      1 ≤ (s.slots.read 0).toInt ∧ (s.slots.read 0).toInt ≤ capacity ∧
      s.depth ≤ capacity - 1) ∧
    (∀ value e s', push value s = .error e s' ↔
      s' = s ∧ s.depth = capacity - 1 ∧ e = .operandOverflow capacity) ∧
    (∀ e s', pop s = .error e s' ↔ s' = s ∧ s.depth = 0 ∧ e = .operandUnderflow) ∧
    (∀ bytes e s', pushText bytes s = .error e s' ↔
      let words := bytes.length ⌈/⌉ 4
      let offset := 4 * (capacity - s.depth - words)
      s' = s ∧
        (capacity - 1 < s.depth + words ∧ e = .operandOverflow capacity ∨
          s.depth + words ≤ capacity - 1 ∧ scratchBytes < offset + bytes.length ∧
            e = .outsideScratch offset bytes.length)) ∧
    (4 * capacity ≤ scratchBytes → ∀ bytes offset length s',
      pushText bytes s ≠ .error (.outsideScratch offset length) s') ∧
    (∀ length e s', popText length s = .error e s' ↔
      let words := length.toNatClampNeg ⌈/⌉ 4
      let offset := 4 * (capacity - s.depth)
      s' = s ∧
        (length < 0 ∧ e = .outsideScratch offset length.toInt ∨
          0 ≤ length ∧ s.depth < words ∧ e = .operandUnderflow ∨
          0 ≤ length ∧ words ≤ s.depth ∧ scratchBytes < offset + length.toNatClampNeg ∧
            e = .outsideScratch offset length.toInt)) := by
  intro capacity s
  have hmoved := moved_after (Sound.empty slots scratchBytes) calls
  have hs : s.Sound := hmoved.sound
  have hcapacity : s.capacity = capacity := hmoved.capacity
  have hscratch : s.scratch.size = scratchBytes := hmoved.scratchSize
  refine ⟨?_, fun value e s' => ?_, fun e s' => pop_eq_error_iff hs, fun bytes e s' => ?_,
    fun hlarge bytes offset length s' => ?_, fun length e s' => ?_⟩
  · have hdepth : (s.depth : Int) = (empty slots scratchBytes).depth + _ := hmoved.depth
    have hempty : (empty slots scratchBytes).depth = 0 :=
      (Holds.empty slots scratchBytes).depth
    have hsum := depth_add_pointer hs
    have hpos := hs.pos
    rw [hs.toInt_read_zero]
    omega
  · rw [← hcapacity]
    exact push_eq_error_iff hs
  · rw [← hcapacity, ← hscratch]
    exact pushText_eq_error_iff hs
  · rw [← hcapacity, ← hscratch] at hlarge
    exact pushText_ne_outsideScratch hs hlarge offset length
  · rw [← hcapacity, ← hscratch]
    exact popText_eq_error_iff hs

/-- A stack of three slots, full of a text and a value, with scratch for all of them: it takes no
more, and what is asked of it in the wrong length fails. -/
theorem pointer_kept_and_failures_full :
    let s := (empty 3 12).after [.pushText [97, 98], .push 5]
    s.slots.read 0 = 1 ∧ push 6 s = .error (.operandOverflow 3) s ∧
      pushText [97] s = .error (.operandOverflow 3) s ∧
      popText (-2) s = .error (.outsideScratch 4 (-2)) s ∧
      popText 9 s = .error .operandUnderflow s ∧
      ∀ bytes offset length s', pushText bytes s ≠ .error (.outsideScratch offset length) s' := by
  intro s
  obtain ⟨-, hpush, -, hpushText, hinside, hpopText⟩ :=
    pointer_kept_and_failures 3 12 [.pushText [97, 98], .push 5]
  have hdepth : s.depth = 2 := by decide +kernel
  exact ⟨by decide +kernel, (hpush _ _ _).mpr ⟨rfl, hdepth, rfl⟩,
    (hpushText _ _ _).mpr ⟨rfl, .inl ⟨by rw [hdepth]; decide, rfl⟩⟩,
    (hpopText _ _ _).mpr ⟨rfl, .inl ⟨by decide, by rw [hdepth]; decide⟩⟩,
    (hpopText _ _ _).mpr ⟨rfl, .inr (.inl ⟨by decide, by rw [hdepth]; decide, rfl⟩)⟩,
    hinside (by decide)⟩

end TreeCode.Operands
