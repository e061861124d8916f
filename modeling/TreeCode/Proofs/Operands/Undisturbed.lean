import TreeCode.Proofs.Operands.Calls

/-!
# Contents that calls leave alone

What a stack holds lies from its pointer on, the values in slots and the texts in scratch. A call
changes nothing there but where the pointer is (`covers_run`). So as long as calls do not go below
some contents (`NeverBelow`), they are left as they were (`Covers.after`), and once the calls have
gone back to them, they come off as they were put on (`contents_come_back`).
-/

namespace TreeCode.Operands

variable {s t u pushed : Operands} {value length : Int32} {bytes : List UInt8} {calls : List Call}

/-! ## Covered contents -/

/-- The second stack has all that the first holds where the first has it, wherever its own pointer
is. -/
structure Covers (s t : Operands) : Prop where
  capacity : t.capacity = s.capacity
  scratchSize : t.scratch.size = s.scratch.size
  slots : ∀ i, s.pointer ≤ i → t.slots.read i = s.slots.read i
  scratch : ∀ i, 4 * s.pointer ≤ i → t.scratch.read i = s.scratch.read i

namespace Covers

protected theorem refl (s : Operands) : s.Covers s := ⟨rfl, rfl, fun _ _ => rfl, fun _ _ => rfl⟩

theorem trans (h : s.Covers t) (hpointer : t.pointer ≤ s.pointer) (h' : t.Covers u) :
    s.Covers u where
  capacity := h'.capacity.trans h.capacity
  scratchSize := h'.scratchSize.trans h.scratchSize
  slots i hi := (h'.slots i (Nat.le_trans hpointer hi)).trans (h.slots i hi)
  scratch i hi := (h'.scratch i (by omega)).trans (h.scratch i hi)

theorem alike (h : s.Covers t) (hpointer : t.pointer = s.pointer) : s.Alike t :=
  ⟨hpointer, h.capacity, h.scratchSize, h.slots, h.scratch⟩

end Covers

theorem read_release {i : Nat} (hi : 0 < i) (n : Nat) :
    (s.release n).slots.read i = s.slots.read i :=
  Memory.read_write_of_ne _ _ (Nat.ne_of_gt hi)

theorem covers_release (h : s.Sound) (n : Nat) : s.Covers (s.release n) :=
  ⟨rfl, rfl, fun _ hi => read_release (Nat.lt_of_lt_of_le h.pos hi) n, fun _ _ => rfl⟩

/-- Contents that are found again under what is released were there before. -/
theorem Alike.covers_of_release {n : Nat} (hs : s.Sound) (h : s.Alike (pushed.release n)) :
    s.Covers pushed where
  capacity := h.capacity
  scratchSize := h.scratchSize
  slots i hi := (read_release (Nat.lt_of_lt_of_le hs.pos hi) n).symm.trans (h.slots i hi)
  scratch := h.scratch

theorem covers_run (h : s.Sound) (call : Call) : s.Covers (call.run s).2 := by
  refine call.run_cases s (fun _ => ?_) (fun value s' hpush => ?_) (fun value s' hpop => ?_)
    (fun bytes s' hpush => ?_) (fun length text s' hpop => ?_)
  · exact .refl s
  · obtain ⟨-, -, hbelow⟩ := push_ok h hpush
    exact hbelow.covers_of_release h
  · obtain ⟨-, rfl⟩ := pop_ok hpop
    exact covers_release h 1
  · obtain ⟨-, -, -, hbelow⟩ := pushText_ok h hpush
    exact hbelow.covers_of_release h
  · obtain ⟨-, rfl⟩ := popText_ok hpop
    exact covers_release h _

/-! ## Calls that stay above -/

/-- Before each call and after the last, the stack takes at least `depth` slots. -/
def NeverBelow (s : Operands) (depth : Nat) (calls : List Call) : Prop :=
  ∀ front, front <+: calls → depth ≤ (s.after front).depth

instance (s : Operands) (depth : Nat) (calls : List Call) : Decidable (s.NeverBelow depth calls) :=
  decidable_of_iff (∀ front ∈ calls.inits, depth ≤ (s.after front).depth) (by
    simp only [List.mem_inits, NeverBelow])

theorem NeverBelow.tail {depth : Nat} {call : Call} (h : s.NeverBelow depth (call :: calls)) :
    (call.run s).2.NeverBelow depth calls :=
  fun front hfront => h (call :: front) ((List.prefix_cons_inj call).mpr hfront)

/-- Calls that do not go below the contents of a stack leave them alone. -/
theorem Covers.after (h : s.Covers t) (hs : s.Sound) (ht : t.Sound)
    (habove : t.NeverBelow s.depth calls) : s.Covers (t.after calls) := by
  induction calls generalizing t with
  | nil => exact h
  | cons call rest ih =>
    have hdepth : s.depth ≤ t.depth := habove [] List.nil_prefix
    have hpointer : t.pointer ≤ s.pointer := by
      have hsum := depth_add_pointer hs
      have hsum' := depth_add_pointer ht
      rw [h.capacity] at hsum'
      omega
    exact ih (h.trans hpointer (covers_run ht call)) (moved_run ht call).sound habove.tail

/-- Calls that do not go below the contents of a stack and come back to them leave a stack like it. -/
theorem alike_after (hs : s.Sound) (habove : s.NeverBelow s.depth calls)
    (hback : (s.after calls).depth = s.depth) : s.Alike (s.after calls) := by
  have hcovers := (Covers.refl s).after hs hs habove
  have hsum := depth_add_pointer hs
  have hsum' := depth_add_pointer (moved_after hs calls).sound
  rw [hcovers.capacity] at hsum'
  exact hcovers.alike (by omega)

/-- **What is put on comes off.** Take any stack that calls can make of an empty one. Calls that do
not go below its contents, though some may fail, leave every slot and every byte of scratch of these
as it is. And when a value or a text is put on, then calls that do not go below it and come back to it
leave it on top: it comes off as it was, a text decoded from its bytes, and under it is the stack as
it was before. -/
theorem contents_come_back (slots scratchBytes : Nat) (history : List Call) :
    let s := (empty slots scratchBytes).after history
    (∀ calls, s.NeverBelow s.depth calls →
      (∀ i, s.pointer ≤ i → (s.after calls).slots.read i = s.slots.read i) ∧
      (∀ i, 4 * s.pointer ≤ i → (s.after calls).scratch.read i = s.scratch.read i)) ∧
    (∀ value pushed calls, push value s = .ok () pushed →
      pushed.NeverBelow pushed.depth calls → (pushed.after calls).depth = pushed.depth →
      ∃ rest, pop (pushed.after calls) = .ok value rest ∧ s.Alike rest) ∧
    (∀ bytes (length : Int32) pushed calls, pushText bytes s = .ok () pushed →
      length.toInt = bytes.length → pushed.NeverBelow pushed.depth calls →
      (pushed.after calls).depth = pushed.depth →
      ∃ rest, popText length (pushed.after calls) = .ok (Text.ofUtf8 bytes) rest ∧
        s.Alike rest) := by
  intro s
  have hs : s.Sound := (moved_after (Sound.empty slots scratchBytes) history).sound
  refine ⟨fun calls habove => ?_, fun value pushed calls hpush habove hback => ?_,
    fun bytes length pushed calls hpush hlength habove hback => ?_⟩
  · have hcovers := (Covers.refl s).after hs hs habove
    exact ⟨hcovers.slots, hcovers.scratch⟩
  · exact pop_of_push hs hpush (alike_after (hs.push hpush) habove hback)
  · exact popText_of_pushText hs hpush hlength (alike_after (hs.pushText hpush) habove hback)

/-- A text of three bytes over a value. Another text and a value come and go over it, and an access
fails; then it comes off, with the byte that is no UTF-8 replaced. -/
theorem contents_come_back_text_over_value :
    let s := (empty 8 32).after [.push 7]
    let bytes : List UInt8 := [97, 0xff, 98]
    let calls : List Call :=
      [.pushText [1, 2, 3, 4, 5], .popText (-1), .push 9, .pop, .popText 5]
    ∃ pushed rest, pushText bytes s = .ok () pushed ∧ pushed.NeverBelow pushed.depth calls ∧
      (pushed.after calls).depth = pushed.depth ∧ pushed.depth = 2 ∧
      popText 3 (pushed.after calls) = .ok "a\uFFFDb" rest ∧ rest.contents = [7] := by
  intro s bytes calls
  obtain ⟨-, -, htext⟩ := contents_come_back 8 32 [.push 7]
  let pushed := (Call.run s (.pushText bytes)).2
  have hpush : pushText bytes s = .ok () pushed := by with_unfolding_all rfl
  have habove : pushed.NeverBelow pushed.depth calls := by decide +kernel
  have hback : (pushed.after calls).depth = pushed.depth := by decide +kernel
  obtain ⟨rest, hpop, hlike⟩ := htext bytes 3 pushed calls hpush (by decide) habove hback
  have hread : Text.ofUtf8 bytes = "a\uFFFDb" := by decide +kernel
  exact ⟨pushed, rest, hpush, habove, hback, by decide +kernel, hread ▸ hpop,
    hlike.contents.trans (by decide +kernel)⟩

end TreeCode.Operands
