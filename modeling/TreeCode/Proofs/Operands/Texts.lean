import TreeCode.Proofs.Operands

/-!
# Texts on the operand stack

Values and texts share one pointer: a value lies in the slot under it, a text in scratch at four
times the pointer, over the slots it takes. What lies above the pointer is therefore out of reach of
every `push` and `pushText`. `Alike` says that two stacks have the same there. Whatever is put on a
stack is what comes off again, and the stack is then like the one before (`pop_of_push`,
`popText_of_push`).

`pop` and `popText` only move the pointer up (`Lowered`): what they leave keeps every slot and every
byte of scratch it had.
-/

namespace TreeCode.Operands

variable {s s' s'' pushed : Operands} {p n : Nat} {value length : Int32} {bytes : List UInt8}
  {text : String} {e : Error}

/-! ## Sound stacks -/

namespace Sound

theorem movePointer (h : s.Sound) (hpos : 0 < p) (hle : p ≤ s.capacity) :
    (s.movePointer p).Sound :=
  (Holds.movePointer h.capacity_le hpos hle).sound

theorem pointer_movePointer (h : s.Sound) (hle : p ≤ s.capacity) :
    (s.movePointer p).pointer = p :=
  Operands.pointer_movePointer (Nat.le_trans hle h.capacity_le)

theorem empty (slots scratchBytes : Nat) : (Operands.empty slots scratchBytes).Sound :=
  (Holds.empty slots scratchBytes).sound

theorem push (h : s.Sound) (hpush : Operands.push value s = .ok () s') : s'.Sound := by
  unfold Operands.push at hpush
  split at hpush
  · cases hpush
  · cases hpush
    have hpos := h.pos
    have hle := h.le_capacity
    let written : Operands := { s with slots := s.slots.write (s.pointer - 1) value }
    exact (Holds.movePointer (s := written) h.capacity_le (by omega)
      (show s.pointer - 1 ≤ s.capacity by omega)).sound

theorem pushText (h : s.Sound) (hpush : Operands.pushText bytes s = .ok () s') : s'.Sound := by
  unfold Operands.pushText at hpush
  simp only at hpush
  split at hpush
  · cases hpush
  · split at hpush <;> cases hpush
    have hle := h.le_capacity
    let written : Operands :=
      { s with scratch := s.scratch.writeRange (4 * (s.pointer - words bytes.length)) bytes }
    exact (Holds.movePointer (s := written) h.capacity_le (by omega)
      (show s.pointer - words bytes.length ≤ s.capacity by omega)).sound

end Sound

/-! ## Taking off -/

/-- The stack without the `n` slots on top. -/
def release (s : Operands) (n : Nat) : Operands := s.movePointer (s.pointer + n)

@[simp] theorem capacity_release (s : Operands) (n : Nat) :
    (s.release n).capacity = s.capacity := rfl

@[simp] theorem scratch_release (s : Operands) (n : Nat) : (s.release n).scratch = s.scratch := rfl

theorem pointer_release (h : s.Sound) (hn : n ≤ s.depth) :
    (s.release n).pointer = s.pointer + n := by
  have hle := h.le_capacity
  unfold depth at hn
  exact h.pointer_movePointer (by omega)

theorem depth_release (h : s.Sound) (hn : n ≤ s.depth) : (s.release n).depth = s.depth - n := by
  unfold depth
  rw [pointer_release h hn, capacity_release]
  omega

theorem Sound.release (h : s.Sound) (hn : n ≤ s.depth) : (s.release n).Sound := by
  have hpos := h.pos
  have hle := h.le_capacity
  unfold depth at hn
  exact h.movePointer (by omega) (by omega)

theorem contents_release (h : s.Sound) (hn : n ≤ s.depth) :
    (s.release n).contents = s.contents.drop n := by
  have hpos := h.pos
  have hle := h.le_capacity
  have hcap := h.capacity_le
  unfold depth at hn
  rw [Operands.release, contents_movePointer (by omega) (by omega)]
  apply List.ext_getElem
  · rw [List.length_drop, length_contents, Memory.length_readRange]
    unfold depth
    omega
  · intro i _ _
    simp [contents, Memory.readRange, Nat.add_assoc]

theorem movePointer_movePointer (s : Operands) (p p' : Nat) :
    (s.movePointer p).movePointer p' = s.movePointer p' := by
  unfold movePointer Memory.write
  simp only [Operands.mk.injEq, Memory.mk.injEq, and_true, true_and]
  funext i
  by_cases hi : i = 0 <;> simp [hi]

theorem release_release (h : s.Sound) {k : Nat} (hn : n ≤ s.depth) :
    (s.release n).release k = s.release (n + k) := by
  rw [release, pointer_release h hn, release, movePointer_movePointer, release, Nat.add_assoc]

theorem release_zero (h : s.Sound) : s.release 0 = s := by
  have hread : Int32.ofNat s.pointer = s.slots.read 0 :=
    Int32.ofNat_toNatClampNeg _ (Int32.le_of_lt ((Int32.toNatClampNeg_pos_iff _).mp h.pos))
  have hslots : (s.slots.write 0 (Int32.ofNat s.pointer)).read = s.slots.read := by
    funext i
    by_cases hi : i = 0
    · rw [hi, Memory.read_write_self, hread]
    · exact Memory.read_write_of_ne _ _ hi
  rw [release, Nat.add_zero]
  exact congrArg (fun read => (⟨⟨s.slots.size, read⟩, s.scratch⟩ : Operands)) hslots

theorem pop_ok (h : pop s = .ok value s') : 1 ≤ s.depth ∧ s' = s.release 1 := by
  unfold pop at h
  split at h <;> cases h
  exact ⟨by unfold depth; omega, rfl⟩

theorem popText_ok (h : popText length s = .ok text s') :
    words length.toNatClampNeg ≤ s.depth ∧ s' = s.release (words length.toNatClampNeg) := by
  unfold popText at h
  simp only at h
  split at h
  · cases h
  · split at h
    · cases h
    · split at h <;> cases h
      exact ⟨by unfold depth; omega, rfl⟩

/-- The stack was left so by taking slots off, and by nothing else. -/
def Lowered (s s' : Operands) : Prop := ∃ n ≤ s.depth, s' = s.release n

namespace Lowered

protected theorem refl (h : s.Sound) : s.Lowered s := ⟨0, Nat.zero_le _, (release_zero h).symm⟩

theorem sound (hs : s.Sound) (h : s.Lowered s') : s'.Sound := by
  obtain ⟨n, hn, rfl⟩ := h
  exact hs.release hn

theorem trans (hs : s.Sound) (h : s.Lowered s') (h' : s'.Lowered s'') : s.Lowered s'' := by
  obtain ⟨n, hn, rfl⟩ := h
  obtain ⟨k, hk, rfl⟩ := h'
  rw [depth_release hs hn] at hk
  exact ⟨n + k, by omega, release_release hs hn⟩

theorem pop (h : Operands.pop s = .ok value s') : s.Lowered s' := ⟨1, pop_ok h⟩

theorem popText (h : Operands.popText length s = .ok text s') : s.Lowered s' := ⟨_, popText_ok h⟩

end Lowered

/-! ## Accesses that fail

Each leaves the stack as it is. -/

theorem push_error (h : push value s = .error e s') : s' = s := by
  unfold push at h
  split at h <;> cases h
  rfl

theorem pushText_error (h : pushText bytes s = .error e s') : s' = s := by
  unfold pushText at h
  simp only at h
  split at h
  · cases h
    rfl
  · split at h <;> cases h
    rfl

theorem pop_error (h : pop s = .error e s') : s' = s := by
  unfold pop at h
  split at h <;> cases h
  rfl

theorem popText_error (h : popText length s = .error e s') : s' = s := by
  unfold popText at h
  simp only at h
  split at h
  · cases h
    rfl
  · split at h
    · cases h
      rfl
    · split at h <;> cases h
      rfl

/-! ## Stacks that hold the same -/

/-- The stacks hold the same: the same values, and the same bytes in scratch from there on. -/
structure Alike (s s' : Operands) : Prop where
  pointer : s'.pointer = s.pointer
  capacity : s'.capacity = s.capacity
  scratchSize : s'.scratch.size = s.scratch.size
  slots : ∀ i, s.pointer ≤ i → s'.slots.read i = s.slots.read i
  scratch : ∀ i, 4 * s.pointer ≤ i → s'.scratch.read i = s.scratch.read i

namespace Alike

protected theorem refl (s : Operands) : s.Alike s :=
  ⟨rfl, rfl, rfl, fun _ _ => rfl, fun _ _ => rfl⟩

theorem trans (h : s.Alike s') (h' : s'.Alike s'') : s.Alike s'' where
  pointer := h'.pointer.trans h.pointer
  capacity := h'.capacity.trans h.capacity
  scratchSize := h'.scratchSize.trans h.scratchSize
  slots i hi := (h'.slots i (by rwa [h.pointer])).trans (h.slots i hi)
  scratch i hi := (h'.scratch i (by rwa [h.pointer])).trans (h.scratch i hi)

theorem depth (h : s.Alike s') : s'.depth = s.depth := by
  unfold Operands.depth
  rw [h.capacity, h.pointer]

theorem contents (h : s.Alike s') : s'.contents = s.contents := by
  unfold Operands.contents
  rw [h.pointer, h.depth]
  exact Memory.readRange_congr h.slots

theorem release (h : s.Alike s') (hs : s.Sound) (hn : n ≤ s.depth) :
    (s.release n).Alike (s'.release n) := by
  have hpos := hs.pos
  have hmoved := pointer_release hs hn
  have hmoved' : (s'.release n).pointer = s.pointer + n := by
    have hle := hs.le_capacity
    have hcap := hs.capacity_le
    unfold Operands.depth at hn
    rw [Operands.release, h.pointer]
    exact Operands.pointer_movePointer (by omega)
  refine ⟨hmoved'.trans hmoved.symm, h.capacity, h.scratchSize, fun i hi => ?_, fun i hi => ?_⟩
  · rw [hmoved] at hi
    change (s'.slots.write 0 _).read i = (s.slots.write 0 _).read i
    rw [Memory.read_write_of_ne _ _ (by omega), Memory.read_write_of_ne _ _ (by omega)]
    exact h.slots i (by omega)
  · rw [hmoved] at hi
    exact h.scratch i (by omega)

theorem pop (h : s.Alike s') (hs : s.Sound) (hpop : Operands.pop s = .ok value s'') :
    ∃ k, Operands.pop s' = .ok value k ∧ s''.Alike k := by
  unfold Operands.pop at hpop
  split at hpop <;> cases hpop
  rename_i hlt
  refine ⟨s'.release 1, ?_, h.release hs (by unfold Operands.depth; omega)⟩
  unfold Operands.pop
  rw [h.pointer, h.capacity, if_pos hlt, h.slots _ (Nat.le_refl _), Operands.release, h.pointer]

theorem popText (h : s.Alike s') (hs : s.Sound)
    (hpop : Operands.popText length s = .ok text s'') :
    ∃ k, Operands.popText length s' = .ok text k ∧ s''.Alike k := by
  unfold Operands.popText at hpop
  simp only at hpop
  split at hpop
  · cases hpop
  rename_i hlength
  split at hpop
  · cases hpop
  rename_i hdepth
  split at hpop <;> cases hpop
  rename_i hscratch
  refine ⟨s'.release (words length.toNatClampNeg), ?_,
    h.release hs (by unfold Operands.depth; omega)⟩
  unfold Operands.popText
  simp only
  rw [h.pointer, h.capacity, h.scratchSize, if_neg hlength, if_neg hdepth, if_pos hscratch,
    Memory.readRange_congr h.scratch, Operands.release, h.pointer]

end Alike

/-! ## What was put on comes off -/

theorem push_ok (hs : s.Sound) (h : push value s = .ok () pushed) :
    pushed.pointer + 1 = s.pointer ∧ pushed.slots.read pushed.pointer = value ∧
      s.Alike (pushed.release 1) := by
  have hpushed : pushed.Sound := hs.push h
  have hle := hs.le_capacity
  have hcap := hs.capacity_le
  unfold push at h
  split at h <;> cases h
  obtain ⟨p, hp⟩ : ∃ p, s.pointer = p + 1 := ⟨s.pointer - 1, by omega⟩
  have hpred : s.pointer - 1 = p := by omega
  rw [hpred] at hpushed ⊢
  have hpointer : (movePointer { s with slots := s.slots.write p value } p).pointer = p :=
    pointer_movePointer (by omega)
  have hreleased := pointer_release (n := 1) hpushed
    (by unfold depth; rw [hpointer]; change 1 ≤ s.capacity - p; omega)
  rw [hpointer] at hreleased ⊢
  refine ⟨hp.symm, ?_, hreleased.trans hp.symm, rfl, rfl, fun i hi => ?_, fun _ _ => rfl⟩
  · change ((s.slots.write p value).write 0 _).read p = value
    rw [Memory.read_write_of_ne _ _ (by omega), Memory.read_write_self]
  · change (((s.slots.write p value).write 0 _).write 0 _).read i = s.slots.read i
    rw [Memory.read_write_of_ne _ _ (by omega), Memory.read_write_of_ne _ _ (by omega),
      Memory.read_write_of_ne _ _ (by omega)]

theorem pushText_ok (hs : s.Sound) (h : pushText bytes s = .ok () pushed) :
    pushed.pointer + words bytes.length = s.pointer ∧
      4 * pushed.pointer + bytes.length ≤ pushed.scratch.size ∧
      pushed.scratch.readRange (4 * pushed.pointer) bytes.length = bytes ∧
      s.Alike (pushed.release (words bytes.length)) := by
  have hpushed : pushed.Sound := hs.pushText h
  have hle := hs.le_capacity
  have hcap := hs.capacity_le
  unfold pushText at h
  simp only at h
  split at h
  · cases h
  split at h <;> cases h
  rename_i hroom hscratch
  obtain ⟨p, hp⟩ : ∃ p, s.pointer = p + words bytes.length :=
    ⟨s.pointer - words bytes.length, by omega⟩
  have hpred : s.pointer - words bytes.length = p := by omega
  rw [hpred] at hpushed hscratch ⊢
  have hpointer :
      (movePointer { s with scratch := s.scratch.writeRange (4 * p) bytes } p).pointer = p :=
    pointer_movePointer (by omega)
  have hreleased := pointer_release (n := words bytes.length) hpushed
    (by unfold depth; rw [hpointer]; change _ ≤ s.capacity - p; omega)
  rw [hpointer] at hreleased ⊢
  -- A text never has more bytes than the slots it takes have room for.
  have hbytes : bytes.length ≤ 4 * words bytes.length := by
    unfold words
    omega
  refine ⟨hp.symm, hscratch, Memory.readRange_writeRange _ _ _, hreleased.trans hp.symm, rfl, rfl,
    fun i hi => ?_, fun i hi => Memory.read_writeRange_of_le _ _ (by omega)⟩
  change ((s.slots.write 0 _).write 0 _).read i = s.slots.read i
  rw [Memory.read_write_of_ne _ _ (by omega), Memory.read_write_of_ne _ _ (by omega)]

theorem pop_of_push (hs : s.Sound) (hpush : push value s = .ok () pushed) (h : pushed.Alike s') :
    ∃ k, pop s' = .ok value k ∧ s.Alike k := by
  obtain ⟨hpointer, hread, hbelow⟩ := push_ok hs hpush
  have hlt : pushed.pointer < pushed.capacity := by
    have hle := hs.le_capacity
    have hcapacity : pushed.capacity = s.capacity := hbelow.capacity
    omega
  have hpop : pop pushed = .ok value (pushed.release 1) := by
    unfold pop
    rw [if_pos hlt, hread]
    rfl
  obtain ⟨k, hk, hlike⟩ := h.pop (hs.push hpush) hpop
  exact ⟨k, hk, hbelow.trans hlike⟩

/-- A text put on a stack comes off, if it is asked for in its length, and leaves a stack like the
one before. -/
theorem popText_of_pushText (hs : s.Sound) (hpush : pushText bytes s = .ok () pushed)
    (hlength : length.toInt = bytes.length) (h : pushed.Alike s') :
    ∃ k, popText length s' = .ok (Text.ofUtf8 bytes) k ∧ s.Alike k := by
  obtain ⟨hpointer, hscratch, hread, hbelow⟩ := pushText_ok hs hpush
  have hnonneg : ¬ length < 0 := by
    rw [Int32.lt_iff_toInt_lt, hlength]
    simp
  have hclamp : length.toNatClampNeg = bytes.length := by
    unfold Int32.toNatClampNeg
    omega
  have hdepth : ¬ pushed.capacity < pushed.pointer + words bytes.length := by
    have hle := hs.le_capacity
    have hcapacity : pushed.capacity = s.capacity := hbelow.capacity
    omega
  have hpop : popText length pushed =
      .ok (Text.ofUtf8 bytes) (pushed.release (words bytes.length)) := by
    unfold popText
    simp only
    rw [if_neg hnonneg, hclamp, if_neg hdepth, if_pos hscratch, hread]
    rfl
  obtain ⟨k, hk, hlike⟩ := h.popText (hs.pushText hpush) hpop
  exact ⟨k, hk, hbelow.trans hlike⟩

/-- A text that was put on with its length comes off behind it. -/
theorem popText_of_push {loaded : Operands} (hs : s.Sound)
    (htext : pushText (Text.utf8 text) s = .ok () pushed)
    (hlength : length.toInt = (Text.utf8 text).length)
    (hpush : push length pushed = .ok () loaded) (h : loaded.Alike s') :
    ∃ rest k, pop s' = .ok length rest ∧ popText length rest = .ok text k ∧ s.Alike k := by
  obtain ⟨rest, hpop, hrest⟩ := pop_of_push (hs.pushText htext) hpush h
  obtain ⟨k, hread, hlike⟩ := popText_of_pushText hs htext hlength hrest
  rw [Text.ofUtf8_utf8] at hread
  exact ⟨rest, k, hpop, hread, hlike⟩

end TreeCode.Operands
