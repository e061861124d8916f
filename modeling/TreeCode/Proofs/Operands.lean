import TreeCode.Operands

/-!
# Values on the operand stack

`Operands.Holds s capacity values` says what a stack of `capacity` slots holds: `values`, the one on
top first. The stack keeps its pointer in slot 0 and its values above that, so it holds fewer values
than it has slots. `push` puts one value in front unless the stack is full, and `pop` takes the first
away.
-/

namespace TreeCode.Operands

/-- The values on the stack, the one on top first. -/
def contents (s : Operands) : List Int32 := s.slots.readRange s.pointer s.depth

/-- The pointer stands behind slot 0 and not behind the end, and can be kept in a slot. -/
structure Sound (s : Operands) : Prop where
  pos : 0 < s.pointer
  le_capacity : s.pointer ≤ s.capacity
  capacity_le : s.capacity ≤ maxSlots

/-- The stack has `capacity` slots and holds these values, the one on top first. -/
structure Holds (s : Operands) (capacity : Nat) (values : List Int32) : Prop where
  sound : s.Sound
  capacity : s.capacity = capacity
  contents : s.contents = values

variable {s : Operands} {capacity p : Nat} {value : Int32} {values : List Int32}

@[simp] theorem length_contents (s : Operands) : s.contents.length = s.depth :=
  Memory.length_readRange ..

@[simp] theorem capacity_movePointer (s : Operands) (p : Nat) :
    (s.movePointer p).capacity = s.capacity := rfl

theorem pointer_movePointer (hp : p ≤ maxSlots) : (s.movePointer p).pointer = p := by
  unfold pointer movePointer
  rw [Memory.read_write_self]
  apply Int32.toNatClampNeg_ofNat_of_lt
  unfold maxSlots at hp
  omega

/-- The values above a pointer are those that were there, wherever the pointer stood. -/
theorem contents_movePointer (hpos : 0 < p) (hp : p ≤ maxSlots) :
    (s.movePointer p).contents = s.slots.readRange p (s.capacity - p) := by
  unfold contents depth
  rw [pointer_movePointer hp, capacity_movePointer]
  apply Memory.readRange_congr
  intro i hi
  exact Memory.read_write_of_ne _ _ (by omega)

theorem contents_eq_nil (h : s.capacity ≤ s.pointer) : s.contents = [] := by
  have hdepth : s.depth = 0 := Nat.sub_eq_zero_of_le h
  rw [contents, hdepth]
  rfl

theorem contents_eq_cons (h : s.pointer < s.capacity) :
    s.contents = s.slots.read s.pointer ::
      s.slots.readRange (s.pointer + 1) (s.capacity - (s.pointer + 1)) := by
  have hdepth : s.depth = s.capacity - (s.pointer + 1) + 1 := by
    unfold depth
    omega
  rw [contents, hdepth, Memory.readRange_succ]

theorem top?_eq_head? (s : Operands) : s.top? = s.contents.head? := by
  unfold top?
  split
  · rw [contents_eq_cons ‹_›]
    rfl
  · rw [contents_eq_nil (by omega)]
    rfl

namespace Holds

theorem depth (h : s.Holds capacity values) : s.depth = values.length := by
  rw [← length_contents, h.contents]

theorem top? (h : s.Holds capacity values) : s.top? = values.head? := by
  rw [top?_eq_head?, h.contents]

theorem pointer_add_length (h : s.Holds capacity values) :
    s.pointer + values.length = capacity := by
  have hle := h.sound.le_capacity
  rw [← h.depth, ← h.capacity, Operands.depth]
  omega

theorem length_lt (h : s.Holds capacity values) : values.length < capacity := by
  have hpos := h.sound.pos
  have hsum := h.pointer_add_length
  omega

theorem movePointer (hcapacity : s.capacity ≤ maxSlots) (hpos : 0 < p) (hle : p ≤ s.capacity) :
    (s.movePointer p).Holds s.capacity (s.slots.readRange p (s.capacity - p)) := by
  have hp : p ≤ maxSlots := Nat.le_trans hle hcapacity
  refine ⟨⟨?_, ?_, hcapacity⟩, rfl, contents_movePointer hpos hp⟩
  · rwa [pointer_movePointer hp]
  · rwa [pointer_movePointer hp]

theorem empty (slots scratchBytes : Nat) :
    (Operands.empty slots scratchBytes).Holds (min (max slots 1) maxSlots) [] := by
  have hle : min (max slots 1) maxSlots ≤ maxSlots := Nat.min_le_right _ _
  have hpos : 0 < min (max slots 1) maxSlots := by
    unfold maxSlots
    omega
  have hpointer : (Operands.empty slots scratchBytes).pointer = min (max slots 1) maxSlots := by
    unfold pointer Operands.empty
    rw [Memory.read_write_self]
    apply Int32.toNatClampNeg_ofNat_of_lt
    unfold maxSlots at hle ⊢
    omega
  refine ⟨⟨?_, Nat.le_of_eq hpointer, hle⟩, rfl, contents_eq_nil (Nat.le_of_eq hpointer.symm)⟩
  rwa [hpointer]

theorem push (h : s.Holds capacity values) (hroom : values.length + 1 < capacity) (value : Int32) :
    ∃ s', Operands.push value s = .ok () s' ∧ s'.Holds capacity (value :: values) := by
  have hsum := h.pointer_add_length
  obtain ⟨p, hp⟩ : ∃ p, s.pointer = p + 1 := ⟨s.pointer - 1, by omega⟩
  let written : Operands := { s with slots := s.slots.write p value }
  refine ⟨written.movePointer p, ?_, ?_⟩
  · unfold Operands.push
    rw [if_neg (by omega), hp]
    rfl
  · have hcapacity : written.capacity = capacity := h.capacity
    have hrest : capacity - p = s.depth + 1 := by
      rw [h.depth]
      omega
    have hbelow : written.slots.readRange (p + 1) s.depth = values := by
      rw [← h.contents, Operands.contents, hp]
      apply Memory.readRange_congr
      intro i hi
      exact Memory.read_write_of_ne _ _ (by omega)
    have hmoved := movePointer (s := written) (p := p) h.sound.capacity_le (by omega) (by omega)
    rwa [hcapacity, hrest, Memory.readRange_succ, hbelow, Memory.read_write_self] at hmoved

theorem push_of_full (h : s.Holds capacity values) (hfull : values.length + 1 = capacity)
    (value : Int32) : Operands.push value s = .error (.operandOverflow capacity) s := by
  have hsum := h.pointer_add_length
  unfold Operands.push
  rw [if_pos (by omega), h.capacity]

theorem pop (h : s.Holds capacity (value :: values)) :
    ∃ s', Operands.pop s = .ok value s' ∧ s'.Holds capacity values := by
  have hsum := h.pointer_add_length
  rw [List.length_cons] at hsum
  have hlt : s.pointer < s.capacity := by
    rw [h.capacity]
    omega
  obtain ⟨htop, hbelow⟩ := List.cons.inj ((contents_eq_cons hlt).symm.trans h.contents)
  refine ⟨s.movePointer (s.pointer + 1), ?_, ?_⟩
  · unfold Operands.pop
    rw [if_pos hlt, htop]
  · have hmoved := movePointer h.sound.capacity_le (Nat.succ_pos s.pointer) hlt
    rwa [hbelow, h.capacity] at hmoved

end Holds

end TreeCode.Operands
