import TreeCode.Listing
import TreeCode.Proofs.Reading

/-!
# A listing, instruction by instruction

One equation for each way in which the bytes of a program can start, and the induction that follows
a listing to its end (`ofBytes_induction`).
-/

namespace TreeCode.Listing

variable {bytes : List UInt8}

@[simp] theorem ofBytes_nil (offset : Nat) : ofBytes offset [] = ⟨[], .finished⟩ := by
  rw [ofBytes, if_pos rfl]

theorem ofBytes_of_complete {i : Instruction (List UInt8)} {width : Nat}
    (h : Instruction.read bytes = .complete i width) (offset : Nat) :
    ofBytes offset bytes = cons offset i.ofBytes (ofBytes (offset + width) (bytes.drop width)) := by
  rw [ofBytes, if_neg (by rintro rfl; cases h)]
  split
  · rename_i h'
    obtain ⟨rfl, rfl⟩ := Instruction.Verdict.complete.inj (h.symm.trans h')
    rfl
  all_goals rename_i h'; rw [h] at h'; cases h'

theorem ofBytes_of_encode {i : Instruction String} {front : List UInt8}
    (h : i.encode = .ok front) (offset : Nat) (back : List UInt8) :
    ofBytes offset (front ++ back) = cons offset i (ofBytes (offset + front.length) back) := by
  rw [ofBytes_of_complete (Instruction.read_encode_append h back), List.drop_left,
    Instruction.ofBytes_toBytes]

theorem ofBytes_of_truncated (hne : bytes ≠ []) (h : Instruction.read bytes = .truncated)
    (offset : Nat) : ofBytes offset bytes = ⟨[], .truncated offset⟩ := by
  rw [ofBytes, if_neg hne]
  split
  case h_2 => rfl
  all_goals rename_i h'; rw [h] at h'; cases h'

theorem ofBytes_of_unknown {byte : UInt8} (h : Instruction.read bytes = .unknown byte)
    (offset : Nat) : ofBytes offset bytes = ⟨[], .unknown offset byte⟩ := by
  rw [ofBytes, if_neg (by rintro rfl; cases h)]
  split
  case h_3 => rename_i h'; rw [h] at h'; cases h'; rfl
  all_goals rename_i h'; rw [h] at h'; cases h'

theorem ofBytes_of_undelimited {found : UInt8} (h : Instruction.read bytes = .undelimited found)
    (offset : Nat) : ofBytes offset bytes = ⟨[], .undelimited offset found⟩ := by
  rw [ofBytes, if_neg (by rintro rfl; cases h)]
  split
  case h_4 => rename_i h'; rw [h] at h'; cases h'; rfl
  all_goals rename_i h'; rw [h] at h'; cases h'

/-- Induction along a listing: it is at the end of the bytes, it goes on behind an instruction, or it
stands before bytes that are no instruction. -/
@[elab_as_elim]
theorem ofBytes_induction {motive : Nat → List UInt8 → Prop}
    (finished : ∀ offset, motive offset [])
    (complete : ∀ offset bytes raw width, Instruction.read bytes = .complete raw width →
      motive (offset + width) (bytes.drop width) → motive offset bytes)
    (truncated : ∀ offset bytes, bytes ≠ [] → Instruction.read bytes = .truncated →
      motive offset bytes)
    (unknown : ∀ offset bytes byte, Instruction.read bytes = .unknown byte → motive offset bytes)
    (undelimited : ∀ offset bytes found, Instruction.read bytes = .undelimited found →
      motive offset bytes)
    (offset : Nat) (bytes : List UInt8) : motive offset bytes := by
  induction offset, bytes using ofBytes.induct with
  | case1 offset => exact finished offset
  | case2 offset bytes _ raw width hr ih => exact complete _ _ _ _ hr ih
  | case3 offset bytes hne hr => exact truncated _ _ hne hr
  | case4 offset bytes _ byte hr => exact unknown _ _ _ hr
  | case5 offset bytes _ found hr => exact undelimited _ _ _ hr

theorem finished_of_complete {offset : Nat} {raw : Instruction (List UInt8)} {width : Nat}
    (hr : Instruction.read bytes = .complete raw width)
    (h : (ofBytes offset bytes).ending = .finished) :
    (ofBytes (offset + width) (bytes.drop width)).ending = .finished := by
  rw [ofBytes_of_complete hr] at h
  exact h

/-- Induction along a listing that comes to its end: it meets instructions alone. -/
@[elab_as_elim]
theorem finished_induction
    {motive : (offset : Nat) → (bytes : List UInt8) → (ofBytes offset bytes).ending = .finished →
      Prop}
    (nil : ∀ offset h, motive offset [] h)
    (complete : ∀ offset bytes raw width h (hr : Instruction.read bytes = .complete raw width),
      motive (offset + width) (bytes.drop width) (finished_of_complete hr h) →
      motive offset bytes h)
    (offset : Nat) (bytes : List UInt8) (h : (ofBytes offset bytes).ending = .finished) :
    motive offset bytes h := by
  induction offset, bytes using ofBytes_induction with
  | finished offset => exact nil offset h
  | complete offset bytes raw width hr ih => exact complete _ _ _ _ h hr (ih _)
  | truncated offset bytes hne hr => rw [ofBytes_of_truncated hne hr] at h; cases h
  | unknown offset bytes byte hr => rw [ofBytes_of_unknown hr] at h; cases h
  | undelimited offset bytes found hr => rw [ofBytes_of_undelimited hr] at h; cases h

/-- Behind a program that is listed to its end, the listing goes on with what follows. -/
theorem ofBytes_append {offset : Nat} (h : (ofBytes offset bytes).ending = .finished)
    (more : List UInt8) :
    ofBytes offset (bytes ++ more) =
      ⟨(ofBytes offset bytes).items ++ (ofBytes (offset + bytes.length) more).items,
        (ofBytes (offset + bytes.length) more).ending⟩ := by
  induction offset, bytes, h using finished_induction with
  | nil offset => rw [ofBytes_nil]; rfl
  | complete offset bytes raw width h hr ih =>
    have hw := Instruction.read_width hr
    have hmore : Instruction.read (bytes ++ more) = .complete raw width :=
      (Instruction.read_append (by rw [hr]; simp) more).trans hr
    have hnext : offset + width + (bytes.drop width).length = offset + bytes.length := by
      rw [List.length_drop]
      omega
    rw [ofBytes_of_complete hr, ofBytes_of_complete hmore, List.drop_append_of_le_length hw.2, ih,
      hnext]
    rfl

/-- More bytes behind a program may add instructions, and change none that is listed. -/
theorem items_prefix (offset : Nat) (bytes more : List UInt8) :
    (ofBytes offset bytes).items <+: (ofBytes offset (bytes ++ more)).items := by
  induction offset, bytes using ofBytes_induction with
  | finished offset =>
    rw [ofBytes_nil]
    exact List.nil_prefix
  | complete offset bytes raw width hr ih =>
    have hmore : Instruction.read (bytes ++ more) = .complete raw width :=
      (Instruction.read_append (by rw [hr]; simp) more).trans hr
    rw [ofBytes_of_complete hr, ofBytes_of_complete hmore,
      List.drop_append_of_le_length (Instruction.read_width hr).2]
    exact List.prefix_cons_inj _ |>.mpr ih
  | truncated offset bytes hne hr =>
    rw [ofBytes_of_truncated hne hr]
    exact List.nil_prefix
  | unknown offset bytes byte hr =>
    rw [ofBytes_of_unknown hr]
    exact List.nil_prefix
  | undelimited offset bytes found hr =>
    rw [ofBytes_of_undelimited hr]
    exact List.nil_prefix

end TreeCode.Listing
