import TreeCode.Proofs.Grammar

/-!
# Widths and readings

`inlineWidth` measures the operands of an instruction from its length bytes alone, and `read` reads
them. Both follow one layout: what is read is as wide as measured, what ends too early cannot be
measured or is measured past the end, and what is measured within the end is read, unless it is no
instruction (`inlineWidth_agrees`).
-/

namespace TreeCode.Instruction

variable {bytes : List UInt8} {i : Instruction (List UInt8)} {width w : Nat}

/-! ## Measuring -/

theorem inlineWidth_of_ofByte?_eq_none {b : UInt8} (h : Opcode.ofByte? b = none)
    (rest : List UInt8) : inlineWidth (b :: rest) = none := by
  simp only [inlineWidth, h]

/-- The key field counts the delimiter, so it leads to the length byte of the value. -/
theorem inlineWidth_attribute (k : UInt8) (rest : List UInt8) :
    inlineWidth (Opcode.setAttribute.byte :: k :: rest) =
      rest[k.toNat]?.map fun v => 2 + k.toNat + v.toNat := by
  simp only [inlineWidth, Opcode.ofByte?_byte, List.head?_cons, Option.bind_eq_bind,
    Option.bind_some, Nat.add_comm 1, List.getElem?_cons_succ]
  cases rest[k.toNat]? <;> rfl

/-- Measuring looks at the length bytes alone, and what follows them does not matter. -/
theorem inlineWidth_append (h : inlineWidth bytes = some w) (more : List UInt8) :
    inlineWidth (bytes ++ more) = some w := by
  cases bytes using head_cases with
  | nil => cases h
  | other b rest hb =>
    rw [inlineWidth_of_ofByte?_eq_none hb] at h
    cases h
  | opcode op rest =>
    have hhead {n : UInt8} (hn : rest.head? = some n) : (rest ++ more).head? = some n := by
      rw [List.head?_append, hn]
      rfl
    have hget {k : Nat} {n : UInt8} (hn : rest[k]? = some n) : (rest ++ more)[k]? = some n := by
      obtain ⟨hk, -⟩ := List.getElem?_eq_some_iff.mp hn
      rw [List.getElem?_append_left hk, hn]
    cases op with
    | createElement | textNode | eventListener =>
      simp only [inlineWidth, List.cons_append, Opcode.ofByte?_byte, Option.bind_eq_bind,
        Option.bind_eq_some_iff] at h ⊢
      obtain ⟨n, hn, hw⟩ := h
      exact ⟨n, hhead hn, hw⟩
    | setAttribute =>
      simp only [inlineWidth, List.cons_append, Opcode.ofByte?_byte, Option.bind_eq_bind,
        Option.bind_eq_some_iff] at h ⊢
      obtain ⟨k, hk, v, hv, hw⟩ := h
      exact ⟨k, hhead hk, v, hget hv, hw⟩
    | _ => exact h

/-- An instruction whose texts fit is measured at its own length behind the opcode. -/
theorem inlineWidth_layout_append (h : i.Fits) (rest : List UInt8) :
    inlineWidth (i.layout ++ rest) = some (i.layout.length - 1) := by
  cases i with
  | createElement tag =>
    simp [layout, field, inlineWidth, toNat_ofNat_length h]
    omega
  | textNode text =>
    simp [layout, field, inlineWidth, toNat_ofNat_length h]
    omega
  | eventListener event callback =>
    simp [layout, field, inlineWidth, toNat_ofNat_length h]
    omega
  | setAttribute key value =>
    have hk : (UInt8.ofNat (key.length + 1)).toNat = key.length + 1 :=
      UInt8.toNat_ofNat_of_lt' (Nat.lt_succ_of_le (Nat.succ_le_succ h.1))
    have hv : (key ++ Opcode.nop.byte :: (field value ++ rest))[key.length + 1]? =
        some (UInt8.ofNat value.length) := by
      rw [List.getElem?_append_right (by omega), Nat.add_sub_cancel_left]
      rfl
    simp only [layout, List.cons_append, List.append_assoc, inlineWidth_attribute, hk, hv]
    simp [field, toNat_ofNat_length h.2]
    omega
  | _ => rfl

/-! ## Measuring and reading -/

theorem inlineWidth_of_complete (h : read bytes = .complete i width) :
    inlineWidth bytes = some (width - 1) := by
  obtain ⟨hfits, ⟨rest, rfl⟩, rfl⟩ := read_eq_complete_iff.mp h
  exact inlineWidth_layout_append hfits rest

/-- What ends too early is measured past its end: its measure is that of the whole instruction. -/
theorem length_le_of_truncated (h : read bytes = .truncated) (hw : inlineWidth bytes = some w) :
    bytes.length ≤ w := by
  obtain ⟨i, word, hword, ⟨more, rfl⟩, hlt⟩ := exists_codeWord_of_truncated h
  have hwhole := inlineWidth_of_complete (hword.read_of_prefix (List.prefix_refl _))
  rw [inlineWidth_append hw more, Option.some.injEq] at hwhole
  omega

theorem exists_opcode_of_inlineWidth (hw : inlineWidth bytes = some w) :
    ∃ op : Opcode, bytes.head? = some op.byte := by
  cases bytes using head_cases with
  | nil => cases hw
  | other b rest hb =>
    rw [inlineWidth_of_ofByte?_eq_none hb] at hw
    cases hw
  | opcode op rest => exact ⟨op, rfl⟩

/-- What is measured within its end is read, unless it is no instruction. -/
theorem exists_complete_of_inlineWidth (hw : inlineWidth bytes = some w)
    (hlength : w < bytes.length) (hnop : bytes.head? ≠ some Opcode.nop.byte)
    (hdelimited : ∀ found, read bytes ≠ .undelimited found) :
    ∃ i, read bytes = .complete i (w + 1) := by
  cases hread : read bytes with
  | complete i width =>
    have hpos := (read_width hread).1
    have hwidth := inlineWidth_of_complete hread
    rw [hw, Option.some.injEq] at hwidth
    exact ⟨i, by rw [show w + 1 = width by omega]⟩
  | truncated =>
    have hle := length_le_of_truncated hread hw
    omega
  | unknown b =>
    obtain ⟨hb, hop⟩ := read_eq_unknown_iff.mp hread
    obtain ⟨op, hfirst⟩ := exists_opcode_of_inlineWidth hw
    have hbyte : op.byte = b := Option.some.inj (hfirst.symm.trans hb)
    rw [hop op hbyte] at hfirst
    exact absurd hfirst hnop
  | undelimited found => exact absurd hread (hdelimited found)

/-- **Two readers of one layout agree.** At an offset of a program, whatever its bytes are: an
instruction that is read there ends where its measured width says. One that is truncated there
cannot be measured, or is measured past the end of the program. And where a width is measured and
lies within the program, an instruction with just this width is read, unless the byte there is the
delimiter or an attribute lacks its own. -/
theorem inlineWidth_agrees (program : List UInt8) (offset : Nat) :
    (∀ i next, readAt program offset = .ok (.complete i next) →
      inlineWidth (program.drop offset) = some (next - offset - 1) ∧ offset < next) ∧
    (readAt program offset = .ok .truncated →
      inlineWidth (program.drop offset) = none ∨
        ∃ w, inlineWidth (program.drop offset) = some w ∧ program.length < offset + 1 + w) ∧
    (∀ w, inlineWidth (program.drop offset) = some w → offset + 1 + w ≤ program.length →
      program[offset]? ≠ some Opcode.nop.byte →
      (∀ e, readAt program offset ≠ .error e) →
      ∃ i, readAt program offset = .ok (.complete i (offset + 1 + w))) := by
  rcases Nat.lt_or_ge offset program.length with hlt | hge
  · rw [readAt_of_lt hlt]
    refine ⟨fun i next h => ?_, fun h => ?_, fun w hw hend hnop hok => ?_⟩
    · obtain ⟨raw, width, hread, -, rfl⟩ := Verdict.at_eq_complete_iff.mp h
      have hpos := (read_width hread).1
      rw [inlineWidth_of_complete hread, Nat.add_sub_cancel_left]
      exact ⟨rfl, by omega⟩
    · have hread := Verdict.at_eq_truncated_iff.mp h
      cases hw : inlineWidth (program.drop offset) with
      | none => exact .inl rfl
      | some w =>
        have hle := length_le_of_truncated hread hw
        rw [List.length_drop] at hle
        exact .inr ⟨w, rfl, by omega⟩
    · have hdelimited (found : UInt8) : read (program.drop offset) ≠ .undelimited found :=
        fun hread => hok _ (Verdict.at_eq_error_iff.mpr ⟨found, rfl, hread⟩)
      have hlength : w < (program.drop offset).length := by
        rw [List.length_drop]
        omega
      rw [← List.head?_drop] at hnop
      obtain ⟨raw, hread⟩ := exists_complete_of_inlineWidth hw hlength hnop hdelimited
      exact ⟨raw.ofBytes, Verdict.at_eq_complete_iff.mpr ⟨raw, w + 1, hread, rfl, by omega⟩⟩
  · -- Past the end an unknown byte is read, and nothing is measured.
    have hread : readAt program offset = .ok (.unknown 0) := by
      rw [readAt, List.drop_eq_nil_of_le hge]
    have hwidth : inlineWidth (program.drop offset) = none := by
      rw [List.drop_eq_nil_of_le hge]
      rfl
    rw [hread, hwidth]
    exact ⟨nofun, nofun, nofun⟩

end TreeCode.Instruction
