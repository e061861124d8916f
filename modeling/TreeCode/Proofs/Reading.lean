import TreeCode.Instruction.Read

/-!
# Reading and what follows

A verdict other than `truncated` looks at nothing behind the instruction: it is the same when more
bytes follow (`read_append`). An instruction that was written is read back from its bytes, whatever
follows them (`read_encode_append`).
-/

namespace TreeCode.Instruction

variable {bytes more : List UInt8}

@[elab_as_elim]
theorem head_cases {motive : List UInt8 → Prop} (nil : motive [])
    (other : ∀ b rest, Opcode.ofByte? b = none → motive (b :: rest))
    (opcode : ∀ (op : Opcode) rest, motive (op.byte :: rest)) (bytes : List UInt8) :
    motive bytes := by
  cases bytes with
  | nil => exact nil
  | cons b rest =>
    cases hb : Opcode.ofByte? b with
    | none => exact other b rest hb
    | some op => exact Opcode.byte_of_ofByte? hb ▸ opcode op rest

theorem read_of_ofByte?_eq_none {b : UInt8} (h : Opcode.ofByte? b = none) (rest : List UInt8) :
    read (b :: rest) = .unknown b := by
  simp only [read, h]

/-! ## More bytes -/

theorem split?_append {n : Nat} {front back : List UInt8} (h : split? n bytes = some (front, back))
    (more : List UInt8) : split? n (bytes ++ more) = some (front, back ++ more) := by
  obtain ⟨rfl, rfl⟩ := split?_eq_some_iff.mp h
  exact split?_eq_some_iff.mpr ⟨List.append_assoc .., rfl⟩

theorem readField_append {text rest : List UInt8} (h : readField bytes = some (text, rest))
    (more : List UInt8) : readField (bytes ++ more) = some (text, rest ++ more) := by
  cases bytes with
  | nil => cases h
  | cons n bytes => exact split?_append h more

theorem readText_append {make : List UInt8 → Instruction (List UInt8)}
    (h : readText make bytes ≠ .truncated) (more : List UInt8) :
    readText make (bytes ++ more) = readText make bytes := by
  unfold readText at h ⊢
  cases hf : readField bytes with
  | none => rw [hf] at h; exact absurd rfl h
  | some field => rw [readField_append hf]

theorem readListener_append (h : readListener bytes ≠ .truncated) (more : List UInt8) :
    readListener (bytes ++ more) = readListener bytes := by
  unfold readListener at h ⊢
  rcases hf : readField bytes with _ | ⟨event, _ | ⟨callback, rest⟩⟩
  · rw [hf] at h; exact absurd rfl h
  · rw [hf] at h; exact absurd rfl h
  · rw [readField_append hf]; rfl

/-- The verdict on an attribute is reached at its key field, at the byte behind its key or at the
end of its value, and the bytes up to there decide it. -/
theorem readAttribute_append (h : readAttribute bytes ≠ .truncated) (more : List UInt8) :
    readAttribute (bytes ++ more) = readAttribute bytes := by
  cases bytes with
  | nil => exact absurd rfl h
  | cons n bytes =>
    simp only [readAttribute, List.cons_append] at h ⊢
    by_cases hn : n = 0
    · rw [if_pos hn, if_pos hn]
    rw [if_neg hn] at h ⊢
    rw [if_neg hn]
    rcases hs : split? (n.toNat - 1) bytes with _ | ⟨key, _ | ⟨d, rest⟩⟩
    · rw [hs] at h; exact absurd rfl h
    · rw [hs] at h; exact absurd rfl h
    rw [hs] at h
    rw [split?_append hs]
    simp only [List.cons_append] at h ⊢
    by_cases hd : d = Opcode.nop.byte
    · rw [if_pos hd] at h ⊢
      rw [if_pos hd]
      cases hf : readField rest with
      | none => rw [hf] at h; exact absurd rfl h
      | some field => rw [readField_append hf]
    · rw [if_neg hd, if_neg hd]

/-- A verdict other than `truncated` stands whatever bytes follow. -/
theorem read_append (h : read bytes ≠ .truncated) (more : List UInt8) :
    read (bytes ++ more) = read bytes := by
  cases bytes using head_cases with
  | nil => exact absurd rfl h
  | other b rest hb => simp only [List.cons_append, read_of_ofByte?_eq_none hb]
  | opcode op rest =>
    simp only [read, List.cons_append, Opcode.ofByte?_byte] at h ⊢
    cases op with
    | createElement => exact readText_append h more
    | textNode => exact readText_append h more
    | setAttribute => exact readAttribute_append h more
    | eventListener => exact readListener_append h more
    | _ => rfl

/-! ## Written instructions -/

/-- Every text of an instruction is short enough for the byte that holds its length. -/
def Fits : Instruction (List UInt8) → Prop
  | createElement tag => tag.length ≤ maxField
  | setAttribute key value => key.length ≤ maxKey ∧ value.length ≤ maxField
  | textNode text => text.length ≤ maxField
  | eventListener event _ => event.length ≤ maxField
  | _ => True

theorem toNat_ofNat_length {bytes : List UInt8} (h : bytes.length ≤ maxField) :
    (UInt8.ofNat bytes.length).toNat = bytes.length :=
  UInt8.toNat_ofNat_of_lt' (Nat.lt_succ_of_le h)

theorem split?_length_append (front back : List UInt8) :
    split? front.length (front ++ back) = some (front, back) :=
  split?_eq_some_iff.mpr ⟨rfl, rfl⟩

theorem readField_field_append {text : List UInt8} (h : text.length ≤ maxField)
    (rest : List UInt8) : readField (field text ++ rest) = some (text, rest) := by
  simp only [field, List.cons_append, readField, toNat_ofNat_length h]
  exact split?_length_append text rest

theorem readText_field_append (make : List UInt8 → Instruction (List UInt8)) {text : List UInt8}
    (h : text.length ≤ maxField) (rest : List UInt8) :
    readText make (field text ++ rest) = .complete (make text) (text.length + 2) := by
  rw [readText, readField_field_append h]

/-- The key field is one more than the length of the key, so it is not zero, and what it leaves
behind the key is the delimiter. -/
theorem readAttribute_layout_append {key value : List UInt8} (hk : key.length ≤ maxKey)
    (hv : value.length ≤ maxField) (rest : List UInt8) :
    readAttribute (UInt8.ofNat (key.length + 1) :: (key ++ Opcode.nop.byte :: field value) ++ rest) =
      .complete (.setAttribute key value) (key.length + value.length + 4) := by
  have hn : (UInt8.ofNat (key.length + 1)).toNat = key.length + 1 :=
    UInt8.toNat_ofNat_of_lt' (by unfold maxKey maxField at hk; simp [UInt8.size]; omega)
  have h0 : UInt8.ofNat (key.length + 1) ≠ 0 := by
    intro h
    rw [h] at hn
    simp at hn
  simp only [List.cons_append, List.append_assoc, readAttribute]
  rw [if_neg h0, hn, Nat.add_sub_cancel, split?_length_append]
  simp only [if_true]
  rw [readField_field_append hv]

theorem readListener_field_append {event : List UInt8} (h : event.length ≤ maxField)
    (callback : UInt8) (rest : List UInt8) :
    readListener (field event ++ callback :: rest) =
      .complete (.eventListener event callback) (event.length + 3) := by
  rw [readListener, readField_field_append h]

/-- An instruction whose texts fit is read back from its bytes, whatever follows them. -/
theorem read_layout_append {i : Instruction (List UInt8)} (h : i.Fits) (rest : List UInt8) :
    read (i.layout ++ rest) = .complete i i.layout.length := by
  cases i with
  | createElement tag =>
    have hr := readText_field_append .createElement h rest
    simp only [layout, List.cons_append, read, Opcode.ofByte?_byte, hr]
    simp [field]
  | textNode text =>
    have hr := readText_field_append .textNode h rest
    simp only [layout, List.cons_append, read, Opcode.ofByte?_byte, hr]
    simp [field]
  | setAttribute key value =>
    have hr := readAttribute_layout_append h.1 h.2 rest
    simp only [layout, List.cons_append, read, Opcode.ofByte?_byte] at hr ⊢
    rw [hr]
    simp [field]
    omega
  | eventListener event callback =>
    have hr := readListener_field_append h callback rest
    simp only [layout, List.cons_append, List.append_assoc, List.nil_append, read,
      Opcode.ofByte?_byte, hr]
    simp [field]
  | _ => rfl

/-- A tag is not blank, and the name of an event is not empty. -/
def Named : Instruction String → Prop
  | createElement tag => Text.isBlank tag = false
  | eventListener event _ => event ≠ ""
  | _ => True

theorem fieldLength_bind {α : Type} (what : String) (bytes : List UInt8)
    (k : UInt8 → Except Error α) :
    (fieldLength what bytes >>= k) =
      if bytes.length ≤ maxField then k (UInt8.ofNat bytes.length)
      else .error (.unfitField what bytes.length) := by
  unfold fieldLength
  split <;> rfl

theorem keyLength_bind {α : Type} (bytes : List UInt8) (k : UInt8 → Except Error α) :
    (keyLength bytes >>= k) =
      if bytes.length ≤ maxKey then k (UInt8.ofNat (bytes.length + 1))
      else .error (.unfitField "attribute key" bytes.length) := by
  unfold keyLength
  split <;> rfl

theorem check_eq_ok_iff {i : Instruction String} :
    i.check = .ok () ↔ i.toBytes.Fits ∧ i.Named := by
  cases i with
  | createElement tag =>
    change _ ↔ (Text.utf8 tag).length ≤ maxField ∧ Text.isBlank tag = false
    by_cases hblank : Text.isBlank tag
    · simp [check, hblank, bind, Except.bind, throw, throwThe, MonadExceptOf.throw]
    · simp [check, hblank, fieldLength_bind, pure, Except.pure]
  | textNode text =>
    change _ ↔ (Text.utf8 text).length ≤ maxField ∧ True
    simp [check, fieldLength_bind, pure, Except.pure]
  | setAttribute key value =>
    change _ ↔ ((Text.utf8 key).length ≤ maxKey ∧ (Text.utf8 value).length ≤ maxField) ∧ True
    by_cases hkey : (Text.utf8 key).length ≤ maxKey <;>
      simp [check, fieldLength_bind, keyLength_bind, hkey, pure, Except.pure]
  | eventListener event callback =>
    change _ ↔ (Text.utf8 event).length ≤ maxField ∧ event ≠ ""
    by_cases hempty : event = ""
    · simp [check, hempty, bind, Except.bind, throw, throwThe, MonadExceptOf.throw]
    · simp [check, hempty, fieldLength_bind, pure, Except.pure]
  | _ => exact ⟨fun _ => ⟨trivial, trivial⟩, fun _ => rfl⟩

@[simp] theorem ofBytes_toBytes (i : Instruction String) : i.toBytes.ofBytes = i := by
  cases i <;> simp [toBytes, ofBytes, map]

theorem encode_eq_ok_iff {i : Instruction String} {bytes : List UInt8} :
    i.encode = .ok bytes ↔ i.check = .ok () ∧ i.toBytes.layout = bytes := by
  unfold encode
  cases i.check with
  | error e => simp [bind, Except.bind]
  | ok u => simp [bind, Except.bind, pure, Except.pure]

theorem read_encode_append {i : Instruction String} {bytes : List UInt8} (h : i.encode = .ok bytes)
    (rest : List UInt8) : read (bytes ++ rest) = .complete i.toBytes bytes.length := by
  obtain ⟨hc, rfl⟩ := encode_eq_ok_iff.mp h
  exact read_layout_append (check_eq_ok_iff.mp hc).1 rest

theorem layout_ne_nil (i : Instruction (List UInt8)) : i.layout ≠ [] := by
  cases i <;> simp [layout]

/-! ## Nothing else is read -/

theorem readField_eq_some_iff {text rest : List UInt8} :
    readField bytes = some (text, rest) ↔ text.length ≤ maxField ∧ bytes = field text ++ rest := by
  constructor
  · intro h
    cases bytes with
    | nil => cases h
    | cons n bytes =>
      obtain ⟨rfl, hlength⟩ := split?_eq_some_iff.mp h
      have hn : n.toNat < 256 := n.toNat_lt
      refine ⟨by unfold maxField; omega, ?_⟩
      rw [field, hlength, UInt8.ofNat_toNat]
      rfl
  · rintro ⟨h, rfl⟩
    exact readField_field_append h rest

theorem readText_eq_complete {make : List UInt8 → Instruction (List UInt8)}
    {i : Instruction (List UInt8)} {width : Nat} (h : readText make bytes = .complete i width) :
    ∃ text, text.length ≤ maxField ∧ i = make text ∧ field text <+: bytes := by
  unfold readText at h
  split at h
  · cases h
  · rename_i text rest hf
    cases h
    obtain ⟨htext, rfl⟩ := readField_eq_some_iff.mp hf
    exact ⟨text, htext, rfl, List.prefix_append ..⟩

theorem readListener_eq_complete {i : Instruction (List UInt8)} {width : Nat}
    (h : readListener bytes = .complete i width) :
    ∃ event callback, event.length ≤ maxField ∧ i = .eventListener event callback ∧
      field event ++ [callback] <+: bytes := by
  unfold readListener at h
  split at h
  · cases h
  · cases h
  · rename_i event callback rest hf
    cases h
    obtain ⟨hevent, rfl⟩ := readField_eq_some_iff.mp hf
    refine ⟨event, callback, hevent, rfl, rest, ?_⟩
    simp

theorem readAttribute_eq_complete {i : Instruction (List UInt8)} {width : Nat}
    (h : readAttribute bytes = .complete i width) :
    ∃ key value, key.length ≤ maxKey ∧ value.length ≤ maxField ∧ i = .setAttribute key value ∧
      UInt8.ofNat (key.length + 1) :: (key ++ Opcode.nop.byte :: field value) <+: bytes := by
  unfold readAttribute at h
  split at h
  · cases h
  rename_i n bytes
  split at h
  · cases h
  rename_i hn
  split at h
  · cases h
  · cases h
  rename_i key d rest hs
  split at h
  case isFalse => cases h
  rename_i hd
  split at h
  · cases h
  rename_i value back hf
  cases h
  obtain ⟨rfl, hlength⟩ := split?_eq_some_iff.mp hs
  obtain ⟨hvalue, rfl⟩ := readField_eq_some_iff.mp hf
  have hpos : n.toNat ≠ 0 := fun h0 => hn (UInt8.toNat_inj.mp h0)
  have hlt : n.toNat < 256 := n.toNat_lt
  refine ⟨key, value, by unfold maxKey maxField; omega, hvalue, rfl, back, ?_⟩
  rw [show key.length + 1 = n.toNat by omega, UInt8.ofNat_toNat, hd]
  simp

/-- An instruction that was read fits, and its bytes stand at the front. -/
theorem layout_prefix_of_read {i : Instruction (List UInt8)} {width : Nat}
    (h : read bytes = .complete i width) : i.Fits ∧ i.layout <+: bytes := by
  cases bytes using head_cases with
  | nil => cases h
  | other b rest hb =>
    rw [read_of_ofByte?_eq_none hb] at h
    cases h
  | opcode op rest =>
    simp only [read, Opcode.ofByte?_byte] at h
    cases op with
    | nop => cases h
    | createElement =>
      obtain ⟨tag, htag, rfl, hprefix⟩ := readText_eq_complete h
      exact ⟨htag, (List.prefix_cons_inj _).mpr hprefix⟩
    | textNode =>
      obtain ⟨text, htext, rfl, hprefix⟩ := readText_eq_complete h
      exact ⟨htext, (List.prefix_cons_inj _).mpr hprefix⟩
    | setAttribute =>
      obtain ⟨key, value, hkey, hvalue, rfl, hprefix⟩ := readAttribute_eq_complete h
      exact ⟨⟨hkey, hvalue⟩, (List.prefix_cons_inj _).mpr hprefix⟩
    | eventListener =>
      obtain ⟨event, callback, hevent, rfl, hprefix⟩ := readListener_eq_complete h
      exact ⟨hevent, (List.prefix_cons_inj _).mpr hprefix⟩
    | _ =>
      cases h
      exact ⟨trivial, (List.prefix_cons_inj _).mpr List.nil_prefix⟩

/-- An instruction is read where it fits and its bytes stand at the front, and only there. -/
theorem read_eq_complete_iff {i : Instruction (List UInt8)} {width : Nat} :
    read bytes = .complete i width ↔ i.Fits ∧ i.layout <+: bytes ∧ width = i.layout.length := by
  constructor
  · intro h
    obtain ⟨hfits, rest, rfl⟩ := layout_prefix_of_read h
    rw [read_layout_append hfits] at h
    cases h
    exact ⟨hfits, List.prefix_append .., rfl⟩
  · rintro ⟨hfits, ⟨rest, rfl⟩, rfl⟩
    exact read_layout_append hfits rest

end TreeCode.Instruction
