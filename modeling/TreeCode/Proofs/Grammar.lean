import TreeCode.Proofs.Reading

/-!
# The grammar of instructions

`CodeWord` lists the code words, opcode byte by opcode byte: a text stands behind one byte with its
length, and the key of an attribute behind one more than its length, which counts the delimiter.
Reading parses this grammar. The bytes start with a code word, which is then the only one
(`CodeWord.eq_of_prefix`), or they are the start of one, or an attribute in them has no delimiter,
or their first byte starts no instruction, and the verdict says which (`readAt_grammar`).
-/

namespace TreeCode.Instruction

variable {bytes word : List UInt8} {i : Instruction (List UInt8)} {found b : UInt8} {width : Nat}

/-- The code words and the instructions they stand for, with their texts as bytes. -/
inductive CodeWord : Instruction (List UInt8) → List UInt8 → Prop where
  | createElement {n : UInt8} {tag : List UInt8} : n.toNat = tag.length →
      CodeWord (.createElement tag) (0x01 :: n :: tag)
  | setAttribute {k n : UInt8} {key value : List UInt8} : k.toNat = key.length + 1 →
      n.toNat = value.length →
      CodeWord (.setAttribute key value) (0x02 :: k :: (key ++ 0x0b :: n :: value))
  | appendChild : CodeWord .appendChild [0x03]
  | removeChild : CodeWord .removeChild [0x04]
  | replaceChild : CodeWord .replaceChild [0x05]
  | textNode {n : UInt8} {text : List UInt8} : n.toNat = text.length →
      CodeWord (.textNode text) (0x06 :: n :: text)
  | setText : CodeWord .setText [0x07]
  | removeAttribute : CodeWord .removeAttribute [0x08]
  | style : CodeWord .style [0x09]
  | eventListener {n : UInt8} {event : List UInt8} (callback : UInt8) : n.toNat = event.length →
      CodeWord (.eventListener event callback) (0x0a :: n :: (event ++ [callback]))
  | appendSibling : CodeWord .appendSibling [0x0c]

/-- The bytes start with an attribute that has `found` where the delimiter belongs: its key field
leaves no room for a delimiter, or another byte stands behind the key. -/
inductive Undelimited : UInt8 → List UInt8 → Prop where
  | noRoom (rest : List UInt8) : Undelimited 0 (0x02 :: 0 :: rest)
  | misplaced {k found : UInt8} {key : List UInt8} (rest : List UInt8) :
      k.toNat = key.length + 1 → found ≠ 0x0b →
      Undelimited found (0x02 :: k :: (key ++ found :: rest))

/-! ## Code words are layouts -/

theorem eq_ofNat_length {n : UInt8} {text : List UInt8} (h : n.toNat = text.length) :
    n = UInt8.ofNat text.length ∧ text.length ≤ maxField := by
  have hn : n.toNat < 256 := n.toNat_lt
  refine ⟨?_, by unfold maxField; omega⟩
  rw [← h, UInt8.ofNat_toNat]

theorem codeWord_iff : CodeWord i word ↔ i.Fits ∧ word = i.layout := by
  constructor
  · intro h
    cases h with
    | createElement hn =>
      obtain ⟨rfl, hfits⟩ := eq_ofNat_length hn
      exact ⟨hfits, rfl⟩
    | textNode hn =>
      obtain ⟨rfl, hfits⟩ := eq_ofNat_length hn
      exact ⟨hfits, rfl⟩
    | eventListener callback hn =>
      obtain ⟨rfl, hfits⟩ := eq_ofNat_length hn
      exact ⟨hfits, rfl⟩
    | @setAttribute k n key value hk hn =>
      obtain ⟨rfl, hfits⟩ := eq_ofNat_length hn
      have hlt : k.toNat < 256 := k.toNat_lt
      refine ⟨⟨by unfold maxKey maxField; omega, hfits⟩, ?_⟩
      rw [layout, ← hk, UInt8.ofNat_toNat]
      rfl
    | _ => exact ⟨trivial, rfl⟩
  · rintro ⟨hfits, rfl⟩
    cases i with
    | createElement tag => exact .createElement (toNat_ofNat_length hfits)
    | textNode text => exact .textNode (toNat_ofNat_length hfits)
    | eventListener event callback => exact .eventListener callback (toNat_ofNat_length hfits)
    | setAttribute key value =>
      have hkey : (UInt8.ofNat (key.length + 1)).toNat = key.length + 1 :=
        UInt8.toNat_ofNat_of_lt' (Nat.lt_succ_of_le (Nat.succ_le_succ hfits.1))
      exact .setAttribute hkey (toNat_ofNat_length hfits.2)
    | appendChild => exact .appendChild
    | removeChild => exact .removeChild
    | replaceChild => exact .replaceChild
    | setText => exact .setText
    | removeAttribute => exact .removeAttribute
    | style => exact .style
    | appendSibling => exact .appendSibling

theorem CodeWord.read_append (h : CodeWord i word) (rest : List UInt8) :
    read (word ++ rest) = .complete i word.length := by
  obtain ⟨hfits, rfl⟩ := codeWord_iff.mp h
  exact read_layout_append hfits rest

theorem CodeWord.read_of_prefix (h : CodeWord i word) (hp : word <+: bytes) :
    read bytes = .complete i word.length := by
  obtain ⟨rest, rfl⟩ := hp
  exact h.read_append rest

/-- Code words are prefix-free: bytes start with at most one. -/
theorem CodeWord.eq_of_prefix {j : Instruction (List UInt8)} {word' : List UInt8}
    (h : CodeWord i word) (h' : CodeWord j word') (hp : word <+: bytes) (hp' : word' <+: bytes) :
    i = j ∧ word = word' := by
  have hread := (h.read_of_prefix hp).symm.trans (h'.read_of_prefix hp')
  obtain ⟨hij, hlength⟩ := Verdict.complete.inj hread
  exact ⟨hij, (List.prefix_of_prefix_length_le hp hp' (Nat.le_of_eq hlength)).eq_of_length hlength⟩

theorem read_eq_complete_iff_codeWord :
    read bytes = .complete i width ↔
      ∃ word, CodeWord i word ∧ word <+: bytes ∧ width = word.length := by
  rw [read_eq_complete_iff]
  constructor
  · rintro ⟨hfits, hprefix, hwidth⟩
    exact ⟨i.layout, codeWord_iff.mpr ⟨hfits, rfl⟩, hprefix, hwidth⟩
  · rintro ⟨word, hword, hprefix, hwidth⟩
    obtain ⟨hfits, rfl⟩ := codeWord_iff.mp hword
    exact ⟨hfits, hprefix, hwidth⟩

/-! ## Truncated instructions -/

theorem exists_field_of_readField_eq_none (h : readField bytes = none) :
    ∃ text, text.length ≤ maxField ∧ bytes <+: field text ∧ bytes.length < (field text).length := by
  cases bytes with
  | nil => exact ⟨[], Nat.zero_le _, List.nil_prefix, Nat.zero_lt_one⟩
  | cons n rest =>
    have hlt : rest.length < n.toNat := split?_eq_none_iff.mp h
    have hlength : n.toNat = (rest ++ List.replicate (n.toNat - rest.length) 0).length := by
      simp
      omega
    obtain ⟨hn, hfits⟩ := eq_ofNat_length hlength
    refine ⟨_, hfits, ?_, ?_⟩
    · rw [field, ← hn]
      exact (List.prefix_cons_inj n).mpr (List.prefix_append ..)
    · simp [field]
      omega

theorem readText_eq_truncated {make : List UInt8 → Instruction (List UInt8)}
    (h : readText make bytes = .truncated) :
    ∃ text, text.length ≤ maxField ∧ bytes <+: field text ∧ bytes.length < (field text).length := by
  unfold readText at h
  split at h
  · rename_i hf
    exact exists_field_of_readField_eq_none hf
  · cases h

theorem readListener_eq_truncated (h : readListener bytes = .truncated) :
    ∃ event, event.length ≤ maxField ∧ bytes <+: field event ++ [0] ∧
      bytes.length < (field event ++ [0]).length := by
  unfold readListener at h
  split at h
  · rename_i hf
    obtain ⟨event, hevent, hprefix, hlt⟩ := exists_field_of_readField_eq_none hf
    refine ⟨event, hevent, hprefix.trans (List.prefix_append ..), ?_⟩
    rw [List.length_append]
    omega
  · rename_i event hf
    obtain ⟨hevent, rfl⟩ := readField_eq_some_iff.mp hf
    refine ⟨event, hevent, ?_, ?_⟩
    · rw [List.append_nil]
      exact List.prefix_append ..
    · simp
  · cases h

theorem toNat_eq_length_succ {n : UInt8} {key : List UInt8} (hn : n ≠ 0)
    (h : key.length = n.toNat - 1) : n.toNat = key.length + 1 := by
  have hpos : n.toNat ≠ 0 := fun h0 => hn (UInt8.toNat_inj.mp h0)
  omega

/-- An attribute that ends before its delimiter: its key can be filled up. -/
theorem exists_codeWord_of_short_key {n : UInt8} {rest : List UInt8} (hn : n ≠ 0)
    (h : rest.length ≤ n.toNat - 1) :
    ∃ i word, CodeWord i word ∧ 0x02 :: n :: rest <+: word ∧ rest.length + 2 < word.length := by
  have hkey : n.toNat = (rest ++ List.replicate (n.toNat - 1 - rest.length) 0).length + 1 := by
    apply toNat_eq_length_succ hn
    simp
    omega
  refine ⟨_, _, @CodeWord.setAttribute n 0 _ [] hkey rfl, ?_, ?_⟩
  · simp only [List.prefix_cons_inj, List.append_assoc]
    exact List.prefix_append ..
  · simp

theorem exists_codeWord_of_readAttribute_truncated (h : readAttribute bytes = .truncated) :
    ∃ i word, CodeWord i word ∧ 0x02 :: bytes <+: word ∧ bytes.length + 1 < word.length := by
  cases bytes with
  | nil =>
    refine ⟨_, _, @CodeWord.setAttribute 1 0 [] [] rfl rfl, ?_, ?_⟩
    · exact (List.prefix_cons_inj _).mpr List.nil_prefix
    · simp
  | cons n rest =>
    simp only [readAttribute] at h
    split at h
    · cases h
    rename_i hn
    split at h
    · rename_i hs
      exact exists_codeWord_of_short_key hn (Nat.le_of_lt (split?_eq_none_iff.mp hs))
    · rename_i key hs
      obtain ⟨rfl, hlength⟩ := split?_eq_some_iff.mp hs
      rw [List.append_nil]
      exact exists_codeWord_of_short_key hn (Nat.le_of_eq hlength)
    rename_i key d back hs
    obtain ⟨rfl, hlength⟩ := split?_eq_some_iff.mp hs
    split at h
    · rename_i hd
      split at h
      · rename_i hf
        obtain ⟨value, hvalue, hprefix, hlt⟩ := exists_field_of_readField_eq_none hf
        refine ⟨_, _, .setAttribute (toNat_eq_length_succ hn hlength) (toNat_ofNat_length hvalue),
          ?_, ?_⟩
        · subst hd
          simp only [List.prefix_cons_inj, List.prefix_append_right_inj]
          exact (List.prefix_cons_inj _).mpr hprefix
        · simp only [field, List.length_cons, List.length_append] at hlt ⊢
          omega
      · cases h
    · cases h

theorem exists_codeWord_of_truncated (h : read bytes = .truncated) :
    ∃ i word, CodeWord i word ∧ bytes <+: word ∧ bytes.length < word.length := by
  cases bytes using head_cases with
  | nil => exact ⟨_, _, .appendChild, List.nil_prefix, Nat.zero_lt_one⟩
  | other b rest hb =>
    rw [read_of_ofByte?_eq_none hb] at h
    cases h
  | opcode op rest =>
    simp only [read, Opcode.ofByte?_byte] at h
    cases op with
    | createElement =>
      obtain ⟨tag, htag, hprefix, hlt⟩ := readText_eq_truncated h
      exact ⟨.createElement tag, _, codeWord_iff.mpr ⟨htag, rfl⟩,
        (List.prefix_cons_inj _).mpr hprefix, Nat.succ_lt_succ hlt⟩
    | textNode =>
      obtain ⟨text, htext, hprefix, hlt⟩ := readText_eq_truncated h
      exact ⟨.textNode text, _, codeWord_iff.mpr ⟨htext, rfl⟩,
        (List.prefix_cons_inj _).mpr hprefix, Nat.succ_lt_succ hlt⟩
    | setAttribute => exact exists_codeWord_of_readAttribute_truncated h
    | eventListener =>
      obtain ⟨event, hevent, hprefix, hlt⟩ := readListener_eq_truncated h
      exact ⟨.eventListener event 0, _, codeWord_iff.mpr ⟨hevent, rfl⟩,
        (List.prefix_cons_inj _).mpr hprefix, Nat.succ_lt_succ hlt⟩
    | _ => cases h

/-- The start of a code word ends too early: any other verdict on it would stand for the whole
word, which takes more bytes than there are. -/
theorem read_eq_truncated_iff :
    read bytes = .truncated ↔ ∃ i word, CodeWord i word ∧ bytes <+: word ∧ bytes ≠ word := by
  constructor
  · intro h
    obtain ⟨i, word, hword, hprefix, hlt⟩ := exists_codeWord_of_truncated h
    exact ⟨i, word, hword, hprefix, fun he => Nat.ne_of_lt hlt (congrArg List.length he)⟩
  · rintro ⟨i, word, hword, ⟨more, rfl⟩, hne⟩
    refine Decidable.byContradiction fun h => ?_
    have hread := read_append h more
    rw [hword.read_of_prefix (List.prefix_refl _)] at hread
    have hle := (read_width hread.symm).2
    rw [List.length_append] at hle
    have hmore : more = [] := List.length_eq_zero_iff.mp (by omega)
    exact hne (by rw [hmore, List.append_nil])

/-! ## Attributes without their delimiter -/

theorem read_of_undelimited (h : Undelimited found bytes) : read bytes = .undelimited found := by
  cases h with
  | noRoom rest => rfl
  | @misplaced k found key rest hk hfound =>
    have hk0 : k ≠ 0 := by
      rintro rfl
      simp at hk
    change readAttribute (k :: (key ++ found :: rest)) = _
    rw [readAttribute, if_neg hk0, hk, Nat.add_sub_cancel, split?_length_append]
    exact if_neg hfound

theorem undelimited_of_readAttribute (h : readAttribute bytes = .undelimited found) :
    Undelimited found (0x02 :: bytes) := by
  cases bytes with
  | nil => cases h
  | cons n rest =>
    simp only [readAttribute] at h
    split at h
    · rename_i hn
      cases h
      rw [hn]
      exact .noRoom rest
    rename_i hn
    split at h
    · cases h
    · cases h
    rename_i key d back hs
    obtain ⟨rfl, hlength⟩ := split?_eq_some_iff.mp hs
    split at h
    · split at h <;> cases h
    · rename_i hd
      cases h
      exact .misplaced back (toNat_eq_length_succ hn hlength) hd

theorem readText_ends (make : List UInt8 → Instruction (List UInt8)) (bytes : List UInt8) :
    readText make bytes = .truncated ∨ ∃ i width, readText make bytes = .complete i width := by
  unfold readText
  split
  · exact .inl rfl
  · exact .inr ⟨_, _, rfl⟩

theorem readListener_ends (bytes : List UInt8) :
    readListener bytes = .truncated ∨ ∃ i width, readListener bytes = .complete i width := by
  unfold readListener
  split
  · exact .inl rfl
  · exact .inl rfl
  · exact .inr ⟨_, _, rfl⟩

/-- Only an attribute can lack its delimiter, and of all opcodes only the delimiter starts no
instruction: what the others start is truncated or complete. -/
theorem read_ends {op : Opcode} (hnop : op ≠ .nop) (hattribute : op ≠ .setAttribute)
    (rest : List UInt8) :
    read (op.byte :: rest) = .truncated ∨ ∃ i width, read (op.byte :: rest) = .complete i width := by
  simp only [read, Opcode.ofByte?_byte]
  cases op with
  | nop => exact absurd rfl hnop
  | setAttribute => exact absurd rfl hattribute
  | createElement => exact readText_ends .createElement rest
  | textNode => exact readText_ends .textNode rest
  | eventListener => exact readListener_ends rest
  | _ => exact .inr ⟨_, _, rfl⟩

theorem read_eq_undelimited_iff : read bytes = .undelimited found ↔ Undelimited found bytes := by
  refine ⟨fun h => ?_, read_of_undelimited⟩
  cases bytes using head_cases with
  | nil => cases h
  | other b rest hb =>
    rw [read_of_ofByte?_eq_none hb] at h
    cases h
  | opcode op rest =>
    by_cases hattribute : op = .setAttribute
    · subst hattribute
      exact undelimited_of_readAttribute h
    by_cases hnop : op = .nop
    · subst hnop
      cases h
    rcases read_ends hnop hattribute rest with h' | ⟨_, _, h'⟩ <;> cases h'.symm.trans h

/-! ## Bytes that start no instruction -/

theorem readAttribute_ne_unknown (bytes : List UInt8) : readAttribute bytes ≠ .unknown b := by
  intro h
  unfold readAttribute at h
  split at h
  · cases h
  split at h
  · cases h
  split at h
  · cases h
  · cases h
  split at h
  · split at h <;> cases h
  · cases h

/-- A first byte that is the opcode of an instruction is never unknown, whatever follows. -/
theorem opcode_eq_nop_of_read_unknown {rest : List UInt8} {op : Opcode}
    (h : read (op.byte :: rest) = .unknown b) : op = .nop := by
  refine Decidable.byContradiction fun hnop => ?_
  by_cases hattribute : op = .setAttribute
  · subst hattribute
    exact readAttribute_ne_unknown rest h
  rcases read_ends hnop hattribute rest with h' | ⟨_, _, h'⟩ <;> cases h'.symm.trans h

theorem byte_eq_of_read_unknown {first : UInt8} {rest : List UInt8}
    (h : read (first :: rest) = .unknown b) : first = b := by
  cases hfirst : Opcode.ofByte? first with
  | none =>
    rw [read_of_ofByte?_eq_none hfirst] at h
    exact Verdict.unknown.inj h
  | some op =>
    obtain rfl := Opcode.byte_of_ofByte? hfirst
    obtain rfl := opcode_eq_nop_of_read_unknown h
    exact Verdict.unknown.inj h

theorem read_eq_unknown_iff :
    read bytes = .unknown b ↔ bytes.head? = some b ∧ ∀ op : Opcode, op.byte = b → op = .nop := by
  cases bytes with
  | nil => simp [read]
  | cons first rest =>
    constructor
    · intro h
      obtain rfl := byte_eq_of_read_unknown h
      refine ⟨rfl, ?_⟩
      rintro op rfl
      exact opcode_eq_nop_of_read_unknown h
    · rintro ⟨hfirst, hop⟩
      obtain rfl : first = b := Option.some.inj hfirst
      cases hb : Opcode.ofByte? first with
      | none => exact read_of_ofByte?_eq_none hb rest
      | some op =>
        obtain rfl := hop op (Opcode.byte_of_ofByte? hb)
        simp only [read, hb]

/-! ## At an offset -/

theorem readAt_of_lt {program : List UInt8} {offset : Nat} (h : offset < program.length) :
    readAt program offset = (read (program.drop offset)).at offset := by
  unfold readAt
  split
  · rename_i hnil
    rw [List.drop_eq_nil_iff] at hnil
    omega
  · rfl

theorem Verdict.at_eq_complete_iff {v : Verdict} {offset next : Nat} {i : Instruction String} :
    v.at offset = .ok (.complete i next) ↔
      ∃ raw width, v = .complete raw width ∧ i = raw.ofBytes ∧ next = offset + width := by
  constructor
  · intro h
    cases v <;> cases h
    exact ⟨_, _, rfl, rfl, rfl⟩
  · rintro ⟨raw, width, rfl, rfl, rfl⟩
    rfl

theorem Verdict.at_eq_truncated_iff {v : Verdict} {offset : Nat} :
    v.at offset = .ok .truncated ↔ v = .truncated := by
  cases v <;> simp [Verdict.at]

theorem Verdict.at_eq_unknown_iff {v : Verdict} {offset : Nat} :
    v.at offset = .ok (.unknown b) ↔ v = .unknown b := by
  cases v <;> simp [Verdict.at]

theorem Verdict.at_eq_error_iff {v : Verdict} {offset : Nat} {e : Error} :
    v.at offset = .error e ↔
      ∃ found, e = .undelimitedKey offset found ∧ v = .undelimited found := by
  cases v <;> simp [Verdict.at, eq_comm]

theorem readAt_eq_complete_iff {program : List UInt8} {offset next : Nat} {i : Instruction String}
    (h : offset < program.length) :
    readAt program offset = .ok (.complete i next) ↔
      ∃ raw word, CodeWord raw word ∧ word <+: program.drop offset ∧ i = raw.ofBytes ∧
        next = offset + word.length := by
  rw [readAt_of_lt h, Verdict.at_eq_complete_iff]
  constructor
  · rintro ⟨raw, width, hread, hi, hnext⟩
    obtain ⟨word, hword, hprefix, rfl⟩ := read_eq_complete_iff_codeWord.mp hread
    exact ⟨raw, word, hword, hprefix, hi, hnext⟩
  · rintro ⟨raw, word, hword, hprefix, hi, hnext⟩
    exact ⟨raw, word.length, hword.read_of_prefix hprefix, hi, hnext⟩

theorem CodeWord.ne_nil (h : CodeWord i word) : word ≠ [] := by
  cases h <;> simp

/-- What is read at an offset is read there in every program with the same bytes up to its end. -/
theorem readAt_of_take_eq {program program' : List UInt8} {offset next : Nat}
    {i : Instruction String} (h : offset < program.length)
    (hread : readAt program offset = .ok (.complete i next))
    (htake : program'.take next = program.take next) :
    readAt program' offset = .ok (.complete i next) := by
  obtain ⟨raw, word, hword, hprefix, hi, rfl⟩ := (readAt_eq_complete_iff h).mp hread
  have hprefix' : word <+: program'.drop offset := by
    have hdrop := congrArg (List.drop offset) htake
    rw [List.drop_take, List.drop_take, Nat.add_sub_cancel_left] at hdrop
    rw [List.prefix_iff_eq_take.mp hprefix, ← hdrop]
    exact List.take_prefix ..
  have hlt : offset < program'.length := by
    have hlength := hprefix'.length_le
    have hpos := List.length_pos_iff.mpr hword.ne_nil
    rw [List.length_drop] at hlength
    omega
  exact (readAt_eq_complete_iff hlt).mpr ⟨raw, word, hword, hprefix', hi, rfl⟩

/-- **Reading parses the grammar.** At an offset inside a program, an instruction is read just where
the bytes from there on start with a code word. That is the only one they start with, it ends where
the reading says, the texts are those its fields spell, and nothing behind it is looked at. The
bytes are truncated just where they are the start of a longer code word. Reading fails just where
an attribute lacks its delimiter, and it names the offset and the byte found. And the first byte is
unknown just where it is the opcode of no instruction. -/
theorem readAt_grammar {program : List UInt8} {offset : Nat} (h : offset < program.length) :
    (∀ i next, readAt program offset = .ok (.complete i next) ↔
      ∃ raw word, CodeWord raw word ∧ word <+: program.drop offset ∧ i = raw.ofBytes ∧
        next = offset + word.length) ∧
    (∀ raw word raw' word', CodeWord raw word → word <+: program.drop offset →
      CodeWord raw' word' → word' <+: program.drop offset → raw = raw' ∧ word = word') ∧
    (∀ i next, readAt program offset = .ok (.complete i next) →
      ∀ program', program'.take next = program.take next →
        readAt program' offset = .ok (.complete i next)) ∧
    (readAt program offset = .ok .truncated ↔
      ∃ raw word, CodeWord raw word ∧ program.drop offset <+: word ∧
        program.drop offset ≠ word) ∧
    (∀ e, readAt program offset = .error e ↔
      ∃ found, e = .undelimitedKey offset found ∧ Undelimited found (program.drop offset)) ∧
    (∀ byte, readAt program offset = .ok (.unknown byte) ↔
      program[offset]? = some byte ∧ ∀ op : Opcode, op.byte = byte → op = .nop) := by
  refine ⟨fun i next => readAt_eq_complete_iff h, ?_, ?_, ?_, ?_, ?_⟩
  · intro raw word raw' word' hword hprefix hword' hprefix'
    exact hword.eq_of_prefix hword' hprefix hprefix'
  · intro i next hread program' htake
    exact readAt_of_take_eq h hread htake
  · rw [readAt_of_lt h, Verdict.at_eq_truncated_iff, read_eq_truncated_iff]
  · intro e
    rw [readAt_of_lt h, Verdict.at_eq_error_iff]
    simp only [read_eq_undelimited_iff]
  · intro byte
    rw [readAt_of_lt h, Verdict.at_eq_unknown_iff, read_eq_unknown_iff, List.head?_drop]

/-- An attribute stands behind another instruction, and what follows it is no part of it. -/
theorem readAt_grammar_attribute :
    1 < [0x03, 0x02, 3, 105, 100, 0x0b, 1, 0x0b, 0xff].length ∧
      readAt [0x03, 0x02, 3, 105, 100, 0x0b, 1, 0x0b, 0xff] 1 =
        .ok (.complete (.setAttribute "id" "\x0b") 8) := by
  have h : 1 < [0x03, 0x02, 3, 105, 100, 0x0b, 1, 0x0b, 0xff].length := by decide
  refine ⟨h, ((readAt_grammar h).1 _ _).mpr ?_⟩
  exact ⟨.setAttribute [105, 100] [0x0b], [0x02, 3, 105, 100, 0x0b, 1, 0x0b],
    .setAttribute rfl rfl, by decide, by decide +kernel, rfl⟩

end TreeCode.Instruction
