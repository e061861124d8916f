import TreeCode.Listing
import TreeCode.Proofs.Text.Quoted

/-!
# The text of a listing

A listing has one line for each instruction, and one more where it does not end with the program
(`exists_lines_endingLine`). Each line says by itself where its parts end: the offset at a blank, the
mnemonic at a blank or at the end of the line, a quoted text at its closing quote. So the text
determines the listing (`text_injective`), whatever the texts in it hold.
-/

namespace TreeCode

theorem Opcode.mnemonic_injective {op op' : Opcode} (h : op.mnemonic = op'.mnemonic) : op = op' := by
  cases op <;> cases op' <;> simp [mnemonic] at h ⊢

theorem Opcode.isNameChar_of_mem_mnemonic (op : Opcode) :
    ∀ c ∈ op.mnemonic.toList, (c.isUpper || c == '_') = true :=
  List.all_eq_true.mp (by cases op <;> decide)

namespace Ending

/-- The listing ends with an error in the place of an instruction. -/
def isError : Ending → Bool
  | undelimited _ _ => true
  | _ => false

/-- The listing stops before the end of the program, without an error. -/
def isStop : Ending → Bool
  | unknown _ _ | truncated _ => true
  | _ => false

end Ending

namespace Instruction

variable {i i' : Instruction String} {back back' : List Char}

theorem isNameChar_head?_operandText (i : Instruction String) (back : List Char) :
    ∀ c ∈ (i.operandText.toList ++ '\n' :: back).head?, (c.isUpper || c == '_') = false := by
  cases i <;> simp [operandText]

/-- Operands that go with one opcode, each followed by the end of the line. -/
theorem operandText_append_inj (hop : i.opcode = i'.opcode)
    (h : i.operandText.toList ++ '\n' :: back = i'.operandText.toList ++ '\n' :: back') :
    i = i' ∧ back = back' := by
  cases i <;> cases i' <;> simp only [opcode, reduceCtorEq] at hop <;>
    simp only [operandText, String.toList_append, List.append_assoc] at h
  case createElement.createElement tag tag' =>
    obtain ⟨rfl, hend⟩ := Text.prefixFree_quote _ _ _ _ (List.append_cancel_left h)
    exact ⟨rfl, List.tail_eq_of_cons_eq hend⟩
  case setAttribute.setAttribute key value key' value' =>
    obtain ⟨rfl, hrest⟩ := Text.prefixFree_quote _ _ _ _ (List.append_cancel_left h)
    obtain ⟨rfl, hend⟩ := Text.prefixFree_quote _ _ _ _ (List.append_cancel_left hrest)
    exact ⟨rfl, List.tail_eq_of_cons_eq hend⟩
  case textNode.textNode text text' =>
    obtain ⟨rfl, hend⟩ := Text.prefixFree_quote _ _ _ _ (List.append_cancel_left h)
    exact ⟨rfl, List.tail_eq_of_cons_eq hend⟩
  case eventListener.eventListener event callback event' callback' =>
    obtain ⟨rfl, hrest⟩ := Text.prefixFree_quote _ _ _ _ (List.append_cancel_left h)
    have hnumber := List.append_cancel_left hrest
    rw [← Text.decimal_zero, ← Text.decimal_zero] at hnumber
    obtain ⟨hcallback, hend⟩ := Text.decimal_append_inj (by simp) (by simp) hnumber
    rw [UInt8.toNat_inj.mp hcallback]
    exact ⟨rfl, List.tail_eq_of_cons_eq hend⟩
  all_goals exact ⟨rfl, List.tail_eq_of_cons_eq h⟩

/-- Instructions as a listing writes them, each followed by the end of the line. -/
theorem text_append_inj
    (h : i.text.toList ++ '\n' :: back = i'.text.toList ++ '\n' :: back') :
    i = i' ∧ back = back' := by
  rw [text, text, String.toList_append, String.toList_append, List.append_assoc,
    List.append_assoc] at h
  obtain ⟨hname, hrest⟩ := Text.append_inj_of_all i.opcode.isNameChar_of_mem_mnemonic
    i'.opcode.isNameChar_of_mem_mnemonic (isNameChar_head?_operandText i back)
    (isNameChar_head?_operandText i' back') h
  exact operandText_append_inj (Opcode.mnemonic_injective (String.toList_injective hname)) hrest

theorem text_append_ne (i : Instruction String) (rest back : List Char) :
    i.text.toList ++ rest ≠ '<' :: back := by
  intro h
  rw [text, String.toList_append, List.append_assoc] at h
  cases hname : i.opcode.mnemonic.toList with
  | nil => exact absurd hname (by cases i.opcode <;> decide)
  | cons c name =>
    rw [hname, List.cons_append, List.cons.injEq] at h
    have hc := i.opcode.isNameChar_of_mem_mnemonic c (hname ▸ List.mem_cons_self)
    rw [h.1] at hc
    exact absurd hc (by decide)

theorem inLine_text (i : Instruction String) : Text.InLine i.text := by
  refine .append (by cases i.opcode <;> decide) ?_
  cases i with
  | createElement tag => exact .append (by decide) (Text.inLine_quote tag)
  | setAttribute key value =>
    exact .append (.append (.append (by decide) (Text.inLine_quote key)) (by decide))
      (Text.inLine_quote value)
  | textNode text => exact .append (by decide) (Text.inLine_quote text)
  | eventListener event callback =>
    refine .append (.append (.append (by decide) (Text.inLine_quote event)) (by decide)) ?_
    rw [← Text.decimal_zero]
    exact Text.inLine_decimal 0 _
  | appendChild | removeChild | replaceChild | setText | removeAttribute | style
  | appendSibling => decide

end Instruction

namespace Listing

variable {l l' : Listing} {item item' : Nat × Instruction String} {e e' : Ending} {o o' : Nat}
  {back back' : List Char}

/-! ## Parts of a line -/

theorem toList_itemLine (item : Nat × Instruction String) : (itemLine item).toList =
    (offsetText item.1).toList ++ ' ' :: ' ' :: (item.2.text.toList ++ ['\n']) := by
  simp [itemLine]

theorem toList_endingLine_unknown (o : Nat) (byte : UInt8) :
    (endingLine (.unknown o byte)).toList = (offsetText o).toList ++
      ' ' :: ' ' :: '<' :: ("halt ".toList ++ ((Text.hexByte byte).toList ++ ['>', '\n'])) := by
  simp [endingLine]

theorem toList_endingLine_truncated (o : Nat) : (endingLine (.truncated o)).toList =
    (offsetText o).toList ++ ' ' :: ' ' :: '<' :: "truncated>\n".toList := by
  simp [endingLine]

theorem toList_endingLine_undelimited (o : Nat) (found : UInt8) :
    ∃ rest, (endingLine (.undelimited o found)).toList = "error".toList ++ ':' :: rest := by
  refine ⟨' ' :: ((Error.undelimitedKey o found).message.toList ++ ['\n']), ?_⟩
  simp only [endingLine, String.toList_append, List.append_assoc]
  rfl

theorem offsetText_append_inj
    (h : (offsetText o).toList ++ ' ' :: back = (offsetText o').toList ++ ' ' :: back') :
    o = o' ∧ back = back' := by
  obtain ⟨ho, hrest⟩ := Text.decimal_append_inj (by simp) (by simp) h
  exact ⟨ho, List.tail_eq_of_cons_eq hrest⟩

theorem offsetText_append_ne_error :
    (offsetText o).toList ++ ' ' :: back ≠ "error".toList ++ ':' :: back' := by
  intro h
  have hword : "error".toList.all Char.isAlphanum := by decide
  obtain ⟨-, hrest⟩ := Text.append_inj_of_all Text.isAlphanum_of_mem_decimal
    (List.all_eq_true.mp hword) (by simp) (by simp) h
  exact absurd (List.head_eq_of_cons_eq hrest) (by decide)

/-! ## Lines -/

theorem prefixFree_itemLine : Text.PrefixFree fun item => (itemLine item).toList := by
  rintro ⟨o, i⟩ ⟨o', i'⟩ back back' h
  simp only [toList_itemLine, List.append_assoc, List.cons_append, List.nil_append] at h
  obtain ⟨rfl, hrest⟩ := offsetText_append_inj h
  obtain ⟨rfl, hback⟩ := Instruction.text_append_inj (List.tail_eq_of_cons_eq hrest)
  exact ⟨rfl, hback⟩

theorem itemLine_append_ne_endingLine (item : Nat × Instruction String) (e : Ending)
    (rest : List Char) : (itemLine item).toList ++ rest ≠ (endingLine e).toList := by
  intro h
  simp only [toList_itemLine, List.append_assoc, List.cons_append, List.nil_append] at h
  cases e with
  | finished => simp [endingLine] at h
  | unknown o byte =>
    rw [toList_endingLine_unknown] at h
    obtain ⟨-, htext⟩ := offsetText_append_inj h
    exact Instruction.text_append_ne _ _ _ (List.tail_eq_of_cons_eq htext)
  | truncated o =>
    rw [toList_endingLine_truncated] at h
    obtain ⟨-, htext⟩ := offsetText_append_inj h
    exact Instruction.text_append_ne _ _ _ (List.tail_eq_of_cons_eq htext)
  | undelimited o found =>
    obtain ⟨back, herror⟩ := toList_endingLine_undelimited o found
    exact offsetText_append_ne_error (h.trans herror)

theorem endingLine_ne_nil (h : e ≠ .finished) : (endingLine e).toList ≠ [] := by
  cases e with
  | finished => exact absurd rfl h
  | unknown o byte => simp [toList_endingLine_unknown]
  | truncated o => simp [toList_endingLine_truncated]
  | undelimited o found =>
    obtain ⟨rest, herror⟩ := toList_endingLine_undelimited o found
    simp [herror]

theorem endingLine_unknown_ne_truncated {byte : UInt8} :
    (endingLine (.unknown o byte)).toList ≠ (endingLine (.truncated o')).toList := by
  rw [toList_endingLine_unknown, toList_endingLine_truncated]
  intro h
  obtain ⟨-, hmark⟩ := offsetText_append_inj h
  simp at hmark

theorem endingLine_ne_undelimited {found : UInt8}
    (h : (endingLine e).toList = (offsetText o).toList ++ ' ' :: back) :
    (endingLine e).toList ≠ (endingLine (.undelimited o' found)).toList := by
  obtain ⟨rest, herror⟩ := toList_endingLine_undelimited o' found
  rw [h, herror]
  exact offsetText_append_ne_error

theorem endingLine_unknown_inj {byte byte' : UInt8}
    (h : (endingLine (.unknown o byte)).toList = (endingLine (.unknown o' byte')).toList) :
    o = o' ∧ byte = byte' := by
  rw [toList_endingLine_unknown, toList_endingLine_unknown] at h
  obtain ⟨ho, hmark⟩ := offsetText_append_inj h
  simp only [List.cons.injEq, true_and, List.append_cancel_left_eq] at hmark
  exact ⟨ho, (Text.hexByte_append_inj (by simp) (by simp) hmark).1⟩

/-- A line in which a number and a byte stand between fixed parts. What stands behind the number does
not start with a digit. -/
theorem numbered_inj {a b m : String} {byte byte' : UInt8}
    (hm : m.toList.head?.map Char.isAlphanum = some false)
    (h : a ++ (b ++ Nat.repr o ++ m ++ Text.hexByte byte) ++ "\n" =
      a ++ (b ++ Nat.repr o' ++ m ++ Text.hexByte byte') ++ "\n") :
    o = o' ∧ byte = byte' := by
  have hline := congrArg String.toList h
  simp only [← Text.decimal_zero, String.toList_append, List.append_assoc,
    List.append_cancel_left_eq] at hline
  have hhead (rest : List Char) : ∀ c ∈ (m.toList ++ rest).head?, c.isAlphanum = false := by
    obtain ⟨c, hc, hdigit⟩ := Option.map_eq_some_iff.mp hm
    simpa [hc] using hdigit
  obtain ⟨ho, hrest⟩ := Text.decimal_append_inj (hhead _) (hhead _) hline
  rw [List.append_cancel_left_eq] at hrest
  exact ⟨ho, (Text.hexByte_append_inj (by simp) (by simp) hrest).1⟩

theorem endingLine_injective (h : (endingLine e).toList = (endingLine e').toList) : e = e' := by
  cases e <;> cases e'
  case finished.finished => rfl
  case unknown.unknown =>
    obtain ⟨rfl, rfl⟩ := endingLine_unknown_inj h
    rfl
  case truncated.truncated =>
    rw [toList_endingLine_truncated, toList_endingLine_truncated] at h
    obtain ⟨rfl, -⟩ := offsetText_append_inj h
    rfl
  case undelimited.undelimited =>
    obtain ⟨rfl, rfl⟩ := numbered_inj (by decide) (String.toList_injective h)
    rfl
  case unknown.finished | truncated.finished | undelimited.finished =>
    exact absurd h (endingLine_ne_nil (by simp))
  case finished.unknown | finished.truncated | finished.undelimited =>
    exact absurd h.symm (endingLine_ne_nil (by simp))
  case unknown.truncated => exact absurd h endingLine_unknown_ne_truncated
  case truncated.unknown => exact absurd h.symm endingLine_unknown_ne_truncated
  case unknown.undelimited =>
    exact absurd h (endingLine_ne_undelimited (toList_endingLine_unknown _ _))
  case undelimited.unknown =>
    exact absurd h.symm (endingLine_ne_undelimited (toList_endingLine_unknown _ _))
  case truncated.undelimited =>
    exact absurd h (endingLine_ne_undelimited (toList_endingLine_truncated _))
  case undelimited.truncated =>
    exact absurd h.symm (endingLine_ne_undelimited (toList_endingLine_truncated _))

/-! ## Whole listings -/

theorem toList_text (l : Listing) : l.text.toList =
    l.items.flatMap (fun item => (itemLine item).toList) ++ (endingLine l.ending).toList := by
  rw [text, String.toList_append, String.toList_join, List.flatMap_map]

/-- No two listings have the same text. -/
theorem text_injective (h : l.text = l'.text) : l = l' := by
  have hlines := congrArg String.toList h
  rw [toList_text, toList_text] at hlines
  obtain ⟨hitems, hending⟩ := prefixFree_itemLine.flatMap_append_inj
    (fun item rest => itemLine_append_ne_endingLine item _ rest)
    (fun item rest => itemLine_append_ne_endingLine item _ rest) hlines
  obtain ⟨items, ending⟩ := l
  exact congr (congrArg Listing.mk hitems) (endingLine_injective hending)

/-- An ending has one line if it is an error or a stop, and otherwise none. -/
theorem exists_lines_endingLine (e : Ending) :
    ∃ lines : List String, endingLine e = String.join (lines.map (· ++ "\n")) ∧
      (∀ line ∈ lines, Text.InLine line) ∧
      lines.length = e.isError.toNat + e.isStop.toNat := by
  cases e with
  | finished => exact ⟨[], rfl, List.forall_mem_nil _, rfl⟩
  | unknown o byte =>
    refine ⟨[offsetText o ++ "  <halt " ++ Text.hexByte byte ++ ">"], ?_, ?_, rfl⟩
    · simp [endingLine, String.append_assoc]
    · exact List.forall_mem_singleton.mpr
        (.append (.append (.append (Text.inLine_decimal 4 o) (by decide)) (Text.inLine_hexByte byte))
          (by decide))
  | truncated o =>
    refine ⟨[offsetText o ++ "  <truncated>"], ?_, ?_, rfl⟩
    · simp [endingLine, String.append_assoc]
    · exact List.forall_mem_singleton.mpr (.append (Text.inLine_decimal 4 o) (by decide))
  | undelimited o found =>
    refine ⟨["error: " ++ (Error.undelimitedKey o found).message], ?_, ?_, rfl⟩
    · simp [endingLine]
    · refine List.forall_mem_singleton.mpr (.append (by decide) (.append (.append (.append
        (by decide +kernel) ?_) (by decide +kernel)) (Text.inLine_hexByte found)))
      rw [← Text.decimal_zero]
      exact Text.inLine_decimal 0 o

/-- **Listings are faithful.** Whatever bytes a program is made of, the text of its listing is a row of
lines, one for each instruction or error that is listed and one more just if the listing stops before
the program ends. And two programs with the same text have the same listing: the same instructions at
the same offsets, and the same ending. -/
theorem text_faithful (program : List UInt8) :
    let l := ofProgram program
    (∃ lines : List String, l.text = String.join (lines.map (· ++ "\n")) ∧
      (∀ line ∈ lines, Text.InLine line) ∧
      lines.length = (l.items.length + l.ending.isError.toNat) + l.ending.isStop.toNat) ∧
    ∀ other, l.text = (ofProgram other).text ↔ l = ofProgram other := by
  intro l
  refine ⟨?_, fun other => ⟨text_injective, fun h => congrArg text h⟩⟩
  obtain ⟨lines, hending, hin, hlength⟩ := exists_lines_endingLine l.ending
  let itemText (item : Nat × Instruction String) : String :=
    offsetText item.1 ++ "  " ++ item.2.text
  refine ⟨l.items.map itemText ++ lines, ?_, ?_, ?_⟩
  · rw [text, hending, List.map_append, List.map_map, String.join_append]
    rfl
  · refine List.forall_mem_append.mpr ⟨List.forall_mem_map.mpr fun item _ => ?_, hin⟩
    exact .append (.append (Text.inLine_decimal 4 item.1) (by decide)) item.2.inLine_text
  · rw [List.length_append, List.length_map, hlength, Nat.add_assoc]

end Listing

end TreeCode
