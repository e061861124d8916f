import TreeCode.Proofs.Text.Numeral
import TreeCode.Text.Quoted

/-!
# Quoted texts can be read back

A backslash starts every escape and the quote is always escaped, so a quoted text ends at the first
quote that stands alone, and no two texts are quoted alike (`prefixFree_quote`). A quoted text stays on
one line (`inLine_quote`).
-/

namespace TreeCode.Text

/-! ## Reading back -/

/-- Takes one character off a text between quotes. -/
def unquoteChar : List Char → Option (Char × List Char)
  | '\\' :: '0' :: back => some ('\x00', back)
  | '\\' :: 't' :: back => some ('\t', back)
  | '\\' :: 'n' :: back => some ('\n', back)
  | '\\' :: 'r' :: back => some ('\r', back)
  | '\\' :: 'u' :: '\x7b' :: back =>
    some (Char.ofNat (valueIn 16 (back.takeWhile Char.isAlphanum)),
      (back.dropWhile Char.isAlphanum).tail)
  | '\\' :: c :: back => some (c, back)
  | c :: back => some (c, back)
  | [] => none

theorem unquoteChar_hex (c : Char) (back : List Char) :
    unquoteChar ('\\' :: 'u' :: '\x7b' :: ((hex c.toNat).toList ++ '\x7d' :: back)) =
      some (c, back) := by
  have hdigits : ∀ x ∈ Nat.toDigits 16 c.toNat, x.isAlphanum := fun _ hx =>
    isAlphanum_of_mem_toDigits (by decide) (by decide) hx
  have hbrace : ¬ '\x7d'.isAlphanum = true := by decide
  rw [hex, String.toList_ofList, unquoteChar, List.takeWhile_append_of_pos hdigits,
    List.dropWhile_append_of_pos hdigits, List.takeWhile_cons_of_neg hbrace,
    List.dropWhile_cons_of_neg hbrace, List.append_nil, valueIn_toDigits (by decide) (by decide),
    Char.ofNat_toNat]
  rfl

theorem unquoteChar_quoteChar (c : Char) (back : List Char) :
    unquoteChar (quoteChar c ++ back) = some (c, back) := by
  unfold quoteChar
  split_ifs with h h h h h h
  iterate 6
    · subst h
      rfl
  · rw [List.singleton_append]
    unfold unquoteChar
    split <;> simp_all
  · rw [List.append_assoc, List.append_assoc]
    exact unquoteChar_hex c back

theorem prefixFree_quoteChar : PrefixFree quoteChar := .of_read unquoteChar_quoteChar

theorem quoteChar_append_ne_quote (c : Char) (rest back : List Char) :
    quoteChar c ++ rest ≠ '\"' :: back := by
  unfold quoteChar
  split_ifs <;> simp_all

/-- No two texts are quoted alike, whatever follows them. -/
theorem prefixFree_quote : PrefixFree fun s => (quote s).toList := by
  intro s s' back back' heq
  simp only [quote, String.toList_ofList, List.cons_append, List.append_assoc, List.nil_append,
    List.cons.injEq, true_and] at heq
  obtain ⟨hsame, hrest⟩ := prefixFree_quoteChar.flatMap_append_inj
    (fun c rest => quoteChar_append_ne_quote c rest _)
    (fun c rest => quoteChar_append_ne_quote c rest _) heq
  exact ⟨String.toList_injective hsame, List.tail_eq_of_cons_eq hrest⟩

/-! ## On one line -/

/-- Nothing in a text ends a line. -/
def InLine (s : String) : Prop := ∀ c ∈ s.toList, c ≠ '\n' ∧ c ≠ '\r'

-- The list is gone through, not all characters there are.
instance (s : String) : Decidable (InLine s) :=
  List.decidableBAll (fun c => c ≠ '\n' ∧ c ≠ '\r') s.toList

theorem InLine.append {s s' : String} (h : InLine s) (h' : InLine s') : InLine (s ++ s') := by
  unfold InLine
  rw [String.toList_append]
  exact List.forall_mem_append.mpr ⟨h, h'⟩

theorem inLine_of_isAlphanum {s : String} (h : ∀ c ∈ s.toList, c.isAlphanum) : InLine s := by
  refine fun c hc => ⟨?_, ?_⟩ <;> rintro rfl <;> exact absurd (h _ hc) (by decide)

theorem inLine_decimal (width n : Nat) : InLine (decimal width n) :=
  inLine_of_isAlphanum isAlphanum_of_mem_decimal

theorem inLine_hexByte (b : UInt8) : InLine (hexByte b) :=
  .append (by decide) (inLine_of_isAlphanum (isAlphanum_of_mem_numeral (by decide) (by decide)))

theorem inLine_hex (n : Nat) : InLine (hex n) := by
  refine inLine_of_isAlphanum fun c hc => ?_
  rw [hex, String.toList_ofList] at hc
  exact isAlphanum_of_mem_toDigits (by decide) (by decide) hc

theorem inLine_quoteChar (c : Char) : ∀ x ∈ quoteChar c, x ≠ '\n' ∧ x ≠ '\r' := by
  unfold quoteChar
  split_ifs with h h hn hr h h h
  case pos | pos | pos | pos | pos | pos => simp
  · simpa using ⟨hn, hr⟩
  · exact List.forall_mem_append.mpr
      ⟨List.forall_mem_append.mpr ⟨by simp, inLine_hex c.toNat⟩, by simp⟩

theorem inLine_quote (s : String) : InLine (quote s) := by
  unfold InLine quote
  rw [String.toList_ofList]
  refine List.forall_mem_append.mpr
    ⟨List.forall_mem_cons.mpr ⟨by decide, fun x hx => ?_⟩, by simp⟩
  obtain ⟨c, -, hx⟩ := List.mem_flatMap.mp hx
  exact inLine_quoteChar c x hx

end TreeCode.Text
