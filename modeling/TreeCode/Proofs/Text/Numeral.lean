import TreeCode.Proofs.Text.Delimited
import TreeCode.Text.Numeral

/-!
# Numerals can be read back

`valueIn` reads the digits of a numeral. Zeros on the left do not matter to it, so a padded number is
found again (`valueIn_zeroPad`); and as digits are letters or decimals, a numeral ends where neither
follows (`numeral_append_inj`).
-/

namespace TreeCode.Text

variable {base n n' width : Nat} {back back' : List Char}

def digitValue (c : Char) : Nat :=
  if c.isDigit then c.toNat - '0'.toNat else c.toNat - 'a'.toNat + 10

/-- The number that digits stand for, the first of them counting most. -/
def valueIn (base : Nat) (digits : List Char) : Nat :=
  digits.foldl (fun value c => base * value + digitValue c) 0

theorem digitValue_digitChar {d : Nat} (h : d < 16) : digitValue d.digitChar = d := by
  revert d
  decide

theorem isAlphanum_digitChar {d : Nat} (h : d < 16) : d.digitChar.isAlphanum := by
  revert d
  decide

section

variable (hbase : 1 < base) (hle : base ≤ 16)

include hbase hle

theorem valueIn_toDigits (n : Nat) : valueIn base (Nat.toDigits base n) = n := by
  induction n using Nat.strong_induction_on with
  | _ n ih =>
    rw [Nat.toDigits_eq_if hbase]
    split
    · rename_i hlt
      exact (Nat.zero_add _).trans (digitValue_digitChar (Nat.lt_of_lt_of_le hlt hle))
    · rename_i hge
      have hmod : n % base < 16 := Nat.lt_of_lt_of_le (Nat.mod_lt n (by omega)) hle
      have hdiv : n / base < n := Nat.div_lt_self (by omega) hbase
      rw [valueIn, List.foldl_append, ← valueIn, ih _ hdiv]
      simp only [List.foldl_cons, List.foldl_nil, digitValue_digitChar hmod]
      exact Nat.div_add_mod n base

theorem isAlphanum_of_mem_toDigits {c : Char} (h : c ∈ Nat.toDigits base n) : c.isAlphanum := by
  induction n using Nat.strong_induction_on with
  | _ n ih =>
    rw [Nat.toDigits_eq_if hbase] at h
    split at h
    · rename_i hlt
      rw [List.mem_singleton.mp h]
      exact isAlphanum_digitChar (Nat.lt_of_lt_of_le hlt hle)
    · rcases List.mem_append.mp h with h | h
      · exact ih _ (Nat.div_lt_self (by omega) hbase) h
      · rw [List.mem_singleton.mp h]
        exact isAlphanum_digitChar (Nat.lt_of_lt_of_le (Nat.mod_lt n (by omega)) hle)

end

theorem valueIn_zeroPad (base width : Nat) (s : String) :
    valueIn base (zeroPad width s).toList = valueIn base s.toList := by
  have hzeros (k : Nat) : (List.replicate k '0').foldl
      (fun value c => base * value + digitValue c) 0 = 0 := by
    induction k with
    | zero => rfl
    | succ k ih => simpa [List.replicate_succ, digitValue] using ih
  simp only [zeroPad, String.toList_append, String.toList_ofList, valueIn, List.foldl_append, hzeros]

theorem isAlphanum_of_mem_zeroPad {s : String} (hs : ∀ c ∈ s.toList, c.isAlphanum) {c : Char}
    (h : c ∈ (zeroPad width s).toList) : c.isAlphanum := by
  rw [zeroPad, String.toList_append, String.toList_ofList] at h
  rcases List.mem_append.mp h with h | h
  · rw [List.eq_of_mem_replicate h]
    decide
  · exact hs c h

theorem isAlphanum_of_mem_numeral (hbase : 1 < base) (hle : base ≤ 16) :
    ∀ c ∈ (zeroPad width (String.ofList (Nat.toDigits base n))).toList, c.isAlphanum := by
  refine fun c hc => isAlphanum_of_mem_zeroPad (fun c hc => ?_) hc
  rw [String.toList_ofList] at hc
  exact isAlphanum_of_mem_toDigits hbase hle hc

theorem isAlphanum_of_mem_decimal : ∀ c ∈ (decimal width n).toList, c.isAlphanum := by
  rw [decimal, Nat.repr_eq_ofList_toDigits]
  exact isAlphanum_of_mem_numeral (by decide) (by decide)

/-- Padded numerals of one base, each followed by nothing or by what is neither a letter nor a
decimal digit. -/
theorem numeral_append_inj (hbase : 1 < base) (hle : base ≤ 16)
    (hback : ∀ c ∈ back.head?, c.isAlphanum = false)
    (hback' : ∀ c ∈ back'.head?, c.isAlphanum = false)
    (heq : (zeroPad width (String.ofList (Nat.toDigits base n))).toList ++ back =
      (zeroPad width (String.ofList (Nat.toDigits base n'))).toList ++ back') :
    n = n' ∧ back = back' := by
  obtain ⟨hsame, hrest⟩ := append_inj_of_all (isAlphanum_of_mem_numeral hbase hle)
    (isAlphanum_of_mem_numeral hbase hle) hback hback' heq
  have hvalue := congrArg (valueIn base) hsame
  rw [valueIn_zeroPad, valueIn_zeroPad, String.toList_ofList, String.toList_ofList,
    valueIn_toDigits hbase hle, valueIn_toDigits hbase hle] at hvalue
  exact ⟨hvalue, hrest⟩

theorem decimal_append_inj (hback : ∀ c ∈ back.head?, c.isAlphanum = false)
    (hback' : ∀ c ∈ back'.head?, c.isAlphanum = false)
    (heq : (decimal width n).toList ++ back = (decimal width n').toList ++ back') :
    n = n' ∧ back = back' := by
  rw [decimal, decimal, Nat.repr_eq_ofList_toDigits, Nat.repr_eq_ofList_toDigits] at heq
  exact numeral_append_inj (by decide) (by decide) hback hback' heq

theorem decimal_zero (n : Nat) : decimal 0 n = Nat.repr n := by
  simp [decimal, zeroPad]

theorem hexByte_append_inj {b b' : UInt8} (hback : ∀ c ∈ back.head?, c.isAlphanum = false)
    (hback' : ∀ c ∈ back'.head?, c.isAlphanum = false)
    (heq : (hexByte b).toList ++ back = (hexByte b').toList ++ back') : b = b' ∧ back = back' := by
  rw [hexByte, hexByte, String.toList_append, String.toList_append, List.append_assoc,
    List.append_assoc] at heq
  obtain ⟨hvalue, hrest⟩ := numeral_append_inj (by decide) (by decide) hback hback'
    (List.append_cancel_left heq)
  exact ⟨UInt8.toNat_inj.mp hvalue, hrest⟩

end TreeCode.Text
