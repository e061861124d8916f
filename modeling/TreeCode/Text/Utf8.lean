/-!
# UTF-8

`utf8 s` is the bytes of a text, and `ofUtf8 bytes` reads bytes back as text. Reading never
fails: each maximal run of bytes that starts a character but cannot finish it, and each byte that
starts none, reads as one replacement character. A `State` says what the character being read
still owes: how many bytes, the range the next one must lie in, and the bits read so far. A text is
read back from its bytes (`ofUtf8_utf8`), and bytes that are UTF-8 are got back from the text that they
spell (`utf8_ofUtf8`).
-/

namespace TreeCode.Text

def utf8 (s : String) : List UInt8 := s.toList.flatMap String.utf8EncodeChar

theorem utf8_append (s t : String) : utf8 (s ++ t) = utf8 s ++ utf8 t := by
  simp [utf8]

namespace Utf8

/-- What stands for bytes that are no character. -/
def replacement : Char := '\uFFFD'

/-- Where a reader stands between two bytes. -/
inductive State where
  /-- Between characters. -/
  | start
  /-- Inside a character: `more` bytes are owed after the next one, which must lie between `low`
  and `high`; `bits` is the number spelt so far. -/
  | owing (more low high bits : Nat)
  deriving DecidableEq, Repr

/-- Reads a first byte: the characters it completes, and what it leaves owing. -/
def lead (b : UInt8) : List Char × State :=
  let n := b.toNat
  if n < 0x80 then ([Char.ofNat n], .start)
  else if 0xC2 ≤ n ∧ n ≤ 0xDF then ([], .owing 0 0x80 0xBF (n - 0xC0))
  else if n = 0xE0 then ([], .owing 1 0xA0 0xBF 0)
  else if n = 0xED then ([], .owing 1 0x80 0x9F 0xD)
  else if 0xE1 ≤ n ∧ n ≤ 0xEF then ([], .owing 1 0x80 0xBF (n - 0xE0))
  else if n = 0xF0 then ([], .owing 2 0x90 0xBF 0)
  else if 0xF1 ≤ n ∧ n ≤ 0xF3 then ([], .owing 2 0x80 0xBF (n - 0xF0))
  else if n = 0xF4 then ([], .owing 2 0x80 0x8F 4)
  else ([replacement], .start)

/-- Reads one byte. A byte that an unfinished character cannot take ends that character as a
replacement and is read again as a first byte. -/
def feed : State → UInt8 → List Char × State
  | .start, b => lead b
  | .owing more low high bits, b =>
    if low ≤ b.toNat ∧ b.toNat ≤ high then
      let bits := bits * 64 + (b.toNat - 0x80)
      match more with
      | 0 => ([Char.ofNat bits], .start)
      | more + 1 => ([], .owing more 0x80 0xBF bits)
    else
      let (chars, state) := lead b
      (replacement :: chars, state)

/-- The characters that bytes spell from a state on. -/
def scan : State → List UInt8 → List Char
  | .start, [] => []
  | .owing .., [] => [replacement]
  | state, b :: rest => (feed state b).1 ++ scan (feed state b).2 rest

@[simp] theorem scan_start_nil : scan .start [] = [] := rfl

theorem scan_cons (state : State) (b : UInt8) (rest : List UInt8) :
    scan state (b :: rest) = (feed state b).1 ++ scan (feed state b).2 rest := by
  cases state <;> rfl

/-! ## What is written is read back -/

/-- A byte that a character takes and that is not its last. -/
theorem scan_owing_succ {more low high bits n : Nat} (hl : low ≤ n) (hh : n ≤ high) (hn : n < 256)
    (rest : List UInt8) :
    scan (.owing (more + 1) low high bits) (UInt8.ofNat n :: rest) =
      scan (.owing more 0x80 0xBF (bits * 64 + (n - 0x80))) rest := by
  rw [scan_cons, feed, UInt8.toNat_ofNat_of_lt' hn, if_pos ⟨hl, hh⟩]
  rfl

/-- The last byte of a character. -/
theorem scan_owing_zero {low high bits n : Nat} (hl : low ≤ n) (hh : n ≤ high) (hn : n < 256)
    (rest : List UInt8) :
    scan (.owing 0 low high bits) (UInt8.ofNat n :: rest) =
      Char.ofNat (bits * 64 + (n - 0x80)) :: scan .start rest := by
  rw [scan_cons, feed, UInt8.toNat_ofNat_of_lt' hn, if_pos ⟨hl, hh⟩]
  rfl

/-- A first byte that leaves bytes owing. -/
theorem scan_start_ofNat (state : State) {n : Nat} (hn : n < 256)
    (h : ∀ b : UInt8, b.toNat = n → lead b = ([], state)) (rest : List UInt8) :
    scan .start (UInt8.ofNat n :: rest) = scan state rest := by
  rw [scan_cons, feed, h _ (UInt8.toNat_ofNat_of_lt' hn)]
  rfl

theorem scan_utf8EncodeChar (c : Char) (rest : List UInt8) :
    scan .start (String.utf8EncodeChar c ++ rest) = c :: scan .start rest := by
  have hc : Char.ofNat c.val.toNat = c := Char.ofNat_toNat c
  have hv : c.val.toNat < 0xD800 ∨ (0xDFFF < c.val.toNat ∧ c.val.toNat < 0x110000) := c.valid
  simp only [String.utf8EncodeChar]
  generalize c.val.toNat = v at hc hv
  split
  · rw [List.singleton_append, scan_cons, feed, lead, UInt8.toNat_ofNat_of_lt' (show v < 256 by omega),
      if_pos (by omega), hc]
    rfl
  split
  · simp only [List.cons_append, List.nil_append]
    rw [scan_start_ofNat (.owing 0 0x80 0xBF (v / 64)) (by omega) ?_,
      scan_owing_zero (by omega) (by omega) (by omega)]
    · rw [show v / 64 * 64 + (v % 64 + 128 - 128) = v by omega, hc]
    · intro b hb
      simp only [lead, hb]
      grind
  split
  · simp only [List.cons_append, List.nil_append]
    rw [scan_start_ofNat (.owing 1 (if v / 4096 = 0 then 0xA0 else 0x80)
        (if v / 4096 = 0xD then 0x9F else 0xBF) (v / 4096)) (by omega) ?_,
      scan_owing_succ (by split <;> omega) (by split <;> omega) (by omega),
      scan_owing_zero (by omega) (by omega) (by omega)]
    · rw [show (v / 4096 * 64 + (v / 64 % 64 + 128 - 128)) * 64 + (v % 64 + 128 - 128) = v by omega,
        hc]
    · intro b hb
      simp only [lead, hb]
      grind
  · simp only [List.cons_append, List.nil_append]
    rw [scan_start_ofNat (.owing 2 (if v / 262144 = 0 then 0x90 else 0x80)
        (if v / 262144 = 4 then 0x8F else 0xBF) (v / 262144)) (by omega) ?_,
      scan_owing_succ (by split <;> omega) (by split <;> omega) (by omega),
      scan_owing_succ (by omega) (by omega) (by omega),
      scan_owing_zero (by omega) (by omega) (by omega)]
    · rw [show ((v / 262144 * 64 + (v / 4096 % 64 + 128 - 128)) * 64 +
          (v / 64 % 64 + 128 - 128)) * 64 + (v % 64 + 128 - 128) = v by omega, hc]
    · intro b hb
      simp only [lead, hb]
      grind

theorem scan_utf8 (cs : List Char) : scan .start (cs.flatMap String.utf8EncodeChar) = cs := by
  induction cs with
  | nil => rfl
  | cons c cs ih => rw [List.flatMap_cons, scan_utf8EncodeChar, ih]

end Utf8

def ofUtf8 (bytes : List UInt8) : String := String.ofList (Utf8.scan .start bytes)

@[simp] theorem ofUtf8_utf8 (s : String) : ofUtf8 (utf8 s) = s := by
  rw [ofUtf8, utf8, Utf8.scan_utf8, String.ofList_toList]

theorem utf8_ofUtf8 {bytes : List UInt8} (h : bytes.toByteArray.IsValidUTF8) :
    utf8 (ofUtf8 bytes) = bytes := by
  obtain ⟨cs, hcs⟩ := h
  have hbytes : bytes = cs.flatMap String.utf8EncodeChar := List.toByteArray_inj.mp hcs
  rw [ofUtf8, hbytes, Utf8.scan_utf8, utf8, String.toList_ofList]

end TreeCode.Text
