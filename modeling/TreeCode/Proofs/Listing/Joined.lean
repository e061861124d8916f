import TreeCode.Draft
import TreeCode.Proofs.Listing

/-!
# Listings of programs that are joined

What stands at an offset depends only on the bytes from there on
(`Instruction.readAt_append_right`), so a listing moves with its program: every offset in it does,
where it ends too (`Listing.ofBytes_shift`). Behind a program that is listed to its end comes the
listing of what follows, moved by its length, and programs that all come to their end are listed one
behind the other when they are merged (`Listing.joined`).
-/

namespace TreeCode

/-- What stands at an offset, in a program that has `k` more bytes in front. -/
def Instruction.shiftReading (k : Nat) : Except Error Reading → Except Error Reading
  | .ok (.complete i next) => .ok (.complete i (k + next))
  | .error (.undelimitedKey offset found) => .error (.undelimitedKey (k + offset) found)
  | reading => reading

theorem Instruction.readAt_append_right (p q : List UInt8) (offset : Nat) :
    readAt (p ++ q) (p.length + offset) = shiftReading p.length (readAt q offset) := by
  rw [readAt, readAt, List.drop_append, List.drop_eq_nil_of_le (Nat.le_add_right ..),
    Nat.add_sub_cancel_left, List.nil_append]
  cases q.drop offset with
  | nil => rfl
  | cons b rest =>
    simp only
    cases read (b :: rest) with
    | complete i width => simp only [Verdict.at, shiftReading, Nat.add_assoc]
    | truncated | unknown | undelimited => rfl

def Ending.shift (k : Nat) : Ending → Ending
  | finished => finished
  | unknown offset byte => unknown (k + offset) byte
  | truncated offset => truncated (k + offset)
  | undelimited offset found => undelimited (k + offset) found

namespace Listing

def shift (k : Nat) (l : Listing) : Listing :=
  ⟨l.items.map fun (offset, i) => (k + offset, i), l.ending.shift k⟩

def followedBy (l l' : Listing) : Listing := ⟨l.items ++ l'.items, l'.ending⟩

/-- The instructions of programs that stand one behind the other from an offset on. -/
def inSequence (offset : Nat) : List (List UInt8) → List (Nat × Instruction String)
  | [] => []
  | program :: rest =>
    ((ofProgram program).shift offset).items ++ inSequence (offset + program.length) rest

theorem ofBytes_shift (k offset : Nat) (bytes : List UInt8) :
    ofBytes (k + offset) bytes = (ofBytes offset bytes).shift k := by
  induction offset, bytes using ofBytes_induction with
  | finished offset =>
    rw [ofBytes_nil, ofBytes_nil]
    rfl
  | complete offset bytes raw width hr ih =>
    rw [ofBytes_of_complete hr, ofBytes_of_complete hr, Nat.add_assoc, ih]
    rfl
  | truncated offset bytes hne hr =>
    rw [ofBytes_of_truncated hne hr, ofBytes_of_truncated hne hr]
    rfl
  | unknown offset bytes byte hr =>
    rw [ofBytes_of_unknown hr, ofBytes_of_unknown hr]
    rfl
  | undelimited offset bytes found hr =>
    rw [ofBytes_of_undelimited hr, ofBytes_of_undelimited hr]
    rfl

theorem ofProgram_append {p : List UInt8} (h : (ofProgram p).ending = .finished)
    (q : List UInt8) :
    ofProgram (p ++ q) = (ofProgram p).followedBy ((ofProgram q).shift p.length) := by
  have hq := ofBytes_shift p.length 0 q
  rw [ofProgram, ofBytes_append h q, Nat.zero_add, ofProgram, ofProgram, ← hq]
  rfl

theorem ofBytes_flatten {programs : List (List UInt8)}
    (h : ∀ p ∈ programs, (ofProgram p).ending = .finished) (offset : Nat) :
    ofBytes offset programs.flatten = ⟨inSequence offset programs, .finished⟩ := by
  induction programs generalizing offset with
  | nil => exact ofBytes_nil offset
  | cons p rest ih =>
    rw [List.forall_mem_cons] at h
    have hp : ofBytes offset p = (ofProgram p).shift offset := ofBytes_shift offset 0 p
    have hfinished : (ofBytes offset p).ending = .finished := by
      rw [hp, shift, h.1]
      rfl
    rw [List.flatten_cons, ofBytes_append hfinished, ih h.2, hp]
    rfl

/-- **Listing is compositional.** What stands at an offset is the same behind any program, but for
the offsets in it. Behind a program that is listed to its end, what follows is listed as it is
alone, every offset moved by the length of the program, that of an attribute without its delimiter
and that of a stop too. Programs that are all listed to their end are listed one behind the other
when they are merged, to the end. -/
theorem joined :
    (∀ (p q : List UInt8) (offset : Nat),
      Instruction.readAt (p ++ q) (p.length + offset) =
        Instruction.shiftReading p.length (Instruction.readAt q offset)) ∧
    (∀ p q : List UInt8, (ofProgram p).ending = .finished →
      (ofProgram (p ++ q)).items = (ofProgram p).items ++ ((ofProgram q).shift p.length).items ∧
      (ofProgram (p ++ q)).ending = (ofProgram q).ending.shift p.length) ∧
    ∀ programs : List (List UInt8), (∀ p ∈ programs, (ofProgram p).ending = .finished) →
      ofProgram (Draft.merge programs).bytes = ⟨inSequence 0 programs, .finished⟩ := by
  refine ⟨Instruction.readAt_append_right, fun p q h => ?_, fun programs h => ?_⟩
  · rw [ofProgram_append h]
    exact ⟨rfl, rfl⟩
  · exact ofBytes_flatten h 0

/-- An attribute whose key field leaves no room for a delimiter, behind a text and its appending.
The same text twice with a program of no bytes between is listed twice. -/
theorem joined_undelimited :
    let p : List UInt8 := [6, 1, 97, 3]
    let q : List UInt8 := [3, 2, 0, 11]
    let items : List (Nat × Instruction String) := [(0, .textNode "a"), (3, .appendChild)]
    (ofProgram p).ending = .finished ∧
      ofProgram (p ++ q) = ⟨items ++ [(4, .appendChild)], .undelimited 5 0⟩ ∧
      ofProgram (Draft.merge [p, [], p]).bytes =
        ⟨items ++ [(4, .textNode "a"), (7, .appendChild)], .finished⟩ := by
  intro p q items
  have htext : Instruction.read p = .complete (.textNode [97]) 3 := rfl
  have hlast : Instruction.read [3] = .complete .appendChild 1 := rfl
  have hfirst : Instruction.read q = .complete .appendChild 1 := rfl
  have hkey : Instruction.read [2, 0, 11] = .undelimited 0 := rfl
  have hp : ofProgram p = ⟨items, .finished⟩ := by
    rw [ofProgram, ofBytes_of_complete htext]
    change cons 0 _ (ofBytes 3 [3]) = _
    rw [ofBytes_of_complete hlast]
    change cons 0 _ (cons 3 _ (ofBytes 4 [])) = _
    rw [ofBytes_nil]
    rfl
  have hempty : ofProgram [] = ⟨[], .finished⟩ := ofBytes_nil 0
  have hq : ofProgram q = ⟨[(0, .appendChild)], .undelimited 1 0⟩ := by
    rw [ofProgram, ofBytes_of_complete hfirst]
    change cons 0 _ (ofBytes 1 [2, 0, 11]) = _
    rw [ofBytes_of_undelimited hkey]
    rfl
  have hfinished : (ofProgram p).ending = .finished := by rw [hp]
  obtain ⟨-, happend, hmerge⟩ := joined
  obtain ⟨hitems, hending⟩ := happend p q hfinished
  refine ⟨hfinished, ?_, ?_⟩
  · rw [hp, hq] at hitems
    rw [hq] at hending
    calc ofProgram (p ++ q)
      _ = ⟨(ofProgram (p ++ q)).items, (ofProgram (p ++ q)).ending⟩ := rfl
      _ = ⟨items ++ [(4, .appendChild)], .undelimited 5 0⟩ := by
          rw [hitems, hending]
          rfl
  · rw [hmerge [p, [], p] (by simp [hp, hempty])]
    simp only [inSequence, hp, hempty]
    rfl

end Listing

end TreeCode
