import TreeCode.Draft
import TreeCode.Proofs.Listing
import TreeCode.Proofs.Reading

/-!
# Written programs

`Written` ties instructions to their bytes. `Draft.emitAll` writes instructions one by one at the
end of a draft and notes where each starts: it adds the bytes to which `Written` ties them
(`Draft.exists_written_of_emitAll`), and what it notes is what those bytes list. So a program lists
as what was written (`Draft.listing_emitAll`).
-/

namespace TreeCode

/-! ## Instructions and their bytes -/

/-- Instructions written one after the other. -/
inductive Written : List (Instruction String) → List UInt8 → Prop where
  | nil : Written [] []
  | cons {i : Instruction String} {rest : List (Instruction String)} {front back : List UInt8} :
      i.encode = .ok front → Written rest back → Written (i :: rest) (front ++ back)

namespace Written

variable {is js : List (Instruction String)} {bytes more : List UInt8}

theorem single {i : Instruction String} (h : i.encode = .ok bytes) : Written [i] bytes := by
  have hw := cons h nil
  rwa [List.append_nil] at hw

theorem append (h : Written is bytes) (h' : Written js more) :
    Written (is ++ js) (bytes ++ more) := by
  induction h with
  | nil => exact h'
  | cons hi _ ih =>
    rw [List.append_assoc]
    exact cons hi ih

theorem eq_nil_iff (h : Written is bytes) : bytes = [] ↔ is = [] := by
  cases h with
  | nil => exact ⟨fun _ => rfl, fun _ => rfl⟩
  | cons hi _ =>
    obtain ⟨-, rfl⟩ := Instruction.encode_eq_ok_iff.mp hi
    simp [Instruction.layout_ne_nil]

theorem unique (h : Written is bytes) (h' : Written is more) : bytes = more := by
  induction h generalizing more with
  | nil =>
    cases h'
    rfl
  | cons hi _ ih =>
    cases h' with
    | cons hi' hrest' =>
      obtain rfl := Except.ok.inj (hi.symm.trans hi')
      rw [ih hrest']

theorem listing (h : Written is bytes) (offset : Nat) :
    (Listing.ofBytes offset bytes).items.map (·.2) = is ∧
      (Listing.ofBytes offset bytes).ending = .finished := by
  induction h generalizing offset with
  | nil => simp
  | @cons i rest front back hi _ ih =>
    rw [Listing.ofBytes_of_encode hi]
    obtain ⟨hitems, hending⟩ := ih (offset + front.length)
    refine ⟨?_, hending⟩
    simp only [Listing.cons, List.map_cons, hitems]

end Written

namespace Draft

variable {is : List (Instruction String)} {d d' : Draft}

/-! ## Writing at the end of a draft -/

theorem write_eq_ok_iff {bytes : List UInt8} :
    write bytes d = .ok () d' ↔ d.locked = false ∧ d' = { d with bytes := d.bytes ++ bytes } := by
  unfold write edit
  cases d.locked with
  | false => simp [eq_comm]
  | true => simp

theorem emit_eq_ok_iff {i : Instruction String} :
    emit i d = .ok () d' ↔ ∃ bytes, i.encode = .ok bytes ∧ write bytes d = .ok () d' := by
  unfold emit
  cases i.encode with
  | error e =>
    refine ⟨fun h => ?_, fun ⟨bytes, h, _⟩ => ?_⟩
    · cases h
    · cases h
  | ok bytes => simp

/-- Writes instructions one after the other at the end of a draft, and gives each with the length
of the draft before it. -/
def emitAll : List (Instruction String) → Write (List (Nat × Instruction String))
  | [] => pure []
  | i :: rest => do
    let start := (← get).bytes.length
    emit i
    return (start, i) :: (← emitAll rest)

theorem emitAll_cons_eq_ok_iff {i : Instruction String} {items : List (Nat × Instruction String)} :
    emitAll (i :: is) d = .ok items d' ↔
      ∃ d₁ rest, emit i d = .ok () d₁ ∧ emitAll is d₁ = .ok rest d' ∧
        items = (d.bytes.length, i) :: rest := by
  change EStateM.bind (emit i) (fun _ => EStateM.bind (emitAll is) fun rest =>
    pure ((d.bytes.length, i) :: rest)) d = .ok items d' ↔ _
  unfold EStateM.bind
  cases emit i d with
  | error e d₁ =>
    refine ⟨fun h => ?_, fun ⟨_, _, h, _⟩ => ?_⟩
    · cases h
    · cases h
  | ok u d₁ =>
    cases hrest : emitAll is d₁ with
    | error e d₂ =>
      simp only [hrest]
      refine ⟨fun h => ?_, fun ⟨_, _, h, h', _⟩ => ?_⟩
      · cases h
      · cases h
        cases hrest.symm.trans h'
    | ok rest d₂ =>
      simp only [hrest]
      constructor
      · intro h
        cases h
        exact ⟨d₁, rest, rfl, hrest, rfl⟩
      · rintro ⟨_, _, h, h', rfl⟩
        cases h
        cases hrest.symm.trans h'
        rfl

/-- What is added is what `Written` ties to the instructions, and what is noted is what it lists. -/
theorem exists_written_of_emitAll {items : List (Nat × Instruction String)}
    (h : emitAll is d = .ok items d') :
    ∃ bytes, Written is bytes ∧ d' = { d with bytes := d.bytes ++ bytes } ∧
      items = (Listing.ofBytes d.bytes.length bytes).items := by
  induction is generalizing d items with
  | nil =>
    cases h
    exact ⟨[], .nil, by rw [List.append_nil], by rw [Listing.ofBytes_nil]⟩
  | cons i is ih =>
    obtain ⟨d₁, rest, hi, hrest, rfl⟩ := emitAll_cons_eq_ok_iff.mp h
    obtain ⟨front, hfront, hw⟩ := emit_eq_ok_iff.mp hi
    obtain ⟨-, rfl⟩ := write_eq_ok_iff.mp hw
    obtain ⟨back, hback, rfl, rfl⟩ := ih hrest
    refine ⟨front ++ back, .cons hfront hback, by rw [List.append_assoc], ?_⟩
    rw [Listing.ofBytes_of_encode hfront, List.length_append]
    rfl

/-- And what `Written` ties to the instructions can be added, to a draft that is not locked. -/
theorem emitAll_of_written {bytes : List UInt8} (h : Written is bytes) (hd : d.locked = false) :
    emitAll is d = .ok (Listing.ofBytes d.bytes.length bytes).items
      { d with bytes := d.bytes ++ bytes } := by
  induction h generalizing d with
  | nil =>
    rw [Listing.ofBytes_nil, List.append_nil]
    rfl
  | @cons i is front back hfront _ ih =>
    have hfirst : emit i d = .ok () { d with bytes := d.bytes ++ front } :=
      emit_eq_ok_iff.mpr ⟨front, hfront, write_eq_ok_iff.mpr ⟨hd, rfl⟩⟩
    have hrest := ih (d := { d with bytes := d.bytes ++ front }) hd
    rw [List.append_assoc] at hrest
    refine emitAll_cons_eq_ok_iff.mpr ⟨_, _, hfirst, hrest, ?_⟩
    rw [Listing.ofBytes_of_encode hfront, List.length_append]
    rfl

/-- **What was written is listed.** Instructions were written one by one to an empty draft, whatever
their texts. Its bytes list as these instructions, each at the length the draft had before it, up
to the end of the program. -/
theorem listing_emitAll {items : List (Nat × Instruction String)}
    (h : emitAll is {} = .ok items d) :
    items.map (·.2) = is ∧ Listing.ofProgram d.bytes = ⟨items, .finished⟩ := by
  obtain ⟨bytes, hbytes, rfl, rfl⟩ := exists_written_of_emitAll h
  obtain ⟨hitems, hending⟩ := hbytes.listing 0
  exact ⟨hitems, congrArg (Listing.mk (Listing.ofBytes 0 bytes).items) hending⟩

/-- The texts are empty, look like instructions or delimiters, or are no ASCII. -/
theorem listing_emitAll_misleading :
    let is : List (Instruction String) := [.createElement "p", .setAttribute "" "\x0b\x01",
      .eventListener "\x0a" 3, .textNode "é", .style, .appendChild]
    let items : List (Nat × Instruction String) := [(0, .createElement "p"),
      (3, .setAttribute "" "\x0b\x01"), (9, .eventListener "\x0a" 3), (13, .textNode "é"),
      (17, .style), (18, .appendChild)]
    let bytes : List UInt8 := [1, 1, 112, 2, 1, 11, 2, 11, 1, 10, 1, 10, 3, 6, 2, 195, 169, 9, 3]
    emitAll is {} = .ok items ⟨bytes, false⟩ ∧ Listing.ofProgram bytes = ⟨items, .finished⟩ := by
  intro is items bytes
  have h : emitAll is {} = .ok items ⟨bytes, false⟩ := rfl
  exact ⟨h, (listing_emitAll h).2⟩

end Draft

end TreeCode
