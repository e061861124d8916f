import TreeCode.Proofs.Listing
import TreeCode.Proofs.Patch
import TreeCode.Proofs.Widths

/-!
# The records of a patch

The walk of a patch moves through two programs by widths that it takes from their length bytes, and
never knows whether it stands before an instruction. Between programs whose opcodes are the same as
far as both go, it always does: its records are those of the instructions with texts, pair by pair
(`records_of_patch`).
-/

namespace TreeCode

/-- An instruction of a program: where it starts, how many bytes it takes, and its opcode. -/
structure Stretch where
  offset : Nat
  length : Nat
  opcode : Opcode
  deriving DecidableEq, Repr

namespace Listing

/-- Where the first of some instructions starts, or the end of the program behind them. -/
def start (stop : Nat) : List (Nat × Instruction String) → Nat
  | [] => stop
  | item :: _ => item.1

/-- The stretches of the instructions of a program that ends at `stop`. Each takes the bytes up to
the next. -/
def stretches (stop : Nat) : List (Nat × Instruction String) → List Stretch
  | [] => []
  | item :: rest => ⟨item.1, start stop rest - item.1, item.2.opcode⟩ :: stretches stop rest

def opcodes (l : Listing) : List Opcode := l.items.map (·.2.opcode)

variable {bytes : List UInt8} {offset : Nat}

theorem start_ofBytes (h : (ofBytes offset bytes).ending = .finished) :
    start (offset + bytes.length) (ofBytes offset bytes).items = offset := by
  cases offset, bytes, h using finished_induction with
  | nil offset =>
    rw [ofBytes_nil]
    rfl
  | complete offset bytes raw width h hr =>
    rw [ofBytes_of_complete hr]
    rfl

theorem opcodes_of_complete {raw : Instruction (List UInt8)} {width : Nat}
    (hr : Instruction.read bytes = .complete raw width) :
    (ofBytes offset bytes).opcodes =
      raw.opcode :: (ofBytes (offset + width) (bytes.drop width)).opcodes := by
  rw [ofBytes_of_complete hr]
  show raw.ofBytes.opcode :: _ = _
  rw [Instruction.ofBytes, Instruction.opcode_map]
  rfl

theorem stretches_of_complete {raw : Instruction (List UInt8)} {width : Nat}
    (hr : Instruction.read bytes = .complete raw width)
    (h : (ofBytes offset bytes).ending = .finished) :
    stretches (offset + bytes.length) (ofBytes offset bytes).items =
      ⟨offset, width, raw.opcode⟩ ::
        stretches (offset + width + (bytes.drop width).length)
          (ofBytes (offset + width) (bytes.drop width)).items := by
  have hw := Instruction.read_width hr
  have hstop : offset + bytes.length = offset + width + (bytes.drop width).length := by
    rw [List.length_drop]
    omega
  rw [ofBytes_of_complete hr, hstop]
  show ⟨offset, start _ _ - offset, raw.ofBytes.opcode⟩ :: stretches _ _ = _
  rw [start_ofBytes (finished_of_complete hr h), Nat.add_sub_cancel_left, Instruction.ofBytes,
    Instruction.opcode_map]

theorem eq_nil_or_complete (h : (ofBytes offset bytes).ending = .finished) :
    bytes = [] ∨ ∃ raw width, Instruction.read bytes = .complete raw width := by
  cases offset, bytes, h using finished_induction with
  | nil offset => exact .inl rfl
  | complete offset bytes raw width h hr => exact .inr ⟨raw, width, hr⟩

end Listing

namespace Instruction

theorem exists_layout_eq (i : Instruction (List UInt8)) :
    ∃ operands, i.layout = i.opcode.byte :: operands ∧
      (i.opcode.carriesText = false → operands = []) := by
  cases i with
  | createElement | setAttribute | textNode | eventListener => exact ⟨_, rfl, nofun⟩
  | _ => exact ⟨[], rfl, fun _ => rfl⟩

/-- Bytes that start with an instruction start with its opcode; without texts it takes no more. -/
theorem exists_opcode_of_complete {bytes : List UInt8} {i : Instruction (List UInt8)} {width : Nat}
    (h : read bytes = .complete i width) :
    ∃ rest, bytes = i.opcode.byte :: rest ∧ (i.opcode.carriesText = false → width = 1) := by
  obtain ⟨-, ⟨more, rfl⟩, rfl⟩ := read_eq_complete_iff.mp h
  obtain ⟨operands, hlayout, hplain⟩ := i.exists_layout_eq
  rw [hlayout]
  refine ⟨operands ++ more, rfl, fun htext => ?_⟩
  rw [hplain htext]
  rfl

end Instruction

namespace Patch

def place (new : Stretch) : String := new.opcode.mnemonic ++ " at " ++ Nat.repr new.offset ++ ": "

/-- The record of an instruction of the new program that is taken over for one of the old. -/
def report (old new : Stretch) : Record where
  level := .trace
  target := "bytedom::patch"
  message :=
    if old.length = new.length then place new ++ "same width, replaced in place"
    else place new ++
      ("width " ++ Nat.repr (old.length - 1) ++ " -> " ++ Nat.repr (new.length - 1))

/-- The records of the instructions with texts, pair by pair. -/
def reports (old new : List Stretch) : List Record :=
  ((old.zip new).filter (·.2.opcode.carriesText)).map fun pair => report pair.1 pair.2

/-- What a record says of the widths can be told from its text. -/
theorem message_report_eq_iff (o n : Stretch) :
    (report o n).message = place n ++ "same width, replaced in place" ↔ o.length = n.length := by
  by_cases h : o.length = n.length
  · simp [report, h]
  · have hne (s : String) : "width " ++ s ≠ "same width, replaced in place" := by
      intro heq
      have hlist := congrArg (·.toList.head?) heq
      simp at hlist
    simp [report, h, String.append_assoc, hne]

theorem reports_nil_right (old : List Stretch) : reports old [] = [] := by
  rw [reports, List.zip_nil_right, List.filter_nil, List.map_nil]

theorem reports_cons (o n : Stretch) (old new : List Stretch) :
    reports (o :: old) (n :: new) =
      (if n.opcode.carriesText then [report o n] else []) ++ reports old new := by
  rw [reports, List.zip_cons_cons, List.filter_cons]
  cases n.opcode.carriesText <;> rfl

/-- Of two lists of opcodes one is the start of the other. -/
def Alike (old new : List Opcode) : Prop := old <+: new ∨ new <+: old

theorem Alike.of_cons {o n : Opcode} {old new : List Opcode} (h : Alike (o :: old) (n :: new)) :
    o = n ∧ Alike old new := by
  rcases h with h | h
  · rw [List.cons_prefix_cons] at h
    exact ⟨h.1, .inl h.2⟩
  · rw [List.cons_prefix_cons] at h
    exact ⟨h.1.symm, .inr h.2⟩

theorem width_of_complete {bytes : List UInt8} {i : Instruction (List UInt8)} {n : Nat}
    (h : Instruction.read bytes = .complete i n) : width bytes = n - 1 := by
  rw [width, Instruction.inlineWidth_of_complete h]
  rfl

theorem takenOver_eq_report {o n : Stretch} (ho : 0 < o.length) (hn : 0 < n.length) :
    takenOver n.opcode n.offset (o.length - 1) (n.length - 1) = report o n := by
  have hwidths : o.length - 1 = n.length - 1 ↔ o.length = n.length := by omega
  simp only [takenOver, report, place, hwidths, target, String.append_assoc]

variable {old new : List UInt8} {offset : Nat}

/-- Both cursors stand before instructions with one opcode. Then the walk comes to stand behind
both, and leaves a record if there are texts. -/
theorem snd_walk_of_complete (oldOffset : Nat) {o n : Instruction (List UInt8)}
    {oldWidth newWidth : Nat} (ho : Instruction.read old = .complete o oldWidth)
    (hn : Instruction.read new = .complete n newWidth) (hop : o.opcode = n.opcode) :
    (walk offset old new).2 =
      (if n.opcode.carriesText then
        [report ⟨oldOffset, oldWidth, o.opcode⟩ ⟨offset, newWidth, n.opcode⟩] else []) ++
      (walk (offset + newWidth) (old.drop oldWidth) (new.drop newWidth)).2 := by
  have hoPos := (Instruction.read_width ho).1
  have hnPos := (Instruction.read_width hn).1
  have hoWidth := width_of_complete ho
  have hnWidth := width_of_complete hn
  obtain ⟨oldRest, rfl, hoPlain⟩ := Instruction.exists_opcode_of_complete ho
  obtain ⟨newRest, rfl, hnPlain⟩ := Instruction.exists_opcode_of_complete hn
  rw [hop] at hoWidth hoPlain ⊢
  obtain ⟨oldWidth, rfl⟩ : ∃ k, oldWidth = k + 1 := ⟨oldWidth - 1, by omega⟩
  obtain ⟨newWidth, rfl⟩ : ∃ k, newWidth = k + 1 := ⟨newWidth - 1, by omega⟩
  cases htext : n.opcode.carriesText with
  | true =>
    have hfilter : (Opcode.ofByte? n.opcode.byte).filter Opcode.carriesText = some n.opcode := by
      simp [htext]
    have hrecord := takenOver_eq_report (o := ⟨oldOffset, oldWidth + 1, n.opcode⟩)
      (n := ⟨offset, newWidth + 1, n.opcode⟩) hoPos hnPos
    rw [walk_of_text hfilter, hoWidth, hnWidth, show offset + (newWidth + 1) =
      offset + 1 + newWidth by omega]
    exact congrArg (· :: _) hrecord
  | false =>
    have hfilter : (Opcode.ofByte? n.opcode.byte).filter Opcode.carriesText = none := by
      simp [htext]
    obtain rfl : oldWidth = 0 := Nat.succ.inj (hoPlain htext)
    obtain rfl : newWidth = 0 := Nat.succ.inj (hnPlain htext)
    rw [walk_of_no_text hfilter]
    rfl

/-- Along two programs with the same opcodes the walk leaves the records of their stretches. -/
theorem snd_walk {oldOffset : Nat} (hold : (Listing.ofBytes oldOffset old).ending = .finished)
    (hnew : (Listing.ofBytes offset new).ending = .finished)
    (h : Alike (Listing.ofBytes oldOffset old).opcodes (Listing.ofBytes offset new).opcodes) :
    (walk offset old new).2 =
      reports (Listing.stretches (oldOffset + old.length) (Listing.ofBytes oldOffset old).items)
        (Listing.stretches (offset + new.length) (Listing.ofBytes offset new).items) := by
  induction offset, new, hnew using Listing.finished_induction generalizing oldOffset old with
  | nil offset =>
    rw [Listing.ofBytes_nil, Listing.stretches, reports_nil_right]
    cases old <;> rw [walk]
  | complete offset new n newWidth hnew hn ih =>
    rcases Listing.eq_nil_or_complete hold with rfl | ⟨o, oldWidth, ho⟩
    · rw [walk, Listing.ofBytes_nil]
      rfl
    · rw [Listing.opcodes_of_complete ho, Listing.opcodes_of_complete hn] at h
      obtain ⟨hop, hrest⟩ := h.of_cons
      rw [snd_walk_of_complete oldOffset ho hn hop,
        ih (Listing.finished_of_complete ho hold) hrest,
        Listing.stretches_of_complete ho hold, Listing.stretches_of_complete hn hnew, reports_cons]

/-- A program is walked beside itself in equal steps, whatever its bytes are. -/
theorem message_of_walk_self {r : Record} (hr : r ∈ (walk offset new new).2) :
    ∃ n, r.message = place n ++ "same width, replaced in place" := by
  induction hlength : new.length using Nat.strongRecOn generalizing offset new with
  | _ length ih =>
    cases new with
    | nil =>
      rw [walk] at hr
      cases hr
    | cons b rest =>
      cases hop : (Opcode.ofByte? b).filter Opcode.carriesText with
      | some op =>
        rw [walk_of_text hop] at hr
        rcases List.mem_cons.mp hr with rfl | hr
        · exact ⟨⟨offset, 0, op⟩, by simp [takenOver, place]⟩
        · refine ih _ ?_ hr rfl
          rw [← hlength, List.length_drop, List.length_cons]
          omega
      | none =>
        rw [walk_of_no_text hop] at hr
        refine ih _ ?_ hr rfl
        rw [← hlength, List.length_cons]
        omega

/-- **The cursors of a patch stay on instructions.** Two programs list to their ends, and the opcodes
of one are the start of the opcodes of the other, whatever their operands are. Then the records of
the patch are those of the instructions with texts that the new program has in common with the old,
one for each, in order. Each names the opcode of its instruction and where the instruction is listed
in the new program. It says that the widths are the same just where both instructions take as many
bytes, and else how many bytes the operands of each take. No program patched with itself, of whatever
bytes, reports a change of width. -/
theorem records_of_patch (hold : (Listing.ofProgram old).ending = .finished)
    (hnew : (Listing.ofProgram new).ending = .finished)
    (h : Alike (Listing.ofProgram old).opcodes (Listing.ofProgram new).opcodes) :
    (patch old new).2 =
      reports (Listing.stretches old.length (Listing.ofProgram old).items)
        (Listing.stretches new.length (Listing.ofProgram new).items) ∧
    (∀ o n, (report o n).message = place n ++ "same width, replaced in place" ↔
      o.length = n.length) ∧
    (∀ program, ∀ r ∈ (patch program program).2,
      ∃ n, r.message = place n ++ "same width, replaced in place") := by
  refine ⟨?_, message_report_eq_iff, fun program r => message_of_walk_self⟩
  have hwalk := snd_walk hold hnew h
  rw [Nat.zero_add, Nat.zero_add] at hwalk
  exact hwalk

/-- A text gets longer, so the cursors drift, and a tag keeps its width; what follows is new. -/
theorem records_of_patch_drift :
    let old : List UInt8 := [6, 1, 97, 1, 1, 112, 3]
    let new : List UInt8 := [6, 3, 97, 98, 99, 1, 1, 98, 3, 12]
    (Listing.ofProgram old).ending = .finished ∧ (Listing.ofProgram new).ending = .finished ∧
      Alike (Listing.ofProgram old).opcodes (Listing.ofProgram new).opcodes ∧
      (patch old new).2.map (·.message) =
        ["TEXT_NODE at 0: width 2 -> 4", "CREATE_ELEMENT at 5: same width, replaced in place"] := by
  intro old new
  have hold : Listing.ofProgram [6, 1, 97, 1, 1, 112, 3] =
      ⟨[(0, .textNode "a"), (3, .createElement "p"), (6, .appendChild)], .finished⟩ := by decide +kernel
  have hnew : Listing.ofProgram [6, 3, 97, 98, 99, 1, 1, 98, 3, 12] =
      ⟨[(0, .textNode "abc"), (5, .createElement "b"), (8, .appendChild), (9, .appendSibling)],
        .finished⟩ := by decide +kernel
  have holdEnd : (Listing.ofProgram old).ending = .finished := congrArg Listing.ending hold
  have hnewEnd : (Listing.ofProgram new).ending = .finished := congrArg Listing.ending hnew
  have halike : Alike (Listing.ofProgram old).opcodes (Listing.ofProgram new).opcodes := by
    rw [Listing.opcodes, Listing.opcodes, hold, hnew]
    exact .inl (by decide)
  refine ⟨holdEnd, hnewEnd, halike, ?_⟩
  rw [(records_of_patch holdEnd hnewEnd halike).1, hold, hnew]
  decide +kernel

end Patch

end TreeCode
