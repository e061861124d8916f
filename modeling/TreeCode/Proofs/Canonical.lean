import TreeCode.Proofs.Grammar
import TreeCode.Proofs.Written

/-!
# Canonical programs

A program that lists to its end is code words one after the other (`Spelled`). Its texts are read
with replacements where they are not UTF-8, and an instruction with a blank tag or an event without
a name can be read but not written. Where none of this is the case the program is `Canonical`: the
instructions it lists can be written, and what is written is the program again
(`Canonical.emitAll_items`).
-/

namespace TreeCode

namespace Instruction

def texts {τ : Type} : Instruction τ → List τ
  | createElement tag => [tag]
  | setAttribute key value => [key, value]
  | textNode text => [text]
  | eventListener event _ => [event]
  | _ => []

theorem map_eq_self {τ : Type} {f : τ → τ} {i : Instruction τ}
    (h : ∀ text ∈ i.texts, f text = text) : i.map f = i := by
  cases i <;> simp_all [texts, map]

theorem toBytes_ofBytes {raw : Instruction (List UInt8)}
    (h : ∀ text ∈ raw.texts, text.toByteArray.IsValidUTF8) : raw.ofBytes.toBytes = raw := by
  rw [ofBytes, toBytes, map_map]
  exact map_eq_self fun text htext => Text.utf8_ofUtf8 (h text htext)

/-- A code word of UTF-8 texts is what writing the instruction gives, if it is named. -/
theorem CodeWord.encode_ofBytes {raw : Instruction (List UInt8)} {word : List UInt8}
    (h : CodeWord raw word) (hutf8 : ∀ text ∈ raw.texts, text.toByteArray.IsValidUTF8)
    (hnamed : raw.ofBytes.Named) : raw.ofBytes.encode = .ok word := by
  obtain ⟨hfits, rfl⟩ := codeWord_iff.mp h
  rw [encode_eq_ok_iff, check_eq_ok_iff, toBytes_ofBytes hutf8]
  exact ⟨⟨hfits, hnamed⟩, rfl⟩

end Instruction

open Instruction (CodeWord)

/-- The bytes are the code words of some instructions, one after the other. -/
inductive Spelled : List (Instruction (List UInt8)) → List UInt8 → Prop where
  | nil : Spelled [] []
  | cons {raw : Instruction (List UInt8)} {raws : List (Instruction (List UInt8))}
      {word rest : List UInt8} : CodeWord raw word → Spelled raws rest →
      Spelled (raw :: raws) (word ++ rest)

namespace Spelled

variable {raws : List (Instruction (List UInt8))} {bytes : List UInt8}

theorem listing (h : Spelled raws bytes) (offset : Nat) :
    (Listing.ofBytes offset bytes).items.map (·.2) = raws.map Instruction.ofBytes ∧
      (Listing.ofBytes offset bytes).ending = .finished := by
  induction h generalizing offset with
  | nil => simp
  | @cons raw raws word rest hword _ ih =>
    rw [Listing.ofBytes_of_complete (hword.read_append rest), List.drop_left]
    obtain ⟨hitems, hending⟩ := ih (offset + word.length)
    refine ⟨?_, hending⟩
    simp only [Listing.cons, List.map_cons, hitems]

theorem exists_of_finished {offset : Nat} (h : (Listing.ofBytes offset bytes).ending = .finished) :
    ∃ raws, Spelled raws bytes := by
  induction offset, bytes, h using Listing.finished_induction with
  | nil offset => exact ⟨[], .nil⟩
  | complete offset bytes raw width h hr ih =>
    obtain ⟨raws, hraws⟩ := ih
    obtain ⟨word, hword, ⟨rest, rfl⟩, rfl⟩ := Instruction.read_eq_complete_iff_codeWord.mp hr
    rw [List.drop_left] at hraws
    exact ⟨raw :: raws, .cons hword hraws⟩

theorem unique {raws' : List (Instruction (List UInt8))} (h : Spelled raws bytes)
    (h' : Spelled raws' bytes) : raws = raws' := by
  induction h generalizing raws' with
  | nil =>
    generalize hbytes : ([] : List UInt8) = bytes at h'
    cases h' with
    | nil => rfl
    | cons hword _ => exact absurd (List.append_eq_nil_iff.mp hbytes.symm).1 hword.ne_nil
  | @cons raw raws word rest hword _ ih =>
    generalize hbytes : word ++ rest = bytes at h'
    cases h' with
    | nil => exact absurd (List.append_eq_nil_iff.mp hbytes).1 hword.ne_nil
    | @cons raw' raws' word' rest' hword' hrest' =>
      obtain ⟨rfl, rfl⟩ := hword.eq_of_prefix hword' ⟨rest, hbytes⟩ (List.prefix_append ..)
      rw [ih (List.append_cancel_left hbytes ▸ hrest')]

theorem written (h : Spelled raws bytes)
    (hutf8 : ∀ raw ∈ raws, ∀ text ∈ raw.texts, text.toByteArray.IsValidUTF8)
    (hnamed : ∀ raw ∈ raws, raw.ofBytes.Named) :
    Written (raws.map Instruction.ofBytes) bytes := by
  induction h with
  | nil => exact .nil
  | cons hword _ ih =>
    rw [List.forall_mem_cons] at hutf8 hnamed
    exact .cons (hword.encode_ofBytes hutf8.1 hnamed.1) (ih hutf8.2 hnamed.2)

end Spelled

/-- The program lists to its end, its texts are UTF-8, and its tags and events are named. -/
structure Canonical (program : List UInt8) : Prop where
  finished : (Listing.ofProgram program).ending = .finished
  utf8 : ∀ raws, Spelled raws program → ∀ raw ∈ raws, ∀ text ∈ raw.texts,
    text.toByteArray.IsValidUTF8
  named : ∀ item ∈ (Listing.ofProgram program).items, item.2.Named

namespace Canonical

variable {program other : List UInt8}

theorem of_spelled {raws : List (Instruction (List UInt8))} (h : Spelled raws program)
    (hutf8 : ∀ raw ∈ raws, ∀ text ∈ raw.texts, text.toByteArray.IsValidUTF8)
    (hnamed : ∀ raw ∈ raws, raw.ofBytes.Named) : Canonical program where
  finished := (h.listing 0).2
  utf8 raws' h' := h.unique h' ▸ hutf8
  named item hitem := by
    have hmem : item.2 ∈ raws.map Instruction.ofBytes := (h.listing 0).1 ▸ List.mem_map_of_mem hitem
    obtain ⟨raw, hraw, heq⟩ := List.mem_map.mp hmem
    exact heq ▸ hnamed raw hraw

theorem written (h : Canonical program) :
    Written ((Listing.ofProgram program).items.map (·.2)) program := by
  obtain ⟨raws, hraws⟩ := Spelled.exists_of_finished h.finished
  have hitems : (Listing.ofProgram program).items.map (·.2) = raws.map Instruction.ofBytes :=
    (hraws.listing 0).1
  rw [hitems]
  refine hraws.written (h.utf8 raws hraws) fun raw hraw => ?_
  have hmem : raw.ofBytes ∈ (Listing.ofProgram program).items.map (·.2) :=
    hitems ▸ List.mem_map_of_mem hraw
  obtain ⟨item, hitem, heq⟩ := List.mem_map.mp hmem
  exact heq ▸ h.named item hitem

/-- **A canonical program is written from what it lists.** Its instructions, written one by one to
an empty draft, are all accepted, each starts where it was listed, and the draft is the program. So
it is the only canonical program with these instructions. -/
theorem emitAll_items (h : Canonical program) :
    Draft.emitAll ((Listing.ofProgram program).items.map (·.2)) {} =
        .ok (Listing.ofProgram program).items { bytes := program } ∧
      ∀ other, Canonical other →
        (Listing.ofProgram other).items.map (·.2) = (Listing.ofProgram program).items.map (·.2) →
        other = program := by
  refine ⟨Draft.emitAll_of_written h.written rfl, fun other hother heq => ?_⟩
  have hwritten := hother.written
  rw [heq] at hwritten
  exact hwritten.unique h.written

/-- A key that holds the delimiter, and a text of two bytes for one character. -/
theorem emitAll_items_delimiter_in_key :
    let program : List UInt8 := [1, 1, 112, 2, 2, 11, 11, 0, 6, 2, 195, 169, 3]
    Canonical program ∧
      (Listing.ofProgram program).items.map (·.2) =
        [.createElement "p", .setAttribute "\x0b" "", .textNode "é", .appendChild] ∧
      Draft.emitAll ((Listing.ofProgram program).items.map (·.2)) {} =
        .ok (Listing.ofProgram program).items { bytes := program } := by
  intro program
  have hspelled : Spelled [.createElement [112], .setAttribute [11] [], .textNode [195, 169],
      .appendChild] program :=
    .cons (.createElement rfl) (.cons (.setAttribute rfl rfl) (.cons (.textNode rfl)
      (.cons .appendChild .nil)))
  have hcanonical : Canonical program := by
    refine .of_spelled hspelled ?_ ?_
    · simp only [List.forall_mem_cons, Instruction.texts]
      exact ⟨⟨⟨['p'], rfl⟩, by simp⟩, ⟨⟨['\x0b'], rfl⟩, ⟨[], rfl⟩, by simp⟩, ⟨⟨['é'], rfl⟩, by simp⟩,
        by simp, by simp⟩
    · simp only [List.forall_mem_cons]
      have hp : Text.isBlank (Text.ofUtf8 [112]) = false := by decide +kernel
      exact ⟨hp, trivial, trivial, trivial, by simp⟩
  exact ⟨hcanonical, (hspelled.listing 0).1, hcanonical.emitAll_items.1⟩

end Canonical

end TreeCode
