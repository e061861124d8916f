import Mathlib.Data.List.TakeWhile

/-!
# Where a written text ends

Two things written in the same way and followed by anything are the same if the whole is the same, as
soon as one can tell where each of them ends. A `PrefixFree` code tells by itself. Things written one
after the other end where no further one can start (`flatMap_append_inj`), and a stretch of characters
of one kind ends at the first of another (`append_inj_of_all`).
-/

namespace TreeCode.Text

variable {α : Type} {code : α → List Char} {front front' back back' : List Char}

/-- What is written can be told from what follows it. -/
def PrefixFree (code : α → List Char) : Prop :=
  ∀ a b back back', code a ++ back = code b ++ back' → a = b ∧ back = back'

/-- What can be read back from the front of any text is told from what follows it. -/
theorem PrefixFree.of_read {read : List Char → Option (α × List Char)}
    (h : ∀ a back, read (code a ++ back) = some (a, back)) : PrefixFree code := by
  intro a b back back' heq
  have hread := h a back
  rw [heq, h] at hread
  cases hread
  exact ⟨rfl, rfl⟩

/-- Things in a row, each told from what follows it, and at the end what starts like none of them. -/
theorem flatMap_append_inj {as bs : List α}
    (h : ∀ a ∈ as, ∀ b ∈ bs, ∀ rest rest', code a ++ rest = code b ++ rest' → a = b ∧ rest = rest')
    (hback : ∀ b ∈ bs, ∀ rest, code b ++ rest ≠ back)
    (hback' : ∀ a ∈ as, ∀ rest, code a ++ rest ≠ back')
    (heq : as.flatMap code ++ back = bs.flatMap code ++ back') : as = bs ∧ back = back' := by
  induction as generalizing bs with
  | nil =>
    cases bs with
    | nil => exact ⟨rfl, heq⟩
    | cons b bs =>
      rw [List.flatMap_cons, List.append_assoc] at heq
      exact absurd heq.symm (hback b List.mem_cons_self _)
  | cons a as ih =>
    rw [List.flatMap_cons, List.append_assoc] at heq
    cases bs with
    | nil => exact absurd heq (hback' a List.mem_cons_self _)
    | cons b bs =>
      rw [List.flatMap_cons, List.append_assoc] at heq
      obtain ⟨rfl, hrest⟩ := h a List.mem_cons_self b List.mem_cons_self _ _ heq
      obtain ⟨rfl, hend⟩ := ih
        (fun x hx y hy => h x (List.mem_cons_of_mem _ hx) y (List.mem_cons_of_mem _ hy))
        (fun y hy => hback y (List.mem_cons_of_mem _ hy))
        (fun x hx => hback' x (List.mem_cons_of_mem _ hx)) hrest
      exact ⟨rfl, hend⟩

theorem PrefixFree.flatMap_append_inj (h : PrefixFree code) {as bs : List α}
    (hback : ∀ a rest, code a ++ rest ≠ back) (hback' : ∀ a rest, code a ++ rest ≠ back')
    (heq : as.flatMap code ++ back = bs.flatMap code ++ back') : as = bs ∧ back = back' :=
  Text.flatMap_append_inj (fun a _ b _ => h a b) (fun a _ => hback a) (fun a _ => hback' a) heq

/-- Stretches of characters of one kind, followed by nothing or by a character of another kind. -/
theorem append_inj_of_all {p : Char → Bool} (hfront : ∀ c ∈ front, p c) (hfront' : ∀ c ∈ front', p c)
    (hback : ∀ c ∈ back.head?, p c = false) (hback' : ∀ c ∈ back'.head?, p c = false)
    (heq : front ++ back = front' ++ back') : front = front' ∧ back = back' := by
  have htake (tail : List Char) (htail : ∀ c ∈ tail.head?, p c = false) :
      tail.takeWhile p = [] := by
    cases tail with
    | nil => rfl
    | cons c rest => rw [List.takeWhile_cons_of_neg (by simp [htail c rfl])]
  have hwhole := congrArg (List.takeWhile p) heq
  rw [List.takeWhile_append_of_pos hfront, List.takeWhile_append_of_pos hfront', htake _ hback,
    htake _ hback', List.append_nil, List.append_nil] at hwhole
  subst hwhole
  exact ⟨rfl, List.append_cancel_left heq⟩

end TreeCode.Text
