import TreeCode.Patch
import TreeCode.Machine.Run

/-!
# A patch is the new program

The walk of a patch as a loop with one cursor in each program: `round` is one turn of it, and a
chain of turns (`Rounds`) ends where no turn is left. Each turn moves the cursor in the new program
and writes what it passed, so what is written is always the new program up to that cursor, however
far the cursor in the old program has drifted (`out_round`). A cursor that is moved past the end
stands for the end.
-/

namespace TreeCode.Patch

/-- Where the loop stands in both programs, and what it has written and left so far. -/
structure Cursors where
  old : Nat := 0
  new : Nat := 0
  out : List UInt8 := []
  log : List Record := []

/-- One turn of the loop, if both cursors stand before a byte. -/
def round (old new : List UInt8) (c : Cursors) : Option Cursors :=
  match old[c.old]?, new[c.new]? with
  | some o, some n =>
    if o ≠ n then some { c with new := c.new + 1, out := c.out ++ [n] }
    else match (Opcode.ofByte? n).filter Opcode.carriesText with
      | some op =>
        let oldWidth := width (old.drop c.old)
        let newWidth := width (new.drop c.new)
        some {
          old := c.old + 1 + oldWidth
          new := c.new + 1 + newWidth
          out := c.out ++ n :: (new.drop (c.new + 1)).take newWidth
          log := c.log ++ [takenOver op c.new oldWidth newWidth] }
      | none => some { c with old := c.old + 1, new := c.new + 1, out := c.out ++ [n] }
  | _, _ => none

/-- The loop comes from some cursors to others in so many turns. -/
inductive Rounds (old new : List UInt8) : Nat → Cursors → Cursors → Prop where
  | refl (c : Cursors) : Rounds old new 0 c c
  | step {k : Nat} {c c' c'' : Cursors} : round old new c = some c' → Rounds old new k c' c'' →
      Rounds old new (k + 1) c c''

variable {old new : List UInt8} {c c' : Cursors}

theorem drop_eq_cons_of_getElem? {l : List UInt8} {i : Nat} {b : UInt8} (h : l[i]? = some b) :
    l.drop i = b :: l.drop (i + 1) := by
  obtain ⟨hi, rfl⟩ := List.getElem?_eq_some_iff.mp h
  exact List.drop_eq_getElem_cons hi

/-! ## One turn -/

/-- What a turn can do: it starts before a byte of the new program, moves past that byte and
`width` more, and writes as many of them as there are. -/
theorem exists_width_of_round (h : round old new c = some c') :
    ∃ n width, new[c.new]? = some n ∧ c'.new = c.new + 1 + width ∧
      c'.out = c.out ++ n :: (new.drop (c.new + 1)).take width := by
  unfold round at h
  split at h
  · rename_i o n ho hn
    split at h
    · cases h
      exact ⟨n, 0, hn, rfl, by simp⟩
    · split at h
      · cases h
        exact ⟨n, _, hn, rfl, rfl⟩
      · cases h
        exact ⟨n, 0, hn, rfl, by simp⟩
  · cases h

theorem out_round (h : round old new c = some c') (hc : c.out = new.take c.new) :
    c'.out = new.take c'.new := by
  obtain ⟨n, width, hn, hnew, hout⟩ := exists_width_of_round h
  rw [hout, hnew, hc, Nat.add_assoc, List.take_add, drop_eq_cons_of_getElem? hn, Nat.add_comm 1,
    List.take_succ_cons]

theorem new_lt_round (h : round old new c = some c') : c.new < c'.new ∧ c.new < new.length := by
  obtain ⟨n, width, hn, hnew, -⟩ := exists_width_of_round h
  obtain ⟨hlt, -⟩ := List.getElem?_eq_some_iff.mp hn
  omega

theorem walk_of_ne {o n : UInt8} (h : o ≠ n) (offset : Nat) (old new : List UInt8) :
    walk offset (o :: old) (n :: new) =
      (n :: (walk (offset + 1) (o :: old) new).1, (walk (offset + 1) (o :: old) new).2) := by
  rw [walk, if_pos h]

theorem walk_of_text {n : UInt8} {op : Opcode}
    (h : (Opcode.ofByte? n).filter Opcode.carriesText = some op) (offset : Nat)
    (old new : List UInt8) :
    walk offset (n :: old) (n :: new) =
      let oldWidth := width (n :: old)
      let newWidth := width (n :: new)
      let rest := walk (offset + 1 + newWidth) (old.drop oldWidth) (new.drop newWidth)
      (n :: new.take newWidth ++ rest.1, takenOver op offset oldWidth newWidth :: rest.2) := by
  rw [walk, if_neg (not_not_intro rfl), h]

theorem walk_of_no_text {n : UInt8} (h : (Opcode.ofByte? n).filter Opcode.carriesText = none)
    (offset : Nat) (old new : List UInt8) :
    walk offset (n :: old) (n :: new) =
      (n :: (walk (offset + 1) old new).1, (walk (offset + 1) old new).2) := by
  rw [walk, if_neg (not_not_intro rfl), h]

theorem fst_walk (offset : Nat) (old new : List UInt8) : (walk offset old new).1 = new := by
  fun_induction walk offset old new with
  | case1 => rfl
  | case2 => rfl
  | case3 offset o old n new hne out log hrest ih =>
    rw [hrest] at ih
    exact congrArg (n :: ·) ih
  | case4 offset o old n new heq op hop oldWidth newWidth out log hrest ih =>
    rw [hrest] at ih
    obtain rfl : out = new.drop newWidth := ih
    exact congrArg (n :: ·) (List.take_append_drop newWidth new)
  | case5 offset o old n new heq hop out log hrest ih =>
    rw [hrest] at ih
    exact congrArg (n :: ·) ih

/-- The walk from behind a turn is what the turn left to do. -/
theorem walk_round (h : round old new c = some c') :
    (c.out ++ (walk c.new (old.drop c.old) (new.drop c.new)).1,
        c.log ++ (walk c.new (old.drop c.old) (new.drop c.new)).2) =
      (c'.out ++ (walk c'.new (old.drop c'.old) (new.drop c'.new)).1,
        c'.log ++ (walk c'.new (old.drop c'.old) (new.drop c'.new)).2) := by
  unfold round at h
  split at h
  · rename_i o n ho hn
    have hold := drop_eq_cons_of_getElem? ho
    have hnew := drop_eq_cons_of_getElem? hn
    split at h
    · rename_i hne
      cases h
      rw [hnew, hold, walk_of_ne hne, ← hold]
      simp
    · rename_i heq
      obtain rfl : o = n := Decidable.not_not.mp heq
      split at h
      · rename_i op hop
        cases h
        rw [hnew, hold, walk_of_text hop, ← hold, ← hnew]
        simp [List.drop_drop]
      · rename_i hop
        cases h
        rw [hnew, hold, walk_of_no_text hop]
        simp
  · cases h

theorem walk_of_round_eq_none (h : round old new c = none) :
    walk c.new (old.drop c.old) (new.drop c.new) = (new.drop c.new, []) := by
  unfold round at h
  split at h
  · split at h
    · cases h
    · split at h <;> cases h
  · rename_i hnone
    cases ho : old.drop c.old with
    | nil => rw [walk]
    | cons o old' =>
      cases hn : new.drop c.new with
      | nil => rw [walk]
      | cons n new' =>
        have ho' : old[c.old]? = some o := by rw [← List.head?_drop, ho]; rfl
        have hn' : new[c.new]? = some n := by rw [← List.head?_drop, hn]; rfl
        exact absurd hn' (hnone o n ho')

/-! ## The loop -/

theorem out_rounds {k : Nat} (h : Rounds old new k c c') (hc : c.out = new.take c.new) :
    c'.out = new.take c'.new := by
  induction h with
  | refl c => exact hc
  | step hr _ ih => exact ih (out_round hr hc)

theorem walk_rounds {k : Nat} (h : Rounds old new k c c') :
    (c.out ++ (walk c.new (old.drop c.old) (new.drop c.new)).1,
        c.log ++ (walk c.new (old.drop c.old) (new.drop c.new)).2) =
      (c'.out ++ (walk c'.new (old.drop c'.old) (new.drop c'.new)).1,
        c'.log ++ (walk c'.new (old.drop c'.old) (new.drop c'.new)).2) := by
  induction h with
  | refl c => rfl
  | step hr _ ih => exact (walk_round hr).trans ih

/-- The loop ends: from any cursors there is no turn left after as many turns as there are bytes
before the cursor in the new program. -/
theorem exists_rounds (old new : List UInt8) (c : Cursors) :
    ∃ k ≤ new.length - c.new, ∃ c', Rounds old new k c c' ∧ round old new c' = none := by
  induction hn : new.length - c.new using Nat.strongRecOn generalizing c with
  | _ n ih =>
    cases hr : round old new c with
    | none => exact ⟨0, Nat.zero_le _, c, .refl c, hr⟩
    | some c₁ =>
      have hlt := new_lt_round hr
      obtain ⟨k, hk, c', hrounds, hend⟩ := ih (new.length - c₁.new) (by omega) c₁ rfl
      exact ⟨k + 1, by omega, c', .step hr hrounds, hend⟩

/-- **A patch is the new program.** The loop of a patch ends within as many turns as the new
program has bytes; what it has written, with the rest of the new program behind it, is the new
program, whatever both programs are. So a machine cannot tell the patch from the new program, and a
program patched with itself stays as it is. -/
theorem patch_eq_new {σ ν : Type} [Host σ ν] (old new : List UInt8) :
    (∃ k ≤ new.length, ∃ c, Rounds old new k {} c ∧ round old new c = none ∧
      patch old new = (c.out ++ new.drop c.new, c.log)) ∧
    (patch old new).1 = new ∧
    (∀ (m : Machine ν) (host : σ),
      Machine.run { m with program := (patch old new).1 } host =
        Machine.run { m with program := new } host) ∧
    (patch new new).1 = new := by
  have hloop (old : List UInt8) : ∃ k ≤ new.length, ∃ c, Rounds old new k {} c ∧
      round old new c = none ∧ patch old new = (c.out ++ new.drop c.new, c.log) ∧
      c.out = new.take c.new := by
    obtain ⟨k, hk, c, hrounds, hend⟩ := exists_rounds old new {}
    refine ⟨k, hk, c, hrounds, hend, ?_, out_rounds hrounds rfl⟩
    have hwalk := walk_rounds hrounds
    rw [walk_of_round_eq_none hend, List.append_nil] at hwalk
    exact hwalk
  have hnew (old : List UInt8) : (patch old new).1 = new := by
    obtain ⟨k, -, c, -, -, hpatch, hout⟩ := hloop old
    rw [hpatch, hout]
    exact List.take_append_drop c.new new
  refine ⟨?_, hnew old, fun m host => by rw [hnew old], hnew new⟩
  obtain ⟨k, hk, c, hrounds, hend, hpatch, -⟩ := hloop old
  exact ⟨k, hk, c, hrounds, hend, hpatch⟩

end TreeCode.Patch
