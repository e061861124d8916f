import TreeCode.Proofs.Grammar
import TreeCode.Proofs.Written

/-!
# Writes to a draft

`Draft.Operation` lists the writes to a draft, and `Operation.Does` says what each makes of the
bytes. A write is done or refused (`Operation.ends`). One that is refused changes nothing, and
while a draft is locked all are refused, so nothing but `unlock` gets through to its bytes
(`Draft.after_of_locked`). `Draft.emitInParts` writes an instruction field by field, each behind its
own check; it comes to the same as writing all its bytes at once, so no write leaves half an
instruction (`Draft.emitInParts_eq_emit`).
-/

namespace TreeCode.Draft

open Instruction (fieldLength keyLength CodeWord)

/-! ## Part by part -/

def refuseLocked : Write Unit := fun d => if d.locked then .error .locked d else .ok () d

def put (bytes : List UInt8) : Write Unit := fun d => .ok () { d with bytes := d.bytes ++ bytes }

def checked {α : Type} (check : Except Error α) : Write α := fun d =>
  match check with
  | .ok a => .ok a d
  | .error e => .error e d

def writeField (op : Opcode) (what : String) (text : List UInt8) : Write Unit := do
  let length ← checked (fieldLength what text)
  refuseLocked
  put [op.byte]
  put [length]
  put text

/-- Writes an instruction part by part. The callback of a listener comes behind an event that is
already written. -/
def emitInParts : Instruction String → Write Unit
  | .createElement tag =>
    if Text.isBlank tag then throw (.blankTag tag)
    else writeField .createElement "tag name" (Text.utf8 tag)
  | .textNode text => writeField .textNode "text" (Text.utf8 text)
  | .setAttribute key value => do
    let keyField ← checked (keyLength (Text.utf8 key))
    let length ← checked (fieldLength "attribute value" (Text.utf8 value))
    refuseLocked
    put [Opcode.setAttribute.byte]
    put [keyField]
    put (Text.utf8 key)
    put [Opcode.nop.byte]
    put [length]
    put (Text.utf8 value)
  | .eventListener event callback => do
    if event.isEmpty then throw (.unfitField "event name" 0)
    writeField .eventListener "event name" (Text.utf8 event)
    put [callback]
  | i => write [i.opcode.byte]

theorem refuseLocked_put (bytes : List UInt8) : (do refuseLocked; put bytes) = write bytes := by
  funext d
  obtain ⟨before, locked⟩ := d
  cases locked <;> rfl

theorem put_put (front back : List UInt8) : (do put front; put back) = put (front ++ back) := by
  funext d
  change EStateM.Result.ok () { d with bytes := (d.bytes ++ front) ++ back } = _
  rw [List.append_assoc]
  rfl

theorem write_put (front back : List UInt8) :
    (do write front; put back) = write (front ++ back) := by
  rw [← refuseLocked_put, ← refuseLocked_put, ← put_put, bind_assoc]

theorem checked_fieldLength {α : Type} (what : String) (text : List UInt8) (k : UInt8 → Write α) :
    (checked (fieldLength what text) >>= k) =
      if text.length ≤ Instruction.maxField then k (UInt8.ofNat text.length)
      else throw (.unfitField what text.length) := by
  unfold fieldLength
  split <;> rfl

theorem checked_keyLength {α : Type} (key : List UInt8) (k : UInt8 → Write α) :
    (checked (keyLength key) >>= k) =
      if key.length ≤ Instruction.maxKey then k (UInt8.ofNat (key.length + 1))
      else throw (.unfitField "attribute key" key.length) := by
  unfold keyLength
  split <;> rfl

theorem writeField_eq (op : Opcode) (what : String) (text : List UInt8) :
    writeField op what text =
      if text.length ≤ Instruction.maxField then write (op.byte :: Instruction.field text)
      else throw (.unfitField what text.length) := by
  simp only [writeField, checked_fieldLength, put_put, refuseLocked_put]
  rfl

theorem emit_eq (i : Instruction String) :
    emit i = match i.check with
      | .ok () => write i.toBytes.layout
      | .error e => throw e := by
  unfold emit Instruction.encode
  cases i.check <;> rfl

/-- **Part by part comes to the same.** Only the first part can be refused once the checks are
passed, so there is never a part of an instruction in a draft. -/
theorem emitInParts_eq_emit (i : Instruction String) : emitInParts i = emit i := by
  rw [emit_eq]
  cases i with
  | createElement tag =>
    rw [emitInParts, writeField_eq, Instruction.check, Instruction.fieldLength_bind]
    by_cases hblank : Text.isBlank tag = true
    · rw [if_pos hblank, if_pos hblank]
      rfl
    · rw [if_neg hblank, if_neg hblank]
      split <;> rfl
  | textNode text =>
    rw [emitInParts, writeField_eq, Instruction.check, Instruction.fieldLength_bind]
    split <;> rfl
  | setAttribute key value =>
    simp only [emitInParts, checked_keyLength, checked_fieldLength, put_put, refuseLocked_put,
      Instruction.check, Instruction.keyLength_bind, Instruction.fieldLength_bind]
    by_cases hkey : (Text.utf8 key).length ≤ Instruction.maxKey
    · simp only [if_pos hkey]
      split <;> rfl
    · simp only [if_neg hkey]
  | eventListener event callback =>
    rw [emitInParts, writeField_eq, Instruction.check, Instruction.fieldLength_bind]
    by_cases hempty : event.isEmpty = true
    · rw [if_pos hempty, if_pos hempty]
      rfl
    · rw [if_neg hempty, if_neg hempty]
      by_cases hfits : (Text.utf8 event).length ≤ Instruction.maxField
      · simp only [if_pos hfits, write_put]
        rfl
      · simp only [if_neg hfits]
        rfl
  | _ => rfl

/-! ## Operations -/

inductive Operation where
  | emit (i : Instruction String)
  | nop
  | append (bytes : List UInt8)
  | insertAt (index : Nat) (byte : UInt8)
  | removeAt (index : Nat)
  | clear

namespace Operation

def run : Operation → Write (Option UInt8)
  | .emit i => do
    Draft.emit i
    return none
  | .nop => do
    Draft.nop
    return none
  | .append bytes => do
    write bytes
    return none
  | .insertAt index byte => do
    Draft.insertAt index byte
    return none
  | .removeAt index => Draft.removeAt index
  | .clear => do
    Draft.clear
    return none

/-- What can be written at all: an instruction whose texts fit and that is named, and anything
else. -/
def Sound : Operation → Prop
  | .emit i => i.toBytes.Fits ∧ i.Named
  | _ => True

/-- What a write makes of bytes, with its answer. -/
inductive Does : Operation → List UInt8 → Option UInt8 → List UInt8 → Prop where
  | emit {i : Instruction String} {word : List UInt8} (bytes : List UInt8) :
      CodeWord i.toBytes word → Does (.emit i) bytes none (bytes ++ word)
  | nop (bytes : List UInt8) : Does .nop bytes none (bytes ++ [0x0b])
  | append (bytes more : List UInt8) : Does (.append more) bytes none (bytes ++ more)
  | insert (front back : List UInt8) (byte : UInt8) :
      Does (.insertAt front.length byte) (front ++ back) none (front ++ byte :: back)
  | insertOutside {bytes : List UInt8} {index : Nat} (byte : UInt8) : bytes.length < index →
      Does (.insertAt index byte) bytes none bytes
  | remove (front back : List UInt8) (byte : UInt8) :
      Does (.removeAt front.length) (front ++ byte :: back) (some byte) (front ++ back)
  | removeOutside {bytes : List UInt8} {index : Nat} : bytes.length ≤ index →
      Does (.removeAt index) bytes none bytes
  | clear (bytes : List UInt8) : Does .clear bytes none []

theorem insertIdx_length_append (front back : List UInt8) (byte : UInt8) :
    (front ++ back).insertIdx front.length byte = front ++ byte :: back := by
  induction front with
  | nil => rfl
  | cons first rest ih =>
    rw [List.cons_append, List.length_cons, List.insertIdx_succ_cons, ih, List.cons_append]

theorem does_insertIdx (bytes : List UInt8) (index : Nat) (byte : UInt8) :
    (insertAt index byte).Does bytes none (bytes.insertIdx index byte) := by
  rcases Nat.lt_or_ge bytes.length index with h | h
  · rw [List.insertIdx_of_length_lt h]
    exact .insertOutside byte h
  · obtain ⟨front, back, rfl, rfl⟩ : ∃ front back, front ++ back = bytes ∧ front.length = index :=
      ⟨bytes.take index, bytes.drop index, List.take_append_drop .., List.length_take_of_le h⟩
    rw [insertIdx_length_append]
    exact .insert front back byte

theorem does_eraseIdx (bytes : List UInt8) (index : Nat) :
    (removeAt index).Does bytes bytes[index]? (bytes.eraseIdx index) := by
  rcases Nat.lt_or_ge index bytes.length with h | h
  · have hdoes := Does.remove (bytes.take index) (bytes.drop (index + 1)) bytes[index]
    rw [List.length_take_of_le (Nat.le_of_lt h), ← List.drop_eq_getElem_cons h,
      List.take_append_drop] at hdoes
    rwa [List.getElem?_eq_getElem h, List.eraseIdx_eq_take_drop_succ]
  · rw [List.getElem?_eq_none h, List.eraseIdx_of_length_le h]
    exact .removeOutside h

inductive Ends (op : Operation) (d : Draft) : Prop where
  | done {answer : Option UInt8} {bytes : List UInt8} : d.locked = false → op.Sound →
      op.run d = .ok answer { d with bytes } → op.Does d.bytes answer bytes → Ends op d
  | refused {e : Error} : ¬ (d.locked = false ∧ op.Sound) → op.run d = .error e d → Ends op d

theorem ends_of_edit {op : Operation} {d : Draft} (f : List UInt8 → List UInt8)
    {answer : Option UInt8} (hsound : op.Sound)
    (hrun : op.run d = EStateM.bind (edit f) (fun _ => EStateM.pure answer) d)
    (hdoes : op.Does d.bytes answer (f d.bytes)) : op.Ends d := by
  obtain ⟨bytes, locked⟩ := d
  cases locked with
  | false => exact .done rfl hsound hrun hdoes
  | true => exact .refused nofun hrun

theorem ends_emit (i : Instruction String) (d : Draft) : (emit i).Ends d := by
  have hrun : (emit i).run d = EStateM.bind (Draft.emit i) (fun _ => EStateM.pure none) d := rfl
  rw [emit_eq] at hrun
  cases hcheck : i.check with
  | ok u =>
    have hsound := Instruction.check_eq_ok_iff.mp hcheck
    have hword : CodeWord i.toBytes i.toBytes.layout := Instruction.codeWord_iff.mpr ⟨hsound.1, rfl⟩
    rw [hcheck] at hrun
    exact ends_of_edit (· ++ i.toBytes.layout) hsound hrun (.emit d.bytes hword)
  | error e =>
    rw [hcheck] at hrun
    refine .refused (fun h => ?_) hrun
    cases hcheck.symm.trans (Instruction.check_eq_ok_iff.mpr h.2)

theorem ends (op : Operation) (d : Draft) : op.Ends d := by
  cases op with
  | emit i => exact ends_emit i d
  | nop => exact ends_of_edit (· ++ [Opcode.nop.byte]) trivial rfl (.nop d.bytes)
  | append bytes => exact ends_of_edit (· ++ bytes) trivial rfl (.append d.bytes bytes)
  | insertAt index byte =>
    exact ends_of_edit (·.insertIdx index byte) trivial rfl (does_insertIdx d.bytes index byte)
  | removeAt index =>
    exact ends_of_edit (·.eraseIdx index) trivial rfl (does_eraseIdx d.bytes index)
  | clear => exact ends_of_edit (fun _ => []) trivial rfl (.clear d.bytes)

theorem refused_of_locked {op : Operation} {d : Draft} (h : d.locked = true) :
    ∃ e, op.run d = .error e d := by
  cases op.ends d with
  | done hopen => cases h.symm.trans hopen
  | refused _ hrun => exact ⟨_, hrun⟩

end Operation

/-! ## While a draft is locked -/

inductive Call where
  | lock
  | unlock
  | operate (op : Operation)

/-- The draft after a call. One that is refused leaves what it leaves. -/
def Call.run (d : Draft) : Call → Draft
  | .lock => d.lock
  | .unlock => d.unlock
  | .operate op =>
    match op.run d with
    | .ok _ d => d
    | .error _ d => d

def after (d : Draft) (calls : List Call) : Draft := calls.foldl Call.run d

theorem run_of_locked {d : Draft} (h : d.locked = true) {call : Call} (hcall : call ≠ .unlock) :
    call.run d = d := by
  cases call with
  | unlock => exact absurd rfl hcall
  | lock => exact congrArg (Draft.mk d.bytes) h.symm
  | operate op =>
    obtain ⟨e, he⟩ := op.refused_of_locked h
    rw [Call.run, he]

theorem after_of_locked {d : Draft} (h : d.locked = true) {calls : List Call}
    (hcalls : .unlock ∉ calls) : d.after calls = d := by
  induction calls with
  | nil => rfl
  | cons call rest ih =>
    rw [List.mem_cons, not_or] at hcalls
    rw [after, List.foldl_cons, run_of_locked h (Ne.symm hcalls.1), ← after, ih hcalls.2]

/-- **A write is done as a whole or not at all, and the lock is kept.** One that is refused leaves
bytes and lock as they were; one that is done makes of the bytes what it says and nothing else. A
write is refused where the draft is locked, or where an instruction cannot be written, and nowhere
else. From locking a draft to unlocking it no calls change it. An instruction that is written part
by part comes to the same, so it too is there as a whole or not at all. -/
theorem writes_whole_or_not :
    (∀ (op : Operation) (d : Draft),
      (∀ e d', op.run d = .error e d' → d' = d) ∧
      (d.locked = true → ∃ e, op.run d = .error e d) ∧
      (∀ answer d', op.run d = .ok answer d' →
        d'.locked = d.locked ∧ op.Does d.bytes answer d'.bytes) ∧
      ((∃ answer d', op.run d = .ok answer d') ↔ d.locked = false ∧ op.Sound)) ∧
    (∀ (d : Draft) (calls : List Call), .unlock ∉ calls → d.lock.after calls = d.lock) ∧
    ∀ i, emitInParts i = emit i := by
  refine ⟨fun op d => ?_, fun d calls => after_of_locked rfl, emitInParts_eq_emit⟩
  cases op.ends d with
  | done hopen hsound hrun hdoes =>
    simp only [hrun]
    refine ⟨nofun, fun h => ?_, fun answer d' h => ?_, fun _ => ⟨hopen, hsound⟩,
      fun _ => ⟨_, _, rfl⟩⟩
    · cases h.symm.trans hopen
    · cases h
      exact ⟨rfl, hdoes⟩
  | refused hnot hrun =>
    simp only [hrun]
    refine ⟨fun e d' h => ?_, fun _ => ⟨_, rfl⟩, nofun, nofun, fun h => absurd h hnot⟩
    cases h
    rfl

/-- While a draft is locked nothing can be written and no byte is taken. Behind that, a byte is put
in the middle, an event without a name is refused, and a byte past the end is not there to be
taken. -/
theorem writes_whole_or_not_across_a_lock :
    let d : Draft := { bytes := [1, 3] }
    let inside : List Call := [.operate .clear, .lock, .operate (.removeAt 0), .operate .nop]
    .unlock ∉ inside ∧ d.lock.after inside = d.lock ∧
      d.after (.lock :: (inside ++ [.unlock, .operate (.insertAt 1 2),
        .operate (.emit (.eventListener "" 7)), .operate (.removeAt 5)])) = { bytes := [1, 2, 3] } ∧
      (Operation.insertAt 1 2).Does [1, 3] none [1, 2, 3] ∧
      ∃ e, Operation.nop.run d.lock = .error e d.lock := by
  intro d inside
  obtain ⟨hruns, hlocked, -⟩ := writes_whole_or_not
  have hinside : Call.unlock ∉ inside := by simp [inside]
  have hinsert := ((hruns (.insertAt 1 2) d).2.2.1 none { bytes := [1, 2, 3] } rfl).2
  exact ⟨hinside, hlocked d inside hinside, rfl, hinsert, (hruns .nop d.lock).2.1 rfl⟩

end TreeCode.Draft
