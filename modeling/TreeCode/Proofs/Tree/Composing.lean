import TreeCode.Proofs.Draft
import TreeCode.Proofs.Tree.Faults

/-!
# Trees written into drafts

A tree adds to any draft that takes writes what it encodes to, and where it fails it fails with one
error on all of them (`Uniform`). What a tree writes is what the elements and texts it stands for
write, one after the other (`Tree.steps_eq_map_emit`), so a group is where its children are, and
putting some children into a group makes no difference (`Tree.Regroups.steps_eq`).
-/

namespace TreeCode

open Draft (Write)

/-! ## Steps that do the same on every draft -/

/-- A step of writing that adds these bytes to every draft that takes writes and then ends with an
error or without. It changes no draft that is locked. -/
structure Adds (w : Write Unit) (added : List UInt8) (fault : Option Error) : Prop where
  opened : ∀ d, d.locked = false → w d = ending { d with bytes := d.bytes ++ added } fault
  locked : ∀ d, d.locked = true → ∃ fault, w d = ending d fault

/-- A step of writing that adds the same bytes to every draft that takes writes. -/
def Uniform (w : Write Unit) : Prop := ∃ added fault, Adds w added fault

namespace Uniform

variable {w v : Write Unit} {ws : List (Write Unit)}

theorem pure : Uniform (Pure.pure ()) := by
  refine ⟨[], none, fun d _ => ?_, fun d _ => ⟨none, rfl⟩⟩
  rw [List.append_nil]
  rfl

theorem throw (e : Error) : Uniform (MonadExcept.throw e) := by
  refine ⟨[], some e, fun d _ => ?_, fun d _ => ⟨some e, rfl⟩⟩
  rw [List.append_nil]
  rfl

theorem write (bytes : List UInt8) : Uniform (Draft.write bytes) := by
  refine ⟨bytes, none, fun d hd => Draft.write_eq_ok_iff.mpr ⟨hd, rfl⟩, fun d hd => ?_⟩
  refine ⟨some .locked, ?_⟩
  rw [Draft.write, Draft.edit, if_pos hd]
  rfl

theorem emit (i : Instruction String) : Uniform (Draft.emit i) := by
  rw [Draft.emit_eq]
  cases i.check with
  | ok u => exact write _
  | error e => exact throw e

theorem check (a : Attachments) : Uniform a.check := by
  unfold Attachments.check
  cases a.fault with
  | none => exact pure
  | some e => exact throw e

/-- Of two steps, the second adds to what the first has added, if it is reached. -/
theorem bind (hw : Uniform w) (hv : Uniform v) : Uniform (do w; v) := by
  obtain ⟨front, fault, hw⟩ := hw
  obtain ⟨back, other, hv⟩ := hv
  have hlocked (d : Draft) (hd : d.locked = true) : ∃ fault, (do w; v) d = ending d fault := by
    obtain ⟨first, hfirst⟩ := hw.locked d hd
    change ∃ fault, EStateM.bind w (fun _ => v) d = ending d fault
    unfold EStateM.bind
    rw [hfirst]
    cases first with
    | none => exact hv.locked d hd
    | some e => exact ⟨some e, rfl⟩
  cases fault with
  | none =>
    refine ⟨front ++ back, other, fun d hd => ?_, hlocked⟩
    change EStateM.bind w (fun _ => v) d = _
    unfold EStateM.bind
    rw [hw.opened d hd, ← List.append_assoc]
    exact hv.opened { d with bytes := d.bytes ++ front } hd
  | some e =>
    refine ⟨front, some e, fun d hd => ?_, hlocked⟩
    change EStateM.bind w (fun _ => v) d = _
    unfold EStateM.bind
    rw [hw.opened d hd]
    rfl

theorem inOrder (h : ∀ w ∈ ws, Uniform w) : Uniform (Tree.inOrder ws) := by
  induction ws with
  | nil => exact pure
  | cons w rest ih =>
    rw [List.forall_mem_cons] at h
    exact h.1.bind (ih h.2)

theorem appendEach (between : List UInt8) (h : ∀ w ∈ ws, Uniform w) :
    Uniform (Tree.appendEach between ws) := by
  cases ws with
  | nil => exact pure
  | cons w rest =>
    rw [List.forall_mem_cons] at h
    have hrest : Uniform (Tree.inOrder (rest.map fun child => do child; Draft.emit .appendChild)) :=
      inOrder (List.forall_mem_map.mpr fun child hchild => (h.2 child hchild).bind (emit _))
    exact h.1.bind ((write between).bind ((emit _).bind hrest))

/-- An element, from the errors of its own calls to what it has inside. -/
theorem element (a : Attachments) (tag : String) (h : Uniform w) :
    Uniform (do
      a.check
      Draft.emit (.createElement tag)
      Draft.write a.attributes.bytes
      w) :=
  (check a).bind ((emit _).bind ((write _).bind h))

end Uniform

namespace Tree

theorem uniform_container (tag : Tag) (a : Attachments) {children : List Tree}
    (h : ∀ w ∈ stepsAll children, Uniform w) :
    ∀ w ∈ (container tag children a).steps, Uniform w := by
  rw [steps, List.forall_mem_singleton]
  refine .element a tag.name ?_
  generalize stepsAll children = ws at h
  cases ws with
  | nil =>
    by_cases hl : a.listeners.bytes = []
    · simp only [if_pos hl]
      exact .pure
    · simp only [if_neg hl]
      exact .appendEach _ (List.forall_mem_singleton.mpr (.emit _))
  | cons first rest => exact .appendEach _ h

mutual

theorem uniform_steps : (t : Tree) → ∀ w ∈ t.steps, Uniform w
  | text content => List.forall_mem_singleton.mpr (.emit _)
  | button label a =>
    List.forall_mem_singleton.mpr
      (.element a "button" (.appendEach _ (List.forall_mem_singleton.mpr (.emit _))))
  | container tag children a => uniform_container tag a (uniform_stepsAll children)
  | group children => by
    rw [steps]
    exact uniform_stepsAll children

theorem uniform_stepsAll : (ts : List Tree) → ∀ w ∈ stepsAll ts, Uniform w
  | [] => List.forall_mem_nil _
  | t :: rest => List.forall_mem_append.mpr ⟨uniform_steps t, uniform_stepsAll rest⟩

end

theorem uniform_emit (t : Tree) : Uniform t.emit := .inOrder (uniform_steps t)

/-! ## Groups -/

theorem inOrder_append (ws vs : List (Write Unit)) :
    inOrder (ws ++ vs) = (do inOrder ws; inOrder vs) := by
  induction ws with
  | nil => rfl
  | cons w rest ih =>
    rw [List.cons_append, inOrder, inOrder, ih, bind_assoc]

theorem steps_eq_of_singleton {t : Tree} {w : Write Unit} (h : t.steps = [w]) :
    t.steps = [t.emit] := by
  rw [emit, h, inOrder, inOrder, bind_pure_unit]

theorem stepsAll_append (ts others : List Tree) :
    stepsAll (ts ++ others) = stepsAll ts ++ stepsAll others := by
  induction ts with
  | nil => rfl
  | cons t rest ih => rw [List.cons_append, stepsAll, stepsAll, ih, List.append_assoc]

theorem emit_group (children : List Tree) :
    (group children).emit = inOrder (children.map emit) := by
  rw [emit, steps]
  induction children with
  | nil => rfl
  | cons t rest ih =>
    rw [stepsAll, inOrder_append, ih]
    rfl

mutual

theorem steps_eq_map_emit : (t : Tree) → t.steps = t.flatten.map emit
  | text _ | button _ _ | container _ _ _ => steps_eq_of_singleton rfl
  | group children => by
    rw [steps, flatten]
    exact stepsAll_eq_map_emit children

theorem stepsAll_eq_map_emit : (ts : List Tree) → stepsAll ts = (flattenAll ts).map emit
  | [] => rfl
  | t :: rest => by
    rw [stepsAll, flattenAll, List.map_append, steps_eq_map_emit t, stepsAll_eq_map_emit rest]

end

mutual

/-- Somewhere in a tree, some children that follow one another are put into a group. -/
inductive Regroups : Tree → Tree → Prop where
  | container {children regrouped : List Tree} (tag : Tag) (a : Attachments) :
      RegroupsAll children regrouped →
      Regroups (.container tag children a) (.container tag regrouped a)
  | group {children regrouped : List Tree} : RegroupsAll children regrouped →
      Regroups (.group children) (.group regrouped)

inductive RegroupsAll : List Tree → List Tree → Prop where
  | gather (front run back : List Tree) :
      RegroupsAll (front ++ run ++ back) (front ++ .group run :: back)
  | inside {t t' : Tree} (front back : List Tree) : Regroups t t' →
      RegroupsAll (front ++ t :: back) (front ++ t' :: back)

end

mutual

theorem Regroups.steps_eq {t t' : Tree} : t.Regroups t' → t'.steps = t.steps
  | .container tag a h => by rw [steps, steps, h.steps_eq]
  | .group h => by rw [steps, steps, h.steps_eq]

theorem RegroupsAll.steps_eq {ts ts' : List Tree} :
    RegroupsAll ts ts' → stepsAll ts' = stepsAll ts
  | .gather front run back => by
    rw [List.append_assoc, stepsAll_append, stepsAll_append, stepsAll_append, stepsAll, steps]
  | .inside front back h => by
    rw [stepsAll_append, stepsAll_append, stepsAll, stepsAll, h.steps_eq]

end

/-! ## Writing in any place -/

theorem encode_of_adds {t : Tree} {added : List UInt8} {fault : Option Error}
    (h : Adds t.emit added fault) :
    t.encode = match fault with
      | none => .ok added
      | some e => .error e := by
  have hempty : t.emit {} = ending { bytes := added } fault := h.opened {} rfl
  rw [encode, hempty]
  cases fault <;> rfl

/-- **Writing a tree is compositional.** Into a draft that takes writes a tree is written as it is
alone, behind what is there; where it fails alone it fails with the same error, and what was there
stays in front. A draft that is locked keeps its bytes. A group writes its children one after the
other, and a container those that its children stand for; so putting children into a group anywhere
in a tree changes nothing, neither what is written nor the error. -/
theorem emit_composes :
    (∀ (t : Tree) (d : Draft), d.locked = false →
      (∀ bytes, t.encode = .ok bytes → t.emit d = .ok () { d with bytes := d.bytes ++ bytes }) ∧
      ∀ e, t.encode = .error e →
        ∃ added, t.emit d = .error e { d with bytes := d.bytes ++ added }) ∧
    (∀ (t : Tree) (d : Draft), d.locked = true →
      t.emit d = .ok () d ∨ ∃ e, t.emit d = .error e d) ∧
    (∀ ts : List Tree, (group ts).emit = inOrder (ts.map emit) ∧
      stepsAll ts = (flattenAll ts).map emit) ∧
    ∀ t t' : Tree, t.Regroups t' → t'.encode = t.encode ∧ ∀ d, t'.emit d = t.emit d := by
  refine ⟨fun t d hd => ?_, fun t d hd => ?_, fun ts => ⟨emit_group ts, stepsAll_eq_map_emit ts⟩,
    fun t t' h => ?_⟩
  · obtain ⟨added, fault, h⟩ := uniform_emit t
    rw [encode_of_adds h, h.opened d hd]
    cases fault with
    | none =>
      refine ⟨fun bytes hbytes => ?_, nofun⟩
      cases hbytes
      rfl
    | some e =>
      refine ⟨nofun, fun f hf => ?_⟩
      cases hf
      exact ⟨added, rfl⟩
  · obtain ⟨_, _, h⟩ := uniform_emit t
    obtain ⟨fault, hfault⟩ := h.locked d hd
    cases fault with
    | none => exact .inl hfault
    | some e => exact .inr ⟨e, hfault⟩
  · have hemit : t'.emit = t.emit := by rw [emit, emit, h.steps_eq]
    exact ⟨by rw [encode, encode, hemit], fun d => by rw [hemit]⟩

/-- A group of nothing stands in front of the first child of a paragraph that listens: the listener
still comes behind the text. A button that listens to an event without a name fails wherever it is
written. -/
theorem emit_composes_empty_group :
    let a : Attachments := ({} : Attachments).listen "x" (.ok 7)
    let t : Tree := .container .p [.text "a"] a
    let t' : Tree := .container .p [.group [], .text "a"] a
    let faulty : Tree := .group [.text "a", .button "b" (a.listen "" (.ok 8))]
    let bytes : List UInt8 := [1, 1, 112, 6, 1, 97, 10, 1, 120, 7, 3]
    t.Regroups t' ∧ t'.encode = .ok bytes ∧
      t'.emit { bytes := [6, 0] } = .ok () { bytes := [6, 0] ++ bytes } ∧
      (∃ added, faulty.emit { bytes := [6, 0] } =
        .error (.unfitField "event name" 0) { bytes := [6, 0] ++ added }) ∧
      (t.emit { bytes := [6, 0], locked := true } = .ok () { bytes := [6, 0], locked := true } ∨
        ∃ e, t.emit { bytes := [6, 0], locked := true } =
          .error e { bytes := [6, 0], locked := true }) := by
  intro a t t' faulty bytes
  obtain ⟨hopen, hlocked, -, hregroup⟩ := emit_composes
  have ht : t.Regroups t' := .container .p a (.gather [] [] [.text "a"])
  have hencode : t'.encode = .ok bytes := by
    rw [(hregroup t t' ht).1]
    rfl
  exact ⟨ht, hencode, (hopen t' { bytes := [6, 0] } rfl).1 bytes hencode,
    (hopen faulty { bytes := [6, 0] } rfl).2 _ rfl, hlocked t _ rfl⟩

end Tree

end TreeCode
