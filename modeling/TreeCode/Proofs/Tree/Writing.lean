import Mathlib.Data.List.Forall2
import TreeCode.Proofs.Tree.Shape
import TreeCode.Proofs.Written
import TreeCode.Tree.Encode

/-!
# What trees write

`Emits` ties a step of writing to the instructions it adds. The steps of a tree write the outlines
that the tree shows (`Tree.Shows.writes`), so its program lists as theirs, one after the other
(`Tree.written_encode`).
-/

namespace TreeCode

open Draft (Write)
open Outline (listening setting filling programAll)

/-! ## Steps of writing -/

/-- A step of writing, where it succeeds, adds the bytes of some instructions. -/
def Emits (w : Write Unit) (is : List (Instruction String)) : Prop :=
  ∀ d d', w d = .ok () d' → ∃ bytes, Written is bytes ∧ d' = { d with bytes := d.bytes ++ bytes }

theorem exists_of_bind_eq_ok {w v : Write Unit} {d d' : Draft} (h : (do w; v) d = .ok () d') :
    ∃ d₁, w d = .ok () d₁ ∧ v d₁ = .ok () d' := by
  change EStateM.bind w (fun _ => v) d = .ok () d' at h
  unfold EStateM.bind at h
  cases hw : w d with
  | ok u d₁ =>
    rw [hw] at h
    exact ⟨d₁, rfl, h⟩
  | error e d₁ =>
    rw [hw] at h
    cases h

namespace Emits

variable {w v : Write Unit} {is js : List (Instruction String)}

theorem pure : Emits (Pure.pure ()) [] := by
  intro d d' h
  obtain rfl : d = d' := by cases h; rfl
  exact ⟨[], .nil, by rw [List.append_nil]⟩

theorem write {bytes : List UInt8} (h : Written is bytes) : Emits (Draft.write bytes) is := by
  intro d d' hd
  obtain ⟨-, rfl⟩ := Draft.write_eq_ok_iff.mp hd
  exact ⟨bytes, h, rfl⟩

theorem emit (i : Instruction String) : Emits (Draft.emit i) [i] := by
  intro d d' hd
  obtain ⟨bytes, hi, hw⟩ := Draft.emit_eq_ok_iff.mp hd
  exact write (.single hi) d d' hw

theorem bind (h : Emits w is) (h' : Emits v js) : Emits (do w; v) (is ++ js) := by
  intro d d' hd
  obtain ⟨d₁, hw, hv⟩ := exists_of_bind_eq_ok hd
  obtain ⟨front, hfront, rfl⟩ := h _ _ hw
  obtain ⟨back, hback, rfl⟩ := h' _ _ hv
  exact ⟨front ++ back, hfront.append hback, by rw [List.append_assoc]⟩

theorem check {a : Attachments} (h : a.fault = none → Emits w is) :
    Emits (do a.check; w) is := by
  intro d d' hd
  obtain ⟨d₁, ha, hw⟩ := exists_of_bind_eq_ok hd
  unfold Attachments.check at ha
  cases hf : a.fault with
  | some e =>
    rw [hf] at ha
    cases ha
  | none =>
    rw [hf] at ha
    cases ha
    exact h hf d d' hw

theorem inOrder {ws : List (Write Unit)} {os : List Outline}
    {f : Outline → List (Instruction String)} (h : List.Forall₂ (fun w o => Emits w (f o)) ws os) :
    Emits (Tree.inOrder ws) (os.flatMap f) := by
  induction h with
  | nil => exact pure
  | cons hfirst _ ih =>
    rw [List.flatMap_cons]
    exact bind hfirst ih

end Emits

theorem Written.emit {is : List (Instruction String)} {i : Instruction String} {d d' : Draft}
    (h : Written is d.bytes) (he : Draft.emit i d = .ok () d') : Written (is ++ [i]) d'.bytes := by
  obtain ⟨bytes, hbytes, rfl⟩ := Emits.emit i d d' he
  exact h.append hbytes

/-! ## Elements -/

/-- A step of writing adds the program of an outline that can be built. -/
def Writes (w : Write Unit) (o : Outline) : Prop := o.Buildable ∧ Emits w o.program

theorem buildableAll_of_writes {ws : List (Write Unit)} {os : List Outline}
    (h : List.Forall₂ Writes ws os) : Outline.BuildableAll os := by
  induction h with
  | nil => trivial
  | cons hfirst _ ih => exact ⟨hfirst.1, ih⟩

namespace Attachments

theorem blame_fault_ne_none (a : Attachments) (e : Error) : (a.blame e).fault ≠ none := by
  unfold blame
  cases a.fault <;> simp

/-- Attachments in whose setting no error was met hold the bytes of what was set. -/
theorem Holds.written {a : Attachments} {o : Ornaments} (h : a.Holds o) (hf : a.fault = none) :
    Written (setting o.attributes) a.attributes.bytes ∧
      Written (listening o.listeners) a.listeners.bytes := by
  induction h with
  | empty => exact ⟨.nil, .nil⟩
  | @setAttribute a o key value _ ih =>
    simp only [Attachments.setAttribute] at hf ⊢
    cases he : Draft.emit (.setAttribute key value) a.attributes with
    | error e attributes =>
      rw [he] at hf
      exact absurd hf (blame_fault_ne_none _ e)
    | ok u attributes =>
      rw [he] at hf
      obtain ⟨hattributes, hlisteners⟩ := ih hf
      refine ⟨?_, hlisteners⟩
      rw [Ornaments.setAttribute, setting, List.map_append]
      exact hattributes.emit he
  | @listen a o event index _ ih =>
    simp only [Attachments.listen] at hf ⊢
    cases he : Draft.emit (.eventListener event index) a.listeners with
    | error e listeners =>
      rw [he] at hf
      exact absurd hf (blame_fault_ne_none _ e)
    | ok u listeners =>
      rw [he] at hf
      obtain ⟨hattributes, hlisteners⟩ := ih hf
      refine ⟨hattributes, ?_⟩
      rw [Ornaments.listen, listening, List.map_append]
      exact hlisteners.emit he
  | @refuse a o event e _ _ => exact absurd hf (blame_fault_ne_none a e)

end Attachments

namespace Emits

/-- The children of an element. What stands between the first and its appending are the listeners
of the element. -/
theorem appendEach {w : Write Unit} {ws : List (Write Unit)} {o : Outline} {os : List Outline}
    {listeners : List (String × UInt8)} {between : List UInt8}
    (hb : Written (listening listeners) between) (h : Emits w o.program)
    (hrest : List.Forall₂ Writes ws os) :
    Emits (Tree.appendEach between (w :: ws)) (filling listeners (o :: os)) := by
  have hinner : Emits (Tree.inOrder (ws.map fun child => do child; Draft.emit .appendChild))
      (filling [] os) := by
    rw [Outline.filling_nil]
    refine inOrder (List.forall₂_map_left_iff.mpr (hrest.imp fun child o ho => ?_))
    exact ho.2.bind (emit .appendChild)
  exact h.bind ((write hb).bind ((emit .appendChild).bind hinner))

end Emits

theorem isBlank_name (tag : Tag) : Text.isBlank tag.name = false := by
  cases tag <;> decide

namespace Tree

theorem writes_text (content : String) :
    List.Forall₂ Writes (text content).steps [.text content] :=
  .cons ⟨trivial, .emit _⟩ .nil

theorem writes_button {a : Attachments} {o : Ornaments} (h : a.Holds o) (label : String) :
    List.Forall₂ Writes (button label a).steps [o.button label] := by
  have hbuildable : (o.button label).Buildable :=
    ⟨by decide, (fun hc => by cases hc), trivial, trivial⟩
  refine .cons ⟨hbuildable, .check fun hf => ?_⟩ .nil
  obtain ⟨hattributes, hlisteners⟩ := h.written hf
  exact (Emits.emit _).bind ((Emits.write hattributes).bind
    (.appendEach hlisteners (.emit _) .nil))

/-- A container has an empty text as its child just where there are bytes of listeners and no steps
of children. -/
theorem writes_container {children : List Tree} {a : Attachments} {f : Frame}
    (hchildren : List.Forall₂ Writes (stepsAll children) f.children) (ha : a.Holds f.ornaments) :
    List.Forall₂ Writes (container f.tag children a).steps [f.outline] := by
  obtain ⟨tag, os, ⟨attributes, listeners⟩⟩ := f
  simp only [Frame.outline, Frame.inside, steps]
  generalize stepsAll children = ws at hchildren
  cases hchildren with
  | nil =>
    by_cases hl : listeners = []
    · subst hl
      refine .cons ⟨⟨isBlank_name _, fun _ => rfl, trivial⟩, .check fun hf => ?_⟩ .nil
      obtain ⟨hattributes, hlisteners⟩ := ha.written hf
      simp only [if_pos (hlisteners.eq_nil_iff.mpr rfl)]
      exact (Emits.emit _).bind ((Emits.write hattributes).bind .pure)
    · simp only [if_neg hl]
      refine .cons ⟨⟨isBlank_name _, (fun hc => by cases hc), trivial, trivial⟩, .check fun hf => ?_⟩
        .nil
      obtain ⟨hattributes, hlisteners⟩ := ha.written hf
      have hbytes : a.listeners.bytes ≠ [] := fun hb =>
        hl (List.map_eq_nil_iff.mp (hlisteners.eq_nil_iff.mp hb))
      simp only [if_neg hbytes]
      exact (Emits.emit _).bind ((Emits.write hattributes).bind
        (.appendEach hlisteners (.emit _) .nil))
  | cons hfirst hrest =>
    have hall := buildableAll_of_writes (.cons hfirst hrest)
    refine .cons ⟨⟨isBlank_name _, (fun hc => by cases hc), hall⟩, .check fun hf => ?_⟩ .nil
    obtain ⟨hattributes, hlisteners⟩ := ha.written hf
    exact (Emits.emit _).bind ((Emits.write hattributes).bind
      (.appendEach hlisteners hfirst.2 hrest))

mutual

/-- The steps of a tree write the outlines that the tree shows. -/
theorem Shows.writes {t : Tree} {os : List Outline} :
    t.Shows os → List.Forall₂ Writes t.steps os
  | .text content => writes_text content
  | .button label h => writes_button h label
  | .container hchildren ha => writes_container hchildren.writes ha
  | .group hchildren => by
    rw [steps]
    exact hchildren.writes

theorem ShowAll.writes {ts : List Tree} {os : List Outline} :
    ShowAll ts os → List.Forall₂ Writes (stepsAll ts) os
  | .nil => .nil
  | .cons hfirst hrest => List.rel_append hfirst.writes hrest.writes

end

mutual

theorem length_steps : (t : Tree) → t.steps.length = t.flatten.length
  | text _ | button _ _ | container _ _ _ => rfl
  | group children => by
    rw [steps, flatten]
    exact length_stepsAll children

theorem length_stepsAll : (ts : List Tree) → (stepsAll ts).length = (flattenAll ts).length
  | [] => rfl
  | t :: rest => by
    rw [stepsAll, flattenAll, List.length_append, List.length_append, length_steps t,
      length_stepsAll rest]

end

/-- The program of a tree lists as the programs of the outlines that the tree shows. -/
theorem written_encode {t : Tree} {os : List Outline} {program : List UInt8} (h : t.Shows os)
    (he : t.encode = .ok program) : Written (programAll os) program := by
  unfold encode at he
  cases hw : t.emit {} with
  | error e d =>
    rw [hw] at he
    cases he
  | ok u d =>
    rw [hw] at he
    obtain ⟨bytes, hbytes, rfl⟩ := Emits.inOrder (h.writes.imp fun _ _ hw => hw.2) _ _ hw
    cases he
    exact hbytes

end Tree

end TreeCode
