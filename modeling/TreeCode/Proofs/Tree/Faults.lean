import TreeCode.Proofs.Reactor.Numbers
import TreeCode.Proofs.Reading
import TreeCode.Proofs.Tree.Sketch
import TreeCode.Proofs.Tree.Writing

/-!
# Faults

What is set on an element is written as it is set, and the first that cannot be written leaves its
error there. A text that is too long is found only when the tree is written. `Tree.Consists` lists
the parts of a tree in the order in which they are written, an element before what is inside it, and
each part has a fault or none, whatever the others have. A tree cannot be written just where a part
has a fault, and the error is the first (`Tree.encode_fails_at_first_fault`).
-/

namespace TreeCode

open Draft (Write)

variable {ε κ : Type}

/-! ## Parts -/

/-- Why a decoration cannot be set where so many callbacks are registered. -/
def Decoration.fault? (registered : Nat) : Decoration κ → Option Error
  | «attribute» key value =>
    if 254 < (Text.utf8 key).length then
      some (.unfitField "attribute key" (Text.utf8 key).length)
    else if 255 < (Text.utf8 value).length then
      some (.unfitField "attribute value" (Text.utf8 value).length)
    else none
  | listener event _ =>
    if 256 ≤ registered then some .callbacksFull
    else if event = "" then some (.unfitField "event name" 0)
    else if 255 < (Text.utf8 event).length then
      some (.unfitField "event name" (Text.utf8 event).length)
    else none

/-- How many callbacks are registered behind a decoration: a listener takes a number while there are
any, whether or not it can be set. -/
def Decoration.registeredAfter (registered : Nat) : Decoration κ → Nat
  | «attribute» _ _ => registered
  | listener _ _ => if registered < 256 then registered + 1 else registered

/-- What is written of a tree. -/
inductive Part (κ : Type) where
  /-- What is set on an element, call by call, each with how many callbacks were registered before
  it. -/
  | settings (calls : List (Nat × Decoration κ))
  /-- A text, or the label of a button. -/
  | text (content : String)

/-- Why a part cannot be written: the first of its calls that is refused, or its length. -/
def Part.fault? : Part κ → Option Error
  | settings calls => calls.findSome? fun call => call.2.fault? call.1
  | text content =>
    if 255 < (Text.utf8 content).length then some (.unfitField "text" (Text.utf8 content).length)
    else none

namespace Part

/-- The error of the first part that cannot be written. -/
def firstFault? (parts : List (Part κ)) : Option Error := parts.findSome? fault?

theorem firstFault?_cons (part : Part κ) (parts : List (Part κ)) :
    firstFault? (part :: parts) = part.fault?.or (firstFault? parts) := by
  unfold firstFault?
  rw [List.findSome?_cons]
  cases part.fault? <;> rfl

theorem firstFault?_append (parts others : List (Part κ)) :
    firstFault? (parts ++ others) = (firstFault? parts).or (firstFault? others) :=
  List.findSome?_append

theorem fault?_text_ne_none_iff (content : String) :
    (text content : Part κ).fault? ≠ none ↔ 255 < (Text.utf8 content).length := by
  rw [fault?]
  split <;> simp [*]

theorem fault?_settings_ne_none_iff (calls : List (Nat × Decoration κ)) :
    (settings calls).fault? ≠ none ↔ ∃ call ∈ calls, call.2.fault? call.1 ≠ none := by
  rw [fault?, ne_eq, List.findSome?_eq_none_iff]
  simp

theorem exists_firstFault?_iff (parts : List (Part κ)) :
    (∃ e, firstFault? parts = some e) ↔
      (∃ calls, settings calls ∈ parts ∧ ∃ call ∈ calls, call.2.fault? call.1 ≠ none) ∨
      ∃ content, text content ∈ parts ∧ 255 < (Text.utf8 content).length := by
  simp only [← fault?_settings_ne_none_iff, ← @fault?_text_ne_none_iff κ]
  rw [← Option.ne_none_iff_exists', firstFault?, ne_eq, List.findSome?_eq_none_iff]
  constructor
  · intro h
    obtain ⟨part, hpart, hfault⟩ : ∃ part ∈ parts, part.fault? ≠ none := by simpa using h
    cases part with
    | settings calls => exact .inl ⟨calls, hpart, hfault⟩
    | text content => exact .inr ⟨content, hpart, hfault⟩
  · rintro (⟨calls, hpart, hfault⟩ | ⟨content, hpart, hfault⟩) hall
    · exact hfault (hall _ hpart)
    · exact hfault (hall _ hpart)

end Part

variable (ε) (id : RegistryId)

/-- Attachments made by calls on an element. Each may come at any time, so the registry is of any
state at each. -/
inductive Attachments.SetBy : Attachments → List (Nat × Decoration κ) → Prop where
  | empty : SetBy {} []
  | decorate {a : Attachments} {calls : List (Nat × Decoration κ)} (d : Decoration κ)
      (r : Reactor ε κ) :
      SetBy a calls → SetBy (a.decorate id d r).1 (calls ++ [((r.registries id).size, d)])

namespace Tree

mutual

/-- The parts of a tree in the order in which they are written. A group has those of its children,
in its place. -/
inductive Consists : Tree → List (Part κ) → Prop where
  | text (content : String) : Consists (.text content) [.text content]
  | button {a : Attachments} {calls : List (Nat × Decoration κ)} (label : String) :
      a.SetBy ε id calls → Consists (.button label a) [.settings calls, .text label]
  | container {children : List Tree} {a : Attachments} {calls : List (Nat × Decoration κ)}
      {parts : List (Part κ)} (tag : Tag) : ConsistAll children parts → a.SetBy ε id calls →
      Consists (.container tag children a) (.settings calls :: parts)
  | group {children : List Tree} {parts : List (Part κ)} : ConsistAll children parts →
      Consists (.group children) parts

inductive ConsistAll : List Tree → List (Part κ) → Prop where
  | nil : ConsistAll [] []
  | cons {t : Tree} {rest : List Tree} {parts others : List (Part κ)} : Consists t parts →
      ConsistAll rest others → ConsistAll (t :: rest) (parts ++ others)

end

variable {ε id}

theorem consistAll_append {ts : List Tree} {t : Tree} {parts others : List (Part κ)}
    (h : ConsistAll ε id ts parts) (ht : t.Consists ε id others) :
    ConsistAll ε id (ts ++ [t]) (parts ++ others) := by
  induction ts generalizing parts with
  | nil =>
    cases h
    have hone := ConsistAll.cons ht .nil
    rwa [List.append_nil] at hone
  | cons first rest ih =>
    cases h with
    | cons hfirst hrest =>
      rw [List.append_assoc]
      exact .cons hfirst (ih hrest)

end Tree

variable {ε id}

/-! ## What a check refuses -/

/-- The answer of a check that has an error to report, or none. -/
def refuse : Option Error → Except Error Unit
  | none => .ok ()
  | some e => .error e

namespace Instruction

theorem fieldLength_check (what : String) (bytes : List UInt8) :
    (do let _ ← fieldLength what bytes) =
      refuse (if 255 < bytes.length then some (.unfitField what bytes.length) else none) := by
  rw [fieldLength_bind]
  by_cases h : bytes.length ≤ maxField
  · have hfits : ¬ 255 < bytes.length := Nat.not_lt.mpr h
    rw [if_pos h, if_neg hfits]
    rfl
  · have hlong : 255 < bytes.length := Nat.lt_of_not_le h
    rw [if_neg h, if_pos hlong]
    rfl

theorem check_textNode (content : String) :
    (textNode content).check = refuse (Part.text content : Part κ).fault? :=
  fieldLength_check "text" (Text.utf8 content)

theorem check_setAttribute (registered : Nat) (key value : String) :
    (setAttribute key value).check =
      refuse ((Decoration.attribute key value : Decoration κ).fault? registered) := by
  rw [check, keyLength_bind, fieldLength_check, Decoration.fault?]
  by_cases h : (Text.utf8 key).length ≤ maxKey
  · have hfits : ¬ 254 < (Text.utf8 key).length := Nat.not_lt.mpr h
    rw [if_pos h, if_neg hfits]
  · have hlong : 254 < (Text.utf8 key).length := Nat.lt_of_not_le h
    rw [if_neg h, if_pos hlong]
    rfl

theorem check_eventListener {registered : Nat} (h : registered < 256) (event : String)
    (callback : κ) (index : UInt8) :
    (eventListener event index).check =
      refuse ((Decoration.listener event callback).fault? registered) := by
  rw [check, fieldLength_check, Decoration.fault?, if_neg (Nat.not_le.mpr h)]
  by_cases hempty : event = ""
  · subst hempty
    rfl
  · rw [if_neg hempty, if_neg (by simpa using hempty)]

theorem check_createElement (tag : Tag) : (createElement tag.name).check = refuse none := by
  cases tag <;> rfl

end Instruction

/-! ## Steps that fail -/

/-- How a step of writing ends that has an error to report, or none. -/
def ending (d : Draft) : Option Error → EStateM.Result Error Draft Unit
  | none => .ok () d
  | some e => .error e d

/-- A step of writing that fails with one error on every draft that takes writes, or succeeds on all
of them. It does not lock the draft. -/
def FailsWith (w : Write Unit) (fault : Option Error) : Prop :=
  ∀ d, d.locked = false → ∃ d', d'.locked = false ∧ w d = ending d' fault

namespace FailsWith

variable {w v : Write Unit} {fault other : Option Error}

theorem pure : FailsWith (Pure.pure ()) none := fun d hd => ⟨d, hd, rfl⟩

theorem write (bytes : List UInt8) : FailsWith (Draft.write bytes) none := fun d hd =>
  ⟨{ d with bytes := d.bytes ++ bytes }, hd, Draft.write_eq_ok_iff.mpr ⟨hd, rfl⟩⟩

theorem emit {i : Instruction String} (h : i.check = refuse fault) :
    FailsWith (Draft.emit i) fault := by
  intro d hd
  cases fault with
  | none =>
    obtain ⟨d', hd', hw⟩ := write i.toBytes.layout d hd
    exact ⟨d', hd', Draft.emit_eq_ok_iff.mpr ⟨_, Instruction.encode_eq_ok_iff.mpr ⟨h, rfl⟩, hw⟩⟩
  | some e =>
    have hencode : i.encode = .error e := by
      rw [Instruction.encode, h]
      rfl
    refine ⟨d, hd, ?_⟩
    rw [Draft.emit, hencode]
    rfl

theorem appendChild : FailsWith (Draft.emit .appendChild) none := emit rfl

/-- Of two steps, the second is not reached where the first fails. -/
theorem bind (hw : FailsWith w fault) (hv : FailsWith v other) :
    FailsWith (do w; v) (fault.or other) := by
  intro d hd
  obtain ⟨d₁, hd₁, hfirst⟩ := hw d hd
  change ∃ d', d'.locked = false ∧ EStateM.bind w (fun _ => v) d = ending d' (fault.or other)
  unfold EStateM.bind
  rw [hfirst]
  cases fault with
  | none => exact hv d₁ hd₁
  | some e => exact ⟨d₁, hd₁, rfl⟩

theorem check (a : Attachments) : FailsWith a.check a.fault := by
  intro d hd
  refine ⟨d, hd, ?_⟩
  unfold Attachments.check
  cases a.fault <;> rfl

/-- An element fails with the error of its own calls, or with that of what it has inside. -/
theorem element (a : Attachments) {tag : String}
    (htag : (Instruction.createElement tag).check = refuse none) (hw : FailsWith w fault) :
    FailsWith (do
      a.check
      Draft.emit (.createElement tag)
      Draft.write a.attributes.bytes
      w) (a.fault.or fault) :=
  (check a).bind ((emit htag).bind ((write _).bind hw))

end FailsWith

/-- The first error of some steps of writing, each of which fails or succeeds on every draft. -/
inductive FailsFirst : List (Write Unit) → Option Error → Prop where
  | nil : FailsFirst [] none
  | cons {w : Write Unit} {rest : List (Write Unit)} {fault other : Option Error} :
      FailsWith w fault → FailsFirst rest other → FailsFirst (w :: rest) (fault.or other)

namespace FailsFirst

variable {w : Write Unit} {ws vs : List (Write Unit)} {fault other : Option Error}

theorem single (h : FailsWith w fault) : FailsFirst [w] fault := by
  have hone := cons h nil
  rwa [Option.or_none] at hone

theorem append (h : FailsFirst ws fault) (h' : FailsFirst vs other) :
    FailsFirst (ws ++ vs) (fault.or other) := by
  induction h with
  | nil => exact h'
  | cons hfirst _ ih =>
    rw [Option.or_assoc]
    exact cons hfirst ih

theorem inOrder (h : FailsFirst ws fault) : FailsWith (Tree.inOrder ws) fault := by
  induction h with
  | nil => exact .pure
  | cons hfirst _ ih => exact hfirst.bind ih

theorem appended (h : FailsFirst ws fault) :
    FailsFirst (ws.map fun child => do child; Draft.emit .appendChild) fault := by
  induction h with
  | nil => exact nil
  | cons hfirst _ ih =>
    have happend := hfirst.bind .appendChild
    rw [Option.or_none] at happend
    exact cons happend ih

theorem appendEach (between : List UInt8) (h : FailsFirst ws fault) :
    FailsWith (Tree.appendEach between ws) fault := by
  cases h with
  | nil => exact .pure
  | cons hfirst hrest =>
    have hinner := FailsWith.appendChild.bind hrest.appended.inOrder
    exact hfirst.bind ((FailsWith.write between).bind hinner)

end FailsFirst

/-! ## Calls -/

namespace Attachments

/-- Both drafts take writes. -/
def Open (a : Attachments) : Prop := a.attributes.locked = false ∧ a.listeners.locked = false

/-- What setting an attribute comes to: the attachments stay open, and keep the error if they have
none yet. -/
theorem setAttribute_spec {a : Attachments} (h : a.Open) (registered : Nat) (key value : String) :
    (a.setAttribute key value).Open ∧ (a.setAttribute key value).fault =
      a.fault.or ((Decoration.attribute key value : Decoration κ).fault? registered) := by
  obtain ⟨d, hd, hemit⟩ :=
    FailsWith.emit (Instruction.check_setAttribute registered key value) a.attributes h.1
  unfold setAttribute
  rw [hemit]
  cases (Decoration.attribute key value).fault? registered with
  | none => exact ⟨⟨hd, h.2⟩, Option.or_none.symm⟩
  | some e => exact ⟨⟨hd, h.2⟩, rfl⟩

theorem listen_spec {a : Attachments} (h : a.Open) {registered : Nat} (hr : registered < 256)
    (event : String) (callback : κ) (index : UInt8) :
    (a.listen event (.ok index)).Open ∧ (a.listen event (.ok index)).fault =
      a.fault.or ((Decoration.listener event callback).fault? registered) := by
  obtain ⟨d, hd, hemit⟩ :=
    FailsWith.emit (Instruction.check_eventListener hr event callback index) a.listeners h.2
  unfold listen
  simp only [hemit]
  cases (Decoration.listener event callback).fault? registered with
  | none => exact ⟨⟨h.1, hd⟩, Option.or_none.symm⟩
  | some e => exact ⟨⟨h.1, hd⟩, rfl⟩

/-- What one more call comes to: the attachments stay open and keep the error if they have none yet,
and a listener takes a number while there are any. -/
theorem decorate_spec {a : Attachments} (h : a.Open) (d : Decoration κ) (r : Reactor ε κ) :
    (a.decorate id d r).1.Open ∧
      (a.decorate id d r).1.fault = a.fault.or (d.fault? (r.registries id).size) ∧
      ((a.decorate id d r).2.registries id).size =
        d.registeredAfter (r.registries id).size := by
  cases d with
  | «attribute» key value =>
    obtain ⟨hopen, hfault⟩ := setAttribute_spec (κ := κ) h (r.registries id).size key value
    exact ⟨hopen, hfault, rfl⟩
  | listener event callback =>
    change (a.listen event (r.register id callback).1).Open ∧
      (a.listen event (r.register id callback).1).fault = _ ∧
      ((r.register id callback).2.registries id).size = _
    rw [Decoration.registeredAfter]
    by_cases hr : (r.registries id).size < 256
    · obtain ⟨index, hindex, hsize⟩ := Reactor.register_of_lt hr callback
      obtain ⟨hopen, hfault⟩ := listen_spec h hr event callback index
      rw [hindex, hsize, if_pos hr]
      exact ⟨hopen, hfault, rfl⟩
    · rw [Reactor.register_of_le (Nat.not_lt.mp hr), if_neg hr, Decoration.fault?,
        if_pos (Nat.not_lt.mp hr)]
      exact ⟨h, rfl, rfl⟩

/-- What calls come to: the attachments are open, and their error is that of the first call that has
one. -/
theorem SetBy.spec {a : Attachments} {calls : List (Nat × Decoration κ)} (h : a.SetBy ε id calls) :
    a.Open ∧ a.fault = (Part.settings calls).fault? := by
  induction h with
  | empty => exact ⟨⟨rfl, rfl⟩, rfl⟩
  | decorate d r _ ih =>
    obtain ⟨hopen, hfault, -⟩ := decorate_spec ih.1 d r
    refine ⟨hopen, ?_⟩
    rw [hfault, ih.2, Part.fault?, Part.fault?, List.findSome?_append]
    simp

end Attachments

/-! ## The first part at fault -/

namespace Tree

theorem failsFirst_text (content : String) :
    FailsFirst [Draft.emit (.textNode content)]
      (Part.firstFault? [(.text content : Part κ)]) := by
  rw [Part.firstFault?_cons]
  exact .cons (.emit (Instruction.check_textNode content)) .nil

/-- A container fails with the error of its own calls, or where its children do. The empty text that
it may get in place of children can be written. -/
theorem failsFirst_container {fault : Option Error} (tag : Tag) (a : Attachments)
    {children : List Tree} (h : FailsFirst (stepsAll children) fault) :
    FailsFirst (container tag children a).steps (a.fault.or fault) := by
  rw [steps]
  refine .single (.element a (Instruction.check_createElement tag) ?_)
  generalize stepsAll children = ws at h
  cases h with
  | nil =>
    by_cases hl : a.listeners.bytes = []
    · simp only [if_pos hl]
      exact .pure
    · simp only [if_neg hl]
      exact (FailsFirst.single (.emit (i := .textNode "") rfl)).appendEach _
  | cons hfirst hrest => exact (FailsFirst.cons hfirst hrest).appendEach _

mutual

/-- The steps of a tree fail where its parts do. -/
theorem Consists.failsFirst {t : Tree} {parts : List (Part κ)} :
    t.Consists ε id parts → FailsFirst t.steps (Part.firstFault? parts)
  | .text content => failsFirst_text content
  | @Consists.button _ _ _ a calls label h => by
    rw [Part.firstFault?_cons, ← h.spec.2]
    exact .single (.element a rfl ((failsFirst_text label).appendEach _))
  | .container tag hchildren h => by
    rw [Part.firstFault?_cons, ← h.spec.2]
    exact failsFirst_container tag _ hchildren.failsFirst
  | .group hchildren => by
    rw [steps]
    exact hchildren.failsFirst

theorem ConsistAll.failsFirst {ts : List Tree} {parts : List (Part κ)} :
    ConsistAll ε id ts parts → FailsFirst (stepsAll ts) (Part.firstFault? parts)
  | .nil => .nil
  | .cons hfirst hrest => by
    rw [Part.firstFault?_append]
    exact hfirst.failsFirst.append hrest.failsFirst

end

variable {t : Tree} {parts : List (Part κ)}

/-- Writing a tree into an empty draft ends as its parts say. -/
theorem Consists.encode_eq_error_iff (h : t.Consists ε id parts) {e : Error} :
    t.encode = .error e ↔ Part.firstFault? parts = some e := by
  obtain ⟨d, -, hd⟩ := h.failsFirst.inOrder {} rfl
  have hemit : t.emit {} = ending d (Part.firstFault? parts) := hd
  unfold encode
  rw [hemit]
  cases Part.firstFault? parts with
  | none => simp [ending]
  | some f => simp [ending]

end Tree

/-! ## Sketches -/

section

variable (id)

/-- The call that sets a decoration. A listener registers its callback. -/
def Decoration.call : Decoration κ → StateM (Reactor ε κ) (Nat × Decoration κ)
  | «attribute» key value => return (((← get).registries id).size, .attribute key value)
  | listener event callback => do
    let registered := ((← get).registries id).size
    let _ ← modifyGet (·.register id callback)
    return (registered, .listener event callback)

def Decoration.callAll (calls : List (Nat × Decoration κ)) :
    List (Decoration κ) → StateM (Reactor ε κ) (List (Nat × Decoration κ))
  | [] => return calls
  | d :: rest => do
    let call ← d.call id
    callAll (calls ++ [call]) rest

/-- The calls on a container so far, and the parts of its children. -/
structure Inventory (κ : Type) where
  calls : List (Nat × Decoration κ) := []
  inside : List (Part κ) := []

namespace Sketch

mutual

/-- The parts of the tree that a sketch builds, read off the sketch. -/
def parts : Sketch κ → StateM (Reactor ε κ) (List (Part κ))
  | text content => return [.text content]
  | button label decorations => do
    let calls ← Decoration.callAll id [] decorations
    return [.settings calls, .text label]
  | container children changes => do
    let inside ← partsAll children
    let i ← partsChanges { inside } changes
    return .settings i.calls :: i.inside
  | group children => partsAll children

def partsAll : List (Sketch κ) → StateM (Reactor ε κ) (List (Part κ))
  | [] => return []
  | s :: rest => do
    let first ← parts s
    let others ← partsAll rest
    return first ++ others

def partsChange (i : Inventory κ) : Change κ → StateM (Reactor ε κ) (Inventory κ)
  | .decorate d => do
    let call ← d.call id
    return { i with calls := i.calls ++ [call] }
  | .setTag _ => return i
  | .addChild s => do
    let others ← parts s
    return { i with inside := i.inside ++ others }

def partsChanges (i : Inventory κ) : List (Change κ) → StateM (Reactor ε κ) (Inventory κ)
  | [] => return i
  | c :: rest => do
    let i ← partsChange i c
    partsChanges i rest

end

end Sketch

end

theorem together_call {a : Attachments} {calls : List (Nat × Decoration κ)}
    (h : a.SetBy ε id calls) (d : Decoration κ) :
    Together (ε := ε) (fun a call => a.SetBy ε id (calls ++ [call])) (a.decorate id d)
      (d.call id) := by
  intro r
  cases d with
  | «attribute» key value => exact ⟨.decorate (.attribute key value) r h, rfl⟩
  | listener event callback => exact ⟨.decorate (.listener event callback) r h, rfl⟩

theorem together_callAll {a : Attachments} {calls : List (Nat × Decoration κ)}
    (h : a.SetBy ε id calls) (ds : List (Decoration κ)) :
    Together (ε := ε) (Attachments.SetBy ε id) (a.decorateAll id ds)
      (Decoration.callAll id calls ds) := by
  induction ds generalizing a calls with
  | nil => exact .pure h
  | cons d rest ih => exact .bind (together_call h d) fun _ _ h => ih h

/-- A container has the calls and the parts inside that are listed. -/
structure Workpiece.Consists (ε : Type) (id : RegistryId) (w : Workpiece) (i : Inventory κ) :
    Prop where
  children : Tree.ConsistAll ε id w.children i.inside
  attachments : w.attachments.SetBy ε id i.calls

namespace Sketch

mutual

theorem together_parts : (s : Sketch κ) →
    Together (ε := ε) (Tree.Consists ε id) (s.build id) (s.parts id)
  | text content => .pure (.text content)
  | button label decorations =>
    .bind (together_callAll .empty decorations) fun _ _ h => .pure (.button label h)
  | container children changes =>
    .bind (together_partsAll children) fun _ _ hchildren =>
      .bind (together_partsChanges ⟨hchildren, .empty⟩ changes) fun w _ h =>
        .pure (.container w.tag h.children h.attachments)
  | group children => by
    have h : Together (ε := ε) (Tree.Consists ε id) (build id (group children))
        (partsAll id children >>= pure) :=
      .bind (together_partsAll children) fun _ _ h => .pure (.group h)
    rwa [bind_pure] at h

theorem together_partsAll : (ss : List (Sketch κ)) →
    Together (ε := ε) (Tree.ConsistAll ε id) (buildAll id ss) (partsAll id ss)
  | [] => .pure .nil
  | s :: rest =>
    .bind (together_parts s) fun _ _ hfirst =>
      .bind (together_partsAll rest) fun _ _ hrest => .pure (.cons hfirst hrest)

theorem together_partsChange {w : Workpiece} {i : Inventory κ} (h : w.Consists ε id i) :
    (c : Change κ) →
    Together (ε := ε) (Workpiece.Consists ε id) (change id w c) (partsChange id i c)
  | .decorate d => .bind (together_call h.attachments d) fun _ _ ha => .pure ⟨h.children, ha⟩
  | .setTag _ => .pure ⟨h.children, h.attachments⟩
  | .addChild s =>
    .bind (together_parts s) fun _ _ ht =>
      .pure ⟨Tree.consistAll_append h.children ht, h.attachments⟩

theorem together_partsChanges {w : Workpiece} {i : Inventory κ} (h : w.Consists ε id i) :
    (cs : List (Change κ)) →
    Together (ε := ε) (Workpiece.Consists ε id) (changeAll id w cs) (partsChanges id i cs)
  | [] => .pure h
  | c :: rest => .bind (together_partsChange h c) fun _ _ h => together_partsChanges h rest

end

end Sketch

/-! ## When writing fails -/

/-- **A tree cannot be written just where a part has a fault, and the error is the first.** What is
set on an element keeps the error of the first call that has one, and each listener takes a number
while there are any, even if it cannot be set. A tree fails where a call on an element has a fault
or a text is too long, with the first of these in the order of its parts. Every sketch builds a tree
of the parts that are read off it, where each call comes with the number of callbacks registered
before it. -/
theorem Tree.encode_fails_at_first_fault (ε : Type) {κ : Type} (id : RegistryId) :
    (∀ (a : Attachments) (calls : List (Nat × Decoration κ)), a.SetBy ε id calls →
      a.fault = (calls.findSome? fun call => call.2.fault? call.1) ∧
      ∀ (d : Decoration κ) (r : Reactor ε κ),
        (a.decorate id d r).1.fault = a.fault.or (d.fault? (r.registries id).size) ∧
        ((a.decorate id d r).2.registries id).size =
          d.registeredAfter (r.registries id).size) ∧
    (∀ (t : Tree) (parts : List (Part κ)), t.Consists ε id parts →
      (∀ e, t.encode = .error e ↔ Part.firstFault? parts = some e) ∧
      ((∃ e, t.encode = .error e) ↔
        (∃ calls, .settings calls ∈ parts ∧ ∃ call ∈ calls, call.2.fault? call.1 ≠ none) ∨
        ∃ content, .text content ∈ parts ∧ 255 < (Text.utf8 content).length)) ∧
    ∀ (s : Sketch κ) (r : Reactor ε κ),
      (s.build id r).1.Consists ε id (s.parts id r).1 ∧ (s.build id r).2 = (s.parts id r).2 := by
  refine ⟨fun a calls h => ⟨h.spec.2, fun d r => ?_⟩, fun t parts h => ⟨fun e => ?_, ?_⟩, ?_⟩
  · obtain ⟨-, hfault, hsize⟩ := Attachments.decorate_spec h.spec.1 d r
    exact ⟨hfault, hsize⟩
  · exact h.encode_eq_error_iff
  · simp only [h.encode_eq_error_iff]
    exact Part.exists_firstFault?_iff parts
  · exact fun s r => Sketch.together_parts s r

/-- An event without a name is set on a button: the tree fails with it, and the callback has a number
all the same. With a text that is too long in front, the tree fails with the text. -/
theorem Tree.encode_fails_at_first_fault_text :
    let long := String.ofList (List.replicate 256 'x')
    let s : Sketch String := .container [.button "ok" [.listener "" "alert"]] [.addChild (.text "y")]
    let behind : Sketch String := .group [.text long, s]
    let r : Reactor Unit String := { embedder := () }
    (s.build 7 r).1.encode = .error (.unfitField "event name" 0) ∧
      ((s.build 7 r).2.registries 7).size = 1 ∧
      (behind.build 7 r).1.encode = .error (.unfitField "text" 256) := by
  intro long s behind r
  have hlength : (Text.utf8 long).length = 256 := by
    rw [Text.utf8, String.toList_ofList]
    decide +kernel
  have hlong : (Part.text long : Part String).fault? = some (.unfitField "text" 256) := by
    rw [Part.fault?, hlength]
    rfl
  have hfirst : Part.firstFault? (behind.parts 7 r).1 = some (.unfitField "text" 256) := by
    change Part.firstFault? (.text long :: (s.parts 7 r).1) = _
    rw [Part.firstFault?_cons, hlong, Option.some_or]
  obtain ⟨-, hfails, hparts⟩ := encode_fails_at_first_fault Unit (κ := String) 7
  refine ⟨?_, ?_, ?_⟩
  · exact ((hfails _ _ (hparts s r).1).1 _).mpr rfl
  · rw [(hparts s r).2]
    rfl
  · exact ((hfails _ _ (hparts behind r).1).1 _).mpr hfirst

end TreeCode
