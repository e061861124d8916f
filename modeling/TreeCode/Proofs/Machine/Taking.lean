import TreeCode.Proofs.Machine.Deeds
import TreeCode.Proofs.Operands.Texts

/-!
# What instructions take from the operand stack

An instruction takes slots off the operand stack, as many as it gets to before it succeeds or fails,
and writes none (`lowers_prepare`); only a new node's slot is put on, after that. So the stack is
sound at every moment of a machine's life (`Reachable.sound`). Where the accesses go well and the
nodes are named, there is one equation for what each such instruction asks for.
-/

namespace TreeCode.Machine

variable {σ ν α β : Type} {m m' : Machine ν}

theorem bind_of_ok {x : Step ν α} {f : α → Step ν β} {a : α} (h : x m = .ok a m') :
    (x >>= f) m = f a m' := by
  change EStateM.bind x f m = _
  rw [EStateM.bind, h]

theorem get_bind (f : Machine ν → Step ν α) : (get >>= f) m = f m m := rfl

/-! ## Steps that only take -/

/-- The machine after a step, whether or not the step failed. -/
def leftBy (step : Step ν α) (m : Machine ν) : Machine ν :=
  match step m with
  | .ok _ m' => m'
  | .error _ m' => m'

theorem leftBy_of_ok {step : Step ν α} {a : α} (h : step m = .ok a m') : leftBy step m = m' := by
  unfold leftBy
  rw [h]

theorem leftBy_of_error {step : Step ν α} {e : Error} (h : step m = .error e m') :
    leftBy step m = m' := by
  unfold leftBy
  rw [h]

/-- The step takes slots off the operand stack and does no more to it, be it that it fails. -/
def Lowers (step : Step ν α) : Prop :=
  ∀ m : Machine ν, m.operands.Sound → m.operands.Lowered (leftBy step m).operands

theorem lowers_of_eq {step : Step ν α} (h : ∀ m, (leftBy step m).operands = m.operands) :
    Lowers step := by
  intro m hs
  rw [h m]
  exact .refl hs

theorem lowers_pure (a : α) : Lowers (pure a : Step ν α) := lowers_of_eq fun _ => rfl

theorem lowers_throw (e : Error) : Lowers (throw e : Step ν α) := lowers_of_eq fun _ => rfl

theorem Lowers.bind {x : Step ν α} {f : α → Step ν β} (hx : Lowers x) (hf : ∀ a, Lowers (f a)) :
    Lowers (x >>= f) := by
  intro m hs
  have hfirst := hx m hs
  change m.operands.Lowered (leftBy (EStateM.bind x f) m).operands
  unfold leftBy EStateM.bind
  cases hm : x m with
  | error e k => rwa [leftBy_of_error hm] at hfirst
  | ok a k =>
    rw [leftBy_of_ok hm] at hfirst
    exact hfirst.trans hs (hf a k (hfirst.sound hs))

theorem lowers_get_bind {f : Machine ν → Step ν α} (hf : ∀ k, Lowers (f k)) :
    Lowers (get >>= f) := fun m hs => hf m m hs

theorem lowers_pop : Lowers (ν := ν) pop := by
  intro m hs
  unfold leftBy pop onOperands
  cases hp : Operands.pop m.operands with
  | ok value s => exact Operands.Lowered.pop hp
  | error e s =>
    rw [Operands.pop_error hp]
    exact .refl hs

theorem lowers_popText : Lowers (ν := ν) popText := by
  refine lowers_pop.bind fun length m hs => ?_
  unfold leftBy onOperands
  cases hp : Operands.popText length m.operands with
  | ok text s => exact Operands.Lowered.popText hp
  | error e s =>
    rw [Operands.popText_error hp]
    exact .refl hs

theorem lowers_nodeOf (operand : Int32) : Lowers (ν := ν) (nodeOf operand) := by
  refine lowers_get_bind fun k => ?_
  cases k.node? operand with
  | some node => exact lowers_pure node
  | none => exact lowers_throw _

theorem lowers_nodesOf (parent child : Int32) : Lowers (ν := ν) (nodesOf parent child) := by
  refine lowers_get_bind fun k => ?_
  cases k.node? parent <;> cases k.node? child
  case some.some p c => exact lowers_pure (p, c)
  all_goals exact lowers_throw _

theorem lowers_livingAt (place : SlotTable ν → Option (SlotId × ν)) : Lowers (livingAt place) := by
  refine lowers_get_bind fun k => ?_
  cases place k.table with
  | some entry => exact lowers_pure entry.2
  | none => exact lowers_throw _

theorem lowers_consume : Lowers (ν := ν) consume := by
  intro m hs
  unfold leftBy consume
  simp only [SlotTable.nodeTable_consume?, SlotTable.nodeTable_newestPair]
  cases m.table.consume? with
  | none => exact .refl hs
  | some taken =>
    simp only
    split
    · cases hp : Operands.pop m.operands with
      | ok value s => exact Operands.Lowered.pop hp
      | error e s =>
        rw [Operands.pop_error hp]
        exact .refl hs
    · exact .refl hs

theorem lowers_prepare (i : Instruction String) : Lowers (ν := ν) (prepare i) := by
  cases i with
  | createElement tag =>
    simp only [prepare]
    split
    · exact lowers_throw _
    · exact lowers_pure _
  | textNode text => exact lowers_pure _
  | setAttribute key value => exact (lowers_livingAt _).bind fun _ => lowers_pure _
  | eventListener event callback =>
    exact (lowers_livingAt _).bind fun _ => lowers_get_bind fun _ => lowers_pure _
  | appendChild => exact lowers_consume.bind fun _ => lowers_pure _
  | appendSibling =>
    refine lowers_consume.bind fun pair => lowers_get_bind fun k => ?_
    split
    · exact lowers_pure _
    · exact lowers_pure _
  | removeChild =>
    exact lowers_pop.bind fun _ => lowers_pop.bind fun _ =>
      (lowers_nodesOf _ _).bind fun _ => lowers_pure _
  | replaceChild =>
    exact lowers_pop.bind fun _ => lowers_pop.bind fun _ => lowers_pop.bind fun _ =>
      (lowers_nodesOf _ _).bind fun _ => (lowers_nodesOf _ _).bind fun _ => lowers_pure _
  | setText =>
    exact lowers_popText.bind fun _ => lowers_pop.bind fun _ =>
      (lowers_nodeOf _).bind fun _ => lowers_pure _
  | removeAttribute =>
    exact lowers_popText.bind fun _ => lowers_pop.bind fun _ =>
      (lowers_nodeOf _).bind fun _ => lowers_pure _
  | style =>
    exact lowers_popText.bind fun _ => lowers_popText.bind fun _ => lowers_pop.bind fun _ =>
      (lowers_nodeOf _).bind fun _ => lowers_pure _

/-! ## Sound at every moment -/

theorem sound_adopt (h : m.operands.Sound) (node : ν) : (m.adopt node).2.operands.Sound := by
  unfold adopt
  simp only [SlotTable.nodeTable_insert]
  cases hp : Operands.push (m.table.insert node).1.toOperand m.operands with
  | ok u s => exact h.push hp
  | error e s =>
    unfold Operands.push at hp
    split at hp <;> cases hp
    exact h

theorem sound_onOperands {access : Operands.Access α}
    (hok : ∀ {s a s'}, s.Sound → access s = .ok a s' → s'.Sound)
    (herror : ∀ {s e s'}, access s = .error e s' → s' = s) (h : m.operands.Sound) :
    (leftBy (onOperands access) m).operands.Sound := by
  unfold leftBy onOperands
  cases ha : access m.operands with
  | ok a s => exact hok h ha
  | error e s =>
    rw [herror ha]
    exact h

theorem sound_alone {step : Step ν α} {host : σ} (h : (leftBy step m).operands.Sound) :
    (m.alone host step).machine.operands.Sound := by
  unfold alone
  cases hm : step m with
  | ok a k => rwa [leftBy_of_ok hm] at h
  | error e k => rwa [leftBy_of_error hm] at h

variable [Host σ ν] {host : σ}

theorem sound_execute (i : Instruction String) (m : Machine ν) (host : σ) (h : m.operands.Sound) :
    (execute i m host).machine.operands.Sound := by
  have hlowered := lowers_prepare i m h
  unfold execute
  cases hp : prepare i m with
  | error e k =>
    rw [leftBy_of_error hp] at hlowered
    exact hlowered.sound h
  | ok demand k =>
    rw [leftBy_of_ok hp] at hlowered
    have hk : k.operands.Sound := hlowered.sound h
    cases demand with
    | create request => exact sound_adopt hk _
    | edit e => exact hk
    | defer sibling child => exact hk

theorem sound_perform (request : Request) (m : Machine ν) (host : σ) (h : m.operands.Sound) :
    (m.perform host request).machine.operands.Sound := by
  cases request with
  | feed bytes => exact h
  | push value => exact sound_alone (sound_onOperands Operands.Sound.push Operands.push_error h)
  | pop => exact sound_alone ((lowers_pop m h).sound h)
  | pushText text =>
    exact sound_alone (sound_onOperands Operands.Sound.pushText Operands.pushText_error h)
  | run =>
    exact runOn_preserves (P := fun k (_ : σ) => k.operands.Sound) (fun _ _ _ _ hk => hk)
      sound_execute m.remaining m host h
  | flush => exact h

theorem sound_start (program : List UInt8) (defersSiblings : Bool) (settings : Settings)
    (registry : RegistryId) :
    (start program defersSiblings settings registry : Machine ν).operands.Sound :=
  Operands.Sound.empty settings.operandSlots settings.scratchBytes

/-- Machines come about so: one is started, answers requests, and executes the instructions it
stands before. Its host can be in any state each time. -/
inductive Reachable (σ : Type) {ν : Type} [Host σ ν] : Machine ν → Prop
  | start (program : List UInt8) (defersSiblings : Bool) (settings : Settings)
      (registry : RegistryId) : Reachable σ (start program defersSiblings settings registry)
  | request {m : Machine ν} (host : σ) (request : Request) : Reachable σ m →
      Reachable σ (m.perform host request).machine
  | instruction {m : Machine ν} {raw : Instruction (List UInt8)} {width : Nat} (host : σ) :
      Instruction.read m.remaining = .complete raw width → Reachable σ m →
      Reachable σ (execute raw.ofBytes (m.advance width) host).machine

theorem Reachable.sound (h : Reachable σ m) : m.operands.Sound := by
  induction h with
  | start program defersSiblings settings registry =>
    exact sound_start program defersSiblings settings registry
  | request host request _ ih => exact sound_perform request _ host ih
  | instruction host _ _ ih => exact sound_execute _ (advance _ _) host ih

/-! ## What an instruction asks for

Each access to the operand stack is given by its equation, and the nodes by those that name them. -/

section Accesses

variable {s₁ s₂ s₃ s₄ s₅ s₆ : Operands} {value length parent child old new id : Int32}
  {text name : String} {p c o n node : ν}

theorem pop_of_ok (h : Operands.pop s₁ = .ok value s₂) :
    pop { m with operands := s₁ } = .ok value { m with operands := s₂ } := by
  unfold pop onOperands
  rw [h]

theorem popText_of_ok (hlength : Operands.pop s₁ = .ok length s₂)
    (htext : Operands.popText length s₂ = .ok text s₃) :
    popText { m with operands := s₁ } = .ok text { m with operands := s₃ } := by
  rw [popText, bind_of_ok (pop_of_ok hlength)]
  unfold onOperands
  simp only [htext]

theorem nodeOf_of_node? (h : m.node? id = some node) (operands : Operands) :
    nodeOf id { m with operands } = .ok node { m with operands } := by
  have hnode : ({ m with operands } : Machine ν).node? id = some node := h
  rw [nodeOf, get_bind]
  simp only [hnode]
  rfl

theorem nodesOf_of_node? (hp : m.node? parent = some p) (hc : m.node? child = some c)
    (operands : Operands) :
    nodesOf parent child { m with operands } = .ok (p, c) { m with operands } := by
  have hparent : ({ m with operands } : Machine ν).node? parent = some p := hp
  have hchild : ({ m with operands } : Machine ν).node? child = some c := hc
  rw [nodesOf, get_bind]
  simp only [hparent, hchild]
  rfl

theorem prepare_removeChild (hchild : Operands.pop s₁ = .ok child s₂)
    (hparent : Operands.pop s₂ = .ok parent s₃) (hp : m.node? parent = some p)
    (hc : m.node? child = some c) :
    prepare .removeChild { m with operands := s₁ } =
      .ok (.edit (.removeChild p c)) { m with operands := s₃ } := by
  rw [prepare, bind_of_ok (pop_of_ok hchild), bind_of_ok (pop_of_ok hparent),
    bind_of_ok (nodesOf_of_node? hp hc s₃)]
  rfl

theorem prepare_replaceChild (hnew : Operands.pop s₁ = .ok new s₂)
    (hold : Operands.pop s₂ = .ok old s₃) (hparent : Operands.pop s₃ = .ok parent s₄)
    (hp : m.node? parent = some p) (ho : m.node? old = some o) (hn : m.node? new = some n) :
    prepare .replaceChild { m with operands := s₁ } =
      .ok (.edit (.replaceChild p o n)) { m with operands := s₄ } := by
  rw [prepare, bind_of_ok (pop_of_ok hnew), bind_of_ok (pop_of_ok hold),
    bind_of_ok (pop_of_ok hparent), bind_of_ok (nodesOf_of_node? hp hn s₄)]
  exact bind_of_ok (nodesOf_of_node? hp ho s₄)

theorem prepare_setText (hlength : Operands.pop s₁ = .ok length s₂)
    (htext : Operands.popText length s₂ = .ok text s₃) (hid : Operands.pop s₃ = .ok id s₄)
    (hnode : m.node? id = some node) :
    prepare .setText { m with operands := s₁ } =
      .ok (.edit (.setText node text)) { m with operands := s₄ } := by
  rw [prepare, bind_of_ok (popText_of_ok hlength htext), bind_of_ok (pop_of_ok hid),
    bind_of_ok (nodeOf_of_node? hnode s₄)]
  rfl

theorem prepare_removeAttribute (hlength : Operands.pop s₁ = .ok length s₂)
    (htext : Operands.popText length s₂ = .ok text s₃) (hid : Operands.pop s₃ = .ok id s₄)
    (hnode : m.node? id = some node) :
    prepare .removeAttribute { m with operands := s₁ } =
      .ok (.edit (.removeAttribute node text)) { m with operands := s₄ } := by
  rw [prepare, bind_of_ok (popText_of_ok hlength htext), bind_of_ok (pop_of_ok hid),
    bind_of_ok (nodeOf_of_node? hnode s₄)]
  rfl

theorem prepare_style {length' : Int32} (hlength : Operands.pop s₁ = .ok length s₂)
    (hname : Operands.popText length s₂ = .ok name s₃)
    (hlength' : Operands.pop s₃ = .ok length' s₄)
    (htext : Operands.popText length' s₄ = .ok text s₅) (hid : Operands.pop s₅ = .ok id s₆)
    (hnode : m.node? id = some node) :
    prepare .style { m with operands := s₁ } =
      .ok (.edit (.setStyle node name text)) { m with operands := s₆ } := by
  rw [prepare, bind_of_ok (popText_of_ok hlength hname),
    bind_of_ok (popText_of_ok hlength' htext), bind_of_ok (pop_of_ok hid),
    bind_of_ok (nodeOf_of_node? hnode s₆)]
  rfl

end Accesses

end TreeCode.Machine
