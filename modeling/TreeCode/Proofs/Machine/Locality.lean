import TreeCode.Machine.Run

/-!
# What an instruction can see

To prepare an instruction, a machine reads and changes its operand stack and its table, and may read
the number of its registry. A step that does no more is `Local`: set in another machine (`within`)
it goes the same way and leaves the rest of that machine alone. All of `prepare` is local, so
`execute` does not see the program or the place (`execute_relocate`), and changes neither. Most
steps do not even see whether the machine puts siblings off: they are `Blind`, and only the
instruction that puts a sibling is not (`blind_prepare`, `prepare_appendSibling`).
-/

namespace TreeCode.Machine

variable {σ ν α β : Type} {T : Type → Type}

/-- A machine with the operand stack and the table of another. -/
def within (m k : Machine ν T) : Machine ν T :=
  { k with operands := m.operands, table := m.table }

/-- A machine moved to a place of another program. -/
def relocate (m : Machine ν T) (program : List UInt8) (place : Nat) : Machine ν T :=
  { m with program, place }

theorem relocate_self (m : Machine ν T) : m.relocate m.program m.place = m := rfl

def resultWithin (k : Machine ν T) :
    EStateM.Result Error (Machine ν T) α → EStateM.Result Error (Machine ν T) α
  | .ok a m => .ok a (m.within k)
  | .error e m => .error e (m.within k)

/-! ## Blind steps -/

/-- The step reads no more than the operand stack, the table and the number of the registry, and
changes no more than the first two. -/
def Blind (step : StepOn T ν α) : Prop :=
  ∀ m k : Machine ν T, k.registry = m.registry → step (m.within k) = resultWithin k (step m)

theorem eq_within_of_ok {step : StepOn T ν α} {m m' : Machine ν T} {a : α}
    (h : step m = resultWithin m (step m)) (hs : step m = .ok a m') : m' = m'.within m := by
  rw [hs] at h
  exact (EStateM.Result.ok.inj h).2

theorem eq_within_of_error {step : StepOn T ν α} {m m' : Machine ν T} {e : Error}
    (h : step m = resultWithin m (step m)) (hs : step m = .error e m') : m' = m'.within m := by
  rw [hs] at h
  exact (EStateM.Result.error.inj h).2

theorem blind_pure (a : α) : Blind (pure a : StepOn T ν α) := fun _ _ _ => rfl

theorem blind_throw (e : Error) : Blind (throw e : StepOn T ν α) := fun _ _ _ => rfl

theorem Blind.bind {x : StepOn T ν α} {f : α → StepOn T ν β} (hx : Blind x)
    (hf : ∀ a, Blind (f a)) : Blind (x >>= f) := by
  intro m k hk
  change EStateM.bind x f _ = resultWithin k (EStateM.bind x f m)
  unfold EStateM.bind
  rw [hx m k hk]
  cases hs : x m with
  | error e m' => rfl
  | ok a m' =>
    have hm' : m'.registry = m.registry := by rw [eq_within_of_ok (hx m m rfl) hs]; rfl
    exact hf a m' k (hk.trans hm'.symm)

theorem blind_onOperands (access : Operands.Access α) :
    Blind (T := T) (ν := ν) (onOperands access) := by
  intro m k _
  have hoperands : (m.within k).operands = m.operands := rfl
  simp only [onOperands, hoperands]
  cases access m.operands <;> rfl

theorem blind_pop : Blind (T := T) (ν := ν) pop := blind_onOperands _

theorem blind_popText : Blind (T := T) (ν := ν) popText :=
  blind_pop.bind fun length => blind_onOperands (Operands.popText length)

/-- A step that looks at its machine is blind if what it then does is, and does the same at every
machine with that operand stack, table and registry. -/
theorem blind_get_bind {f : Machine ν T → StepOn T ν α} (hf : ∀ m, Blind (f m))
    (h : ∀ m k : Machine ν T, k.registry = m.registry → f (m.within k) = f m) :
    Blind (get >>= f) := by
  intro m k hk
  change f (m.within k) (m.within k) = resultWithin k (f m m)
  rw [h m k hk]
  exact hf m m k hk

theorem blind_livingAt (place : T ν → Option (SlotId × ν)) : Blind (livingAt place) := by
  refine blind_get_bind (fun m => ?_) fun _ _ _ => rfl
  cases place m.table with
  | some entry => exact blind_pure entry.2
  | none => exact blind_throw _

/-! ## Local steps -/

/-- The step reads no more than a blind one and whether siblings are put off, and changes no more
than the operand stack and the table. -/
def Local (step : StepOn T ν α) : Prop :=
  ∀ m k : Machine ν T, k.registry = m.registry → k.defersSiblings = m.defersSiblings →
    step (m.within k) = resultWithin k (step m)

theorem Blind.local {step : StepOn T ν α} (h : Blind step) : Local step := fun m k hk _ => h m k hk

theorem Local.self {step : StepOn T ν α} (h : Local step) (m : Machine ν T) :
    step m = resultWithin m (step m) := h m m rfl rfl

/-- A local step that succeeds leaves the rest of its machine alone. -/
theorem Local.eq_within_of_ok {step : StepOn T ν α} (h : Local step) {m m' : Machine ν T}
    {a : α} (hs : step m = .ok a m') : m' = m'.within m := Machine.eq_within_of_ok (h.self m) hs

/-- And so does one that fails. -/
theorem Local.eq_within_of_error {step : StepOn T ν α} (h : Local step) {m m' : Machine ν T}
    {e : Error} (hs : step m = .error e m') : m' = m'.within m :=
  Machine.eq_within_of_error (h.self m) hs

theorem Local.relocate {step : StepOn T ν α} (h : Local step) (m : Machine ν T) (p : List UInt8)
    (n : Nat) :
    step (m.relocate p n) =
      match step m with
      | .ok a m' => .ok a (m'.relocate p n)
      | .error e m' => .error e (m'.relocate p n) := by
  have hw := h m (m.relocate p n) rfl rfl
  change step (m.relocate p n) = _ at hw
  rw [hw]
  cases hs : step m with
  | ok a m' => rw [h.eq_within_of_ok hs]; rfl
  | error e m' => rw [h.eq_within_of_error hs]; rfl

/-! ## Preparing an instruction -/

variable [NodeTable T]

theorem blind_nodeOf (operand : Int32) : Blind (T := T) (ν := ν) (nodeOf operand) := by
  refine blind_get_bind (fun m => ?_) fun _ _ _ => rfl
  cases m.node? operand with
  | some node => exact blind_pure node
  | none => exact blind_throw _

theorem blind_nodesOf (parent child : Int32) : Blind (T := T) (ν := ν) (nodesOf parent child) := by
  refine blind_get_bind (fun m => ?_) fun _ _ _ => rfl
  cases m.node? parent <;> cases m.node? child
  case some.some p c => exact blind_pure (p, c)
  all_goals exact blind_throw _

theorem blind_consume : Blind (T := T) (ν := ν) consume := by
  intro m k _
  have htable : (m.within k).table = m.table := rfl
  simp only [consume, htable]
  cases NodeTable.consume? m.table <;> rfl

/-- To prepare an instruction is blind, unless the instruction puts a sibling. -/
theorem blind_prepare {i : Instruction String} (hi : i ≠ .appendSibling) :
    Blind (T := T) (ν := ν) (prepare i) := by
  cases i with
  | createElement tag =>
    simp only [prepare]
    split
    · exact blind_throw _
    · exact blind_pure _
  | textNode text => exact blind_pure _
  | setAttribute key value => exact (blind_livingAt _).bind fun _ => blind_pure _
  | eventListener event callback =>
    refine (blind_livingAt _).bind fun _ => blind_get_bind (fun _ => blind_pure _) ?_
    intro m k hk
    rw [show (m.within k).registry = m.registry from hk]
  | appendChild => exact blind_consume.bind fun _ => blind_pure _
  | appendSibling => exact absurd rfl hi
  | removeChild =>
    exact blind_pop.bind fun _ => blind_pop.bind fun _ =>
      (blind_nodesOf _ _).bind fun _ => blind_pure _
  | replaceChild =>
    exact blind_pop.bind fun _ => blind_pop.bind fun _ => blind_pop.bind fun _ =>
      (blind_nodesOf _ _).bind fun _ => (blind_nodesOf _ _).bind fun _ => blind_pure _
  | setText =>
    exact blind_popText.bind fun _ => blind_pop.bind fun _ =>
      (blind_nodeOf _).bind fun _ => blind_pure _
  | removeAttribute =>
    exact blind_popText.bind fun _ => blind_pop.bind fun _ =>
      (blind_nodeOf _).bind fun _ => blind_pure _
  | style =>
    exact blind_popText.bind fun _ => blind_popText.bind fun _ => blind_pop.bind fun _ =>
      (blind_nodeOf _).bind fun _ => blind_pure _

theorem prepare_appendChild (m : Machine ν T) :
    prepare .appendChild m =
      match consume m with
      | .ok (parent, child) m' => .ok (.edit (.appendChild parent child)) m'
      | .error e m' => .error e m' := by
  change EStateM.bind consume _ m = _
  unfold EStateM.bind
  cases consume m <;> rfl

theorem prepare_appendSibling (m : Machine ν T) :
    prepare .appendSibling m =
      match consume m with
      | .ok (sibling, child) m' =>
        .ok (if m'.defersSiblings then .defer sibling child
          else .edit (.insertAfter sibling child)) m'
      | .error e m' => .error e m' := by
  change EStateM.bind consume _ m = _
  unfold EStateM.bind
  cases consume m with
  | error e m' => rfl
  | ok pair m' =>
    change (if m'.defersSiblings then pure _ else pure _ : StepOn T ν (Demand ν)) m' =
      .ok (if m'.defersSiblings then _ else _) m'
    split <;> rfl

theorem local_prepare_appendSibling : Local (T := T) (ν := ν) (prepare .appendSibling) := by
  intro m k hregistry hk
  rw [prepare_appendSibling, prepare_appendSibling, blind_consume m k hregistry]
  cases hc : consume m with
  | error e m' => rfl
  | ok pair m' =>
    have hm' : m'.defersSiblings = m.defersSiblings := by
      rw [blind_consume.local.eq_within_of_ok hc]; rfl
    have hk' : (m'.within k).defersSiblings = m'.defersSiblings := hk.trans hm'.symm
    simp only [resultWithin, hk']

theorem local_prepare (i : Instruction String) : Local (T := T) (ν := ν) (prepare i) := by
  by_cases hi : i = .appendSibling
  · subst hi
    exact local_prepare_appendSibling
  · exact (blind_prepare hi).local

end TreeCode.Machine

namespace TreeCode

variable {σ ν α : Type} {T : Type → Type}

def Outcome.relocate (o : Outcome σ ν α T) (program : List UInt8) (place : Nat) :
    Outcome σ ν α T :=
  { o with machine := o.machine.relocate program place }

namespace Machine

variable [NodeTable T]

/-- A new node becomes the newest, whether or not the operand stack has room for its slot. -/
theorem exists_adopt_eq (m : Machine ν T) (node : ν) :
    ∃ operands,
      (m.adopt node).2 = { m with table := (NodeTable.insert m.table node).2, operands } := by
  unfold adopt
  cases hp : Operands.push (NodeTable.insert m.table node).1.toOperand m.operands with
  | ok u operands => exact ⟨operands, by simp only [hp]⟩
  | error e operands => exact ⟨operands, by simp only [hp]⟩

variable [Host σ ν]

theorem adopt_within (m k : Machine ν T) (node : ν) :
    (m.within k).adopt node = ((m.adopt node).1, (m.adopt node).2.within k) := by
  have htable : (m.within k).table = m.table := rfl
  have hoperands : (m.within k).operands = m.operands := rfl
  simp only [adopt, htable, hoperands]
  cases Operands.push (NodeTable.insert m.table node).1.toOperand m.operands <;> rfl

theorem adopt_relocate (m : Machine ν T) (node : ν) (p : List UInt8) (n : Nat) :
    (m.relocate p n).adopt node = ((m.adopt node).1, (m.adopt node).2.relocate p n) := by
  obtain ⟨operands, ha⟩ := exists_adopt_eq m node
  have hw := adopt_within m (m.relocate p n) node
  rw [ha] at hw ⊢
  exact hw

theorem satisfy_relocate (m : Machine ν T) (host : σ) (demand : Demand ν) (p : List UInt8)
    (n : Nat) :
    (m.relocate p n).satisfy host demand = (m.satisfy host demand).relocate p n := by
  cases demand with
  | create request => simp only [satisfy, adopt_relocate]; rfl
  | edit request => rfl
  | defer sibling child => rfl

theorem execute_relocate (i : Instruction String) (m : Machine ν T) (host : σ) (p : List UInt8)
    (n : Nat) : execute i (m.relocate p n) host = (execute i m host).relocate p n := by
  unfold execute
  rw [(local_prepare i).relocate]
  cases prepare i m with
  | ok demand m' => exact satisfy_relocate m' host demand p n
  | error e m' => rfl

theorem execute_eq_relocate (i : Instruction String) (m : Machine ν T) (host : σ) :
    execute i m host = (execute i m host).relocate m.program m.place := by
  rw [← execute_relocate, relocate_self]

@[simp] theorem program_execute (i : Instruction String) (m : Machine ν T) (host : σ) :
    (execute i m host).machine.program = m.program := by
  rw [execute_eq_relocate]; rfl

@[simp] theorem place_execute (i : Instruction String) (m : Machine ν T) (host : σ) :
    (execute i m host).machine.place = m.place := by
  rw [execute_eq_relocate]; rfl

end Machine

end TreeCode
