import TreeCode.Proofs.Document.Reachable
import TreeCode.Proofs.Machine.Locality

/-!
# Machines under other handles

A machine never looks into a handle: it finds its nodes by their slots and their places in the
table. So if its nodes go by other handles (`Machine.rename`), each step goes the same way and
answers the same under those handles (`Renames`); above all, an instruction asks for the same
(`renames_prepare`).
-/

namespace TreeCode

variable {ν μ α β γ δ : Type}

def Demand.map (f : ν → μ) : Demand ν → Demand μ
  | .create request => .create request
  | .edit request => .edit (request.map f)
  | .defer sibling child => .defer (f sibling) (f child)

namespace SlotTable

def rename (f : ν → μ) (t : SlotTable ν) : SlotTable μ := ⟨t.live.map (Prod.map id f), t.created⟩

variable (f : ν → μ) (t : SlotTable ν)

theorem get?_rename (id : SlotId) : (t.rename f).get? id = (t.get? id).map f := by
  unfold get? rename
  induction t.live with
  | nil => rfl
  | cons entry rest ih =>
    rw [List.map_cons, Prod.map, List.lookup_cons, List.lookup_cons, ih]
    change (match id == entry.1 with | true => _ | false => _) = _
    cases id == entry.1 <;> rfl

theorem newest?_rename : (t.rename f).newest? = t.newest?.map (Prod.map id f) :=
  List.getElem?_map ..

theorem below?_rename : (t.rename f).below? = t.below?.map (Prod.map id f) :=
  List.getElem?_map ..

theorem newestPair_rename : (t.rename f).newestPair = t.newestPair := by
  simp only [newestPair, below?_rename, newest?_rename, Option.map_map]
  rfl

theorem consume?_rename :
    (t.rename f).consume? = t.consume?.map (Prod.map (Prod.map f f) (rename f)) := by
  obtain ⟨live, created⟩ := t
  rcases live with _ | ⟨child, _ | ⟨parent, rest⟩⟩ <;> rfl

end SlotTable

namespace Machine

def rename (f : ν → μ) (m : Machine ν) : Machine μ where
  program := m.program
  place := m.place
  operands := m.operands
  table := m.table.rename f
  defersSiblings := m.defersSiblings
  deferred := m.deferred.map (Prod.map f f)
  registry := m.registry

@[simp] theorem operands_rename (f : ν → μ) (m : Machine ν) :
    (m.rename f).operands = m.operands := rfl

@[simp] theorem table_rename (f : ν → μ) (m : Machine ν) :
    (m.rename f).table = m.table.rename f := rfl

def renameResult (f : ν → μ) (g : α → β) :
    EStateM.Result Error (Machine ν) α → EStateM.Result Error (Machine μ) β
  | .ok a m => .ok (g a) (m.rename f)
  | .error e m => .error e (m.rename f)

/-- The second step does under other handles what the first does. -/
def Renames (f : ν → μ) (g : α → β) (x : Step ν α) (y : Step μ β) : Prop :=
  ∀ m, y (m.rename f) = renameResult f g (x m)

variable {f : ν → μ} {g : α → β}

/-! ## Steps -/

theorem renames_pure (a : α) : Renames f g (pure a) (pure (g a)) := fun _ => rfl

theorem renames_throw (e : Error) : Renames f g (throw e) (throw e) := fun _ => rfl

theorem Renames.bind {g' : γ → δ} {x : Step ν α} {y : Step μ β} {k : α → Step ν γ}
    {l : β → Step μ δ} (hx : Renames f g x y) (hk : ∀ a, Renames f g' (k a) (l (g a))) :
    Renames f g' (x >>= k) (y >>= l) := by
  intro m
  change EStateM.bind y l _ = renameResult f g' (EStateM.bind x k m)
  unfold EStateM.bind
  rw [hx m]
  cases x m with
  | error e m' => rfl
  | ok a m' => exact hk a m'

theorem renames_get_bind {k : Machine ν → Step ν α} {l : Machine μ → Step μ β}
    (h : ∀ m, Renames f g (k m) (l (m.rename f))) : Renames f g (get >>= k) (get >>= l) :=
  fun m => h m m

theorem renames_onOperands (access : Operands.Access α) :
    Renames f id (onOperands access) (onOperands access) := by
  intro m
  simp only [onOperands, operands_rename]
  cases access m.operands <;> rfl

theorem renames_pop : Renames f id pop pop := renames_onOperands _

theorem renames_popText : Renames f id popText popText :=
  renames_pop.bind fun length => renames_onOperands (Operands.popText length)

theorem node?_rename (m : Machine ν) (operand : Int32) :
    (m.rename f).node? operand = (m.node? operand).map f := by
  unfold node?
  cases SlotId.ofOperand? operand with
  | none => rfl
  | some id => exact m.table.get?_rename f id

theorem renames_nodeOf (operand : Int32) : Renames f f (nodeOf operand) (nodeOf operand) := by
  refine renames_get_bind fun m => ?_
  rw [node?_rename]
  cases m.node? operand with
  | some node => exact renames_pure node
  | none => exact renames_throw _

theorem renames_nodesOf (parent child : Int32) :
    Renames f (Prod.map f f) (nodesOf parent child) (nodesOf parent child) := by
  refine renames_get_bind fun m => ?_
  rw [node?_rename, node?_rename]
  cases m.node? parent <;> cases m.node? child
  case some.some p c => exact renames_pure (p, c)
  all_goals exact renames_throw _

theorem renames_livingAt {place : SlotTable ν → Option (SlotId × ν)}
    {place' : SlotTable μ → Option (SlotId × μ)}
    (h : ∀ t, place' (t.rename f) = (place t).map (Prod.map id f)) :
    Renames f f (livingAt place) (livingAt place') := by
  refine renames_get_bind fun m => ?_
  rw [table_rename, h]
  cases place m.table with
  | some entry => exact renames_pure entry.2
  | none => exact renames_throw _

/-- Which slots the newest nodes have, no handle tells. -/
theorem renames_consume : Renames f (Prod.map f f) consume consume := by
  intro m
  simp only [consume, table_rename, SlotTable.nodeTable_consume?, SlotTable.nodeTable_newestPair,
    SlotTable.consume?_rename, SlotTable.newestPair_rename]
  cases m.table.consume? <;> rfl

/-! ## Instructions -/

theorem renames_prepare (i : Instruction String) :
    Renames f (Demand.map f) (prepare i) (prepare i) := by
  cases i with
  | createElement tag =>
    simp only [prepare]
    split
    · exact renames_throw _
    · exact renames_pure _
  | textNode text => exact renames_pure _
  | setAttribute key value =>
    exact (renames_livingAt (SlotTable.newest?_rename f)).bind fun _ => renames_pure _
  | eventListener event callback =>
    exact (renames_livingAt (SlotTable.below?_rename f)).bind fun _ =>
      renames_get_bind fun _ => renames_pure _
  | appendChild => exact renames_consume.bind fun _ => renames_pure _
  | appendSibling =>
    refine renames_consume.bind fun pair => renames_get_bind fun m => ?_
    change Renames f _ (if m.defersSiblings then _ else _) (if m.defersSiblings then _ else _)
    split
    · exact renames_pure (Demand.defer pair.1 pair.2)
    · exact renames_pure (Demand.edit (.insertAfter pair.1 pair.2))
  | removeChild =>
    exact renames_pop.bind fun _ => renames_pop.bind fun _ =>
      (renames_nodesOf _ _).bind fun _ => renames_pure _
  | replaceChild =>
    exact renames_pop.bind fun _ => renames_pop.bind fun _ => renames_pop.bind fun _ =>
      (renames_nodesOf _ _).bind fun _ => (renames_nodesOf _ _).bind fun _ => renames_pure _
  | setText =>
    exact renames_popText.bind fun _ => renames_pop.bind fun _ =>
      (renames_nodeOf _).bind fun _ => renames_pure _
  | removeAttribute =>
    exact renames_popText.bind fun _ => renames_pop.bind fun _ =>
      (renames_nodeOf _).bind fun _ => renames_pure _
  | style =>
    exact renames_popText.bind fun _ => renames_popText.bind fun _ => renames_pop.bind fun _ =>
      (renames_nodeOf _).bind fun _ => renames_pure _

theorem adopt_rename (f : ν → μ) (m : Machine ν) (node : ν) :
    (m.rename f).adopt (f node) = ((m.adopt node).1, (m.adopt node).2.rename f) := by
  have hinsert : NodeTable.insert (m.rename f).table (f node) =
      ((m.table.insert node).1, (m.table.insert node).2.rename f) := rfl
  simp only [adopt, hinsert, operands_rename]
  cases Operands.push (NodeTable.insert m.table node).1.toOperand m.operands <;> rfl

end Machine

end TreeCode
