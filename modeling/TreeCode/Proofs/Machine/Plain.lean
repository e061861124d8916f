import TreeCode.Proofs.Listing
import TreeCode.Proofs.Machine.Running

/-!
# The plain machine

A machine that builds trees needs no slots, no operand stack and no place in a program. The plain
machine keeps a list of the live nodes, the newest first, each with the number of nodes created
before it, and folds over the instructions of a listing; its listeners refer to one registry. A
machine whose program takes no operands and that puts nothing off does what the plain machine does
with its listing (`run_eq_plain_run`).

`Machine.handles` is what the plain machine knows of a machine, and `Outcome.plain` of an outcome.
Both commute with every instruction (`follows_execute`), so a full operand stack or what lies on it
never shows.
-/

namespace TreeCode

variable {σ ν : Type}

/-- Live nodes with the numbers of nodes created before them, the newest first. -/
abbrev Handles (ν : Type) := List (Nat × ν)

namespace Plain

abbrev Step (σ ν α : Type) := EStateM Error (Handles ν × σ) α

def consume : Step σ ν (ν × ν)
  | ((_, child) :: (number, parent) :: rest, host) =>
    .ok (parent, child) ((number, parent) :: rest, host)
  | (live, host) => .error (.noPair none (live.head?.map fun entry => Int.ofNat entry.1)) (live, host)

theorem bind_of_ok {α β : Type} {x : Step σ ν α} {f : α → Step σ ν β} {s s' : Handles ν × σ}
    {a : α} (h : x s = .ok a s') : (x >>= f) s = f a s' := by
  change EStateM.bind x f s = _
  rw [EStateM.bind, h]

theorem bind_of_error {α β : Type} {x : Step σ ν α} {f : α → Step σ ν β} {s s' : Handles ν × σ}
    {e : Error} (h : x s = .error e s') : (x >>= f) s = .error e s' := by
  change EStateM.bind x f s = _
  rw [EStateM.bind, h]

variable [Host σ ν]

def create (number : Nat) (request : Creation) : Step σ ν Unit := fun (live, host) =>
  .ok () ((number, (Host.create request host).1) :: live, (Host.create request host).2)

def edit (request : Edit ν) : Step σ ν Unit := fun (live, host) =>
  .ok () (live, Host.edit request host)

variable (registry : RegistryId)

/-- Executes an instruction, `number` nodes having been created before it. Instructions that take
operands are skipped. -/
def execute (number : Nat) : Instruction String → Step σ ν Unit
  | .createElement tag =>
    if Text.isBlank tag then throw (.blankTag tag) else create number (.element tag)
  | .textNode text => create number (.text text)
  | .setAttribute key value => do
    match (← get).1 with
    | (_, node) :: _ => edit (.setAttribute node key value)
    | [] => throw (.noNode none)
  | .eventListener event callback => do
    match (← get).1 with
    | _ :: (_, node) :: _ => edit (.listen node event ⟨registry, callback⟩)
    | _ => throw (.noNode none)
  | .appendChild => do
    let (parent, child) ← consume
    edit (.appendChild parent child)
  | .appendSibling => do
    let (sibling, child) ← consume
    edit (.insertAfter sibling child)
  | _ => pure ()

theorem execute_createElement {registry : RegistryId} {tag : String}
    (h : Text.isBlank tag = false) (number : Nat) (s : Handles ν × σ) :
    execute registry number (.createElement tag) s = create number (.element tag) s := by
  simp only [execute, h]
  rfl

variable {registry} {number k : Nat} {node : ν} {entry : Nat × ν} {live : Handles ν} {host : σ}

theorem execute_setAttribute (key value : String) :
    execute registry number (.setAttribute key value) ((k, node) :: live, host) =
      .ok () ((k, node) :: live, Host.edit (.setAttribute node key value) host) := rfl

theorem execute_eventListener (event : String) (callback : UInt8) :
    execute registry number (.eventListener event callback) (entry :: (k, node) :: live, host) =
      .ok () (entry :: (k, node) :: live,
        Host.edit (.listen node event ⟨registry, callback⟩) host) := rfl

theorem execute_appendChild :
    execute registry number .appendChild (entry :: (k, node) :: live, host) =
      .ok () ((k, node) :: live, Host.edit (.appendChild node entry.2) host) := rfl

def creates : Instruction String → Bool
  | .createElement _ | .textNode _ => true
  | _ => false

/-- The number of nodes created after an instruction, `number` having been created before it. -/
def createdAfter (number : Nat) (i : Instruction String) : Nat :=
  if creates i then number + 1 else number

/-- Instructions with the numbers of nodes created before them. -/
def numbered : Nat → List (Instruction String) → List (Nat × Instruction String)
  | _, [] => []
  | number, i :: rest => (number, i) :: numbered (createdAfter number i) rest

variable (registry)

def executeAll (number : Nat) (is : List (Instruction String)) : Step σ ν Unit :=
  (numbered number is).forM fun (number, i) => execute registry number i

/-- How a run ends behind the last instruction of a listing. -/
def finish : Ending → Step σ ν RunState
  | .finished => return .done
  | .unknown _ _ => return .halted
  | .truncated _ => return .pending
  | .undelimited offset found => throw (.undelimitedKey offset found)

def runFrom (number : Nat) (l : Listing) : Step σ ν RunState := do
  executeAll registry number (l.items.map (·.2))
  finish l.ending

def run (l : Listing) : Step σ ν RunState := runFrom registry 0 l

variable {registry}

theorem executeAll_cons_of_ok {number : Nat} {i : Instruction String} {s s' : Handles ν × σ}
    (h : execute registry number i s = .ok () s') (rest : List (Instruction String)) :
    executeAll registry number (i :: rest) s =
      executeAll registry (createdAfter number i) rest s' :=
  bind_of_ok h

theorem runFrom_cons (number offset : Nat) (i : Instruction String) (l : Listing) :
    (runFrom registry number (Listing.cons offset i l) : Step σ ν RunState) =
      execute registry number i >>= fun _ => runFrom registry (createdAfter number i) l := by
  funext s
  change EStateM.bind (EStateM.bind (execute registry number i) _) _ s =
    EStateM.bind (execute registry number i) _ s
  unfold EStateM.bind
  cases execute registry number i s <;> rfl

end Plain

/-- What the plain machine knows of a machine. -/
def Machine.handles (m : Machine ν) : Handles ν :=
  m.table.live.map fun (slot, node) => (slot.index, node)

def Outcome.plain {α : Type} (o : Outcome σ ν α) : EStateM.Result Error (Handles ν × σ) α :=
  match o.result with
  | .ok a => .ok a (o.machine.handles, o.host)
  | .error e => .error e (o.machine.handles, o.host)

/-- The instruction takes no operands, and is not one that `m` would put off. -/
def Machine.Plainly (m : Machine ν) (i : Instruction String) : Prop :=
  i.opcode.usesOperands = false ∧ (i = .appendSibling → m.defersSiblings = false)

namespace Machine

/-! ## One instruction -/

theorem plain_of_ok {α : Type} {o : Outcome σ ν α} {a : α} (h : o.result = .ok a) :
    o.plain = .ok a (o.machine.handles, o.host) := by
  rw [Outcome.plain, h]

theorem plain_of_error {α : Type} {o : Outcome σ ν α} {e : Error} (h : o.result = .error e) :
    o.plain = .error e (o.machine.handles, o.host) := by
  rw [Outcome.plain, h]

variable [Host σ ν] {m : Machine ν}

/-- An outcome is what the plain machine would have left, and the machine still puts off what it
did. -/
structure Follows (o : Outcome σ ν Unit) (m : Machine ν) (i : Instruction String) (host : σ) :
    Prop where
  plain : o.plain = Plain.execute m.registry m.table.created i (m.handles, host)
  created : o.result = .ok () → o.machine.table.created = Plain.createdAfter m.table.created i
  deferred : o.machine.deferred = m.deferred
  defersSiblings : o.machine.defersSiblings = m.defersSiblings
  registry : o.machine.registry = m.registry

theorem follows_satisfy_create (m : Machine ν) (host : σ) (request : Creation)
    {i : Instruction String} (hi : Plain.creates i = true)
    (hx : Plain.execute m.registry m.table.created i (m.handles, host) =
      Plain.create m.table.created request (m.handles, host)) :
    Follows (m.satisfy host (.create request)) m i host := by
  obtain ⟨operands, ha⟩ := exists_adopt_eq m (Host.create request host).1
  have hc : Plain.createdAfter m.table.created i = m.table.created + 1 := by
    rw [Plain.createdAfter, if_pos hi]
  refine ⟨?_, fun _ => ?_, ?_, ?_, ?_⟩
  · rw [hx]
    simp only [satisfy, Outcome.plain, ha]
    rfl
  · rw [hc]
    simp only [satisfy, ha]
    rfl
  · simp only [satisfy, ha]
  · simp only [satisfy, ha]
  · simp only [satisfy, ha]

/-- An instruction does to a machine what the plain machine does with it. What `consume` leaves of
the operand stack is not looked at. -/
theorem follows_execute {i : Instruction String} (hi : m.Plainly i) (host : σ) :
    Follows (execute i m host) m i host := by
  obtain ⟨hoperands, hsibling⟩ := hi
  cases i with
  | createElement tag =>
    by_cases hb : Text.isBlank tag = true
    · have hx : execute (.createElement tag) m host = ⟨.error (.blankTag tag), m, host, []⟩ := by
        simp only [execute, prepare, hb, if_true]
        rfl
      rw [hx]
      refine ⟨?_, (fun hok => by cases hok), rfl, rfl, rfl⟩
      simp only [Plain.execute, hb, if_true]
      rfl
    · have hx : execute (.createElement tag) m host = m.satisfy host (.create (.element tag)) := by
        simp only [execute, prepare, hb]
        rfl
      rw [hx]
      exact follows_satisfy_create m host _ rfl (by simp only [Plain.execute, hb]; rfl)
  | textNode text => exact follows_satisfy_create m host (.text text) rfl rfl
  | setAttribute key value =>
    obtain ⟨program, place, operands, ⟨live, created⟩, defers, deferred, registry⟩ := m
    cases live <;> exact ⟨rfl, fun _ => rfl, rfl, rfl, rfl⟩
  | eventListener event callback =>
    obtain ⟨program, place, operands, ⟨live, created⟩, defers, deferred, registry⟩ := m
    rcases live with _ | ⟨child, _ | ⟨parent, rest⟩⟩ <;> exact ⟨rfl, fun _ => rfl, rfl, rfl, rfl⟩
  | appendChild =>
    obtain ⟨program, place, operands, ⟨live, created⟩, defers, deferred, registry⟩ := m
    rcases live with _ | ⟨child, _ | ⟨parent, rest⟩⟩ <;> exact ⟨rfl, fun _ => rfl, rfl, rfl, rfl⟩
  | appendSibling =>
    obtain ⟨program, place, operands, ⟨live, created⟩, defers, deferred, registry⟩ := m
    obtain rfl : defers = false := hsibling rfl
    rcases live with _ | ⟨child, _ | ⟨parent, rest⟩⟩ <;> exact ⟨rfl, fun _ => rfl, rfl, rfl, rfl⟩
  | _ => cases hoperands

/-! ## A run -/

/-- A run does to a machine what the plain machine does with the listing of the bytes before it. -/
theorem plain_runOn (bytes : List UInt8) (m : Machine ν) (host : σ)
    (hplain : ∀ item ∈ (Listing.ofBytes m.place bytes).items, m.Plainly item.2) :
    (runOn bytes m host).plain =
        Plain.runFrom m.registry m.table.created (Listing.ofBytes m.place bytes)
          (m.handles, host) ∧
      (runOn bytes m host).machine.deferred = m.deferred := by
  induction bytes, m, host using runOn_induction with
  | finished m host =>
    rw [runOn_nil, Listing.ofBytes_nil]
    exact ⟨rfl, rfl⟩
  | failed bytes m host raw width e hr he =>
    rw [Listing.ofBytes_of_complete hr] at hplain ⊢
    have hf := follows_execute (m := m.advance width) (hplain _ List.mem_cons_self) host
    have hx : Plain.execute m.registry m.table.created raw.ofBytes (m.handles, host) = .error e _ :=
      hf.plain.symm.trans (plain_of_error he)
    rw [runOn_of_error hr he, Plain.runFrom_cons, Plain.bind_of_error hx]
    exact ⟨rfl, hf.deferred⟩
  | continued bytes m host raw width hr hok ih =>
    rw [Listing.ofBytes_of_complete hr] at hplain ⊢
    have hf := follows_execute (m := m.advance width) (hplain _ List.mem_cons_self) host
    have hx : Plain.execute m.registry m.table.created raw.ofBytes (m.handles, host) = .ok () _ :=
      hf.plain.symm.trans (plain_of_ok hok)
    have hplace : (execute raw.ofBytes (m.advance width) host).machine.place = m.place + width :=
      place_execute ..
    have hregistry : (execute raw.ofBytes (m.advance width) host).machine.registry = m.registry :=
      hf.registry
    rw [hplace, hregistry, hf.created hok] at ih
    obtain ⟨hrest, hdeferred⟩ := ih fun item hitem =>
      (hplain item (List.mem_cons_of_mem _ hitem)).imp_right fun h hi =>
        hf.defersSiblings.trans (h hi)
    rw [runOn_of_ok hr hok, Plain.runFrom_cons]
    rw [Plain.bind_of_ok hx]
    exact ⟨hrest, hdeferred.trans hf.deferred⟩
  | truncated bytes m host hne hr =>
    rw [runOn_of_truncated hne hr, Listing.ofBytes_of_truncated hne hr]
    exact ⟨rfl, rfl⟩
  | unknown bytes m host byte hr =>
    rw [runOn_of_unknown hr, Listing.ofBytes_of_unknown hr]
    exact ⟨rfl, rfl⟩
  | undelimited bytes m host found hr =>
    rw [runOn_of_undelimited hr, Listing.ofBytes_of_undelimited hr]
    exact ⟨rfl, rfl⟩

theorem plain_run_startOn (host : σ) (program : List UInt8) (settings : Settings)
    (registry : RegistryId) (operands : Operands) (hdefers : Host.defersSiblings host = false)
    (htree : ∀ item ∈ (Listing.ofProgram program).items, item.2.opcode.usesOperands = false) :
    (run ({ startOn host program settings registry with operands } : Machine ν) host).plain =
      Plain.run registry (Listing.ofProgram program) ([], host) :=
  (plain_runOn program { startOn host program settings registry with operands } host fun item hitem =>
    ⟨htree item hitem, fun _ => hdefers⟩).1

/-- **A machine that builds trees is the plain machine.** On a host that keeps its calls and inserts
siblings at once, a program without instructions that take operands ends with the same result, live
nodes and calls as the plain machine on its listing, which knows neither settings nor operands. So
the sizes of the memories and what lies on the operand stack do not matter. -/
theorem run_eq_plain_run (host : σ) (program : List UInt8) (settings : Settings)
    (registry : RegistryId) (operands : Operands) (hdefers : Host.defersSiblings host = false)
    (htree : ∀ item ∈ (Listing.ofProgram program).items, item.2.opcode.usesOperands = false) :
    let traced : Traced σ ν := ⟨host, []⟩
    let machine (settings : Settings) (operands : Operands) : Machine ν :=
      { startOn traced program settings registry with operands }
    ((machine settings operands).run traced).plain =
        Plain.run registry (Listing.ofProgram program) ([], traced) ∧
      ∀ (settings' : Settings) (operands' : Operands),
        ((machine settings' operands').run traced).plain =
          ((machine settings operands).run traced).plain := by
  intro traced machine
  have hrun (settings : Settings) (operands : Operands) :
      ((machine settings operands).run traced).plain =
        Plain.run registry (Listing.ofProgram program) ([], traced) :=
    plain_run_startOn traced program settings registry operands hdefers htree
  exact ⟨hrun settings operands, fun settings' operands' =>
    (hrun settings' operands').trans (hrun settings operands).symm⟩

/-- A paragraph takes a text and a listener, and is then told to stand beside a node that is not
there. There is no room for operands. -/
theorem run_eq_plain_run_lone_sibling :
    let program : List UInt8 := [1, 1, 112, 6, 1, 97, 10, 1, 120, 0, 3, 12]
    let traced : Traced Numbering Nat := ⟨{}, []⟩
    Host.defersSiblings ({} : Numbering) = false ∧
    (∀ item ∈ (Listing.ofProgram program).items, item.2.opcode.usesOperands = false) ∧
    (run ({ startOn traced program {} 4 with operands := Operands.empty 1 0 } : Machine Nat)
        traced).plain =
      .error (.noPair none (some 0)) ([(0, 0)], ⟨{ created := 2 },
        [.create (.element "p") 0, .create (.text "a") 1, .edit (.listen 0 "x" ⟨4, 0⟩),
          .edit (.appendChild 0 1)]⟩) := by
  intro program traced
  have hlisting : Listing.ofProgram program =
      ⟨[(0, .createElement "p"), (3, .textNode "a"), (6, .eventListener "x" 0), (10, .appendChild),
        (11, .appendSibling)], .finished⟩ := by decide +kernel
  have htree : ∀ item ∈ (Listing.ofProgram program).items, item.2.opcode.usesOperands = false := by
    rw [hlisting]
    decide
  refine ⟨rfl, htree, ?_⟩
  rw [(run_eq_plain_run ({} : Numbering) program {} 4 (Operands.empty 1 0) rfl htree).1, hlisting]
  rfl

end Machine

end TreeCode
