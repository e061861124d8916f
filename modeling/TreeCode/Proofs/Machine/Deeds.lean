import TreeCode.Proofs.Document.Reachable
import TreeCode.Proofs.Machine.Requests

/-!
# What a machine does to its nodes

`Deed` lists all that can happen between two moments to the live nodes of a machine, to the
insertions it has put off and to its host. An instruction does one deed (`deed_execute`), whatever
its operands are, and so does a flush; what every deed keeps, every run keeps and every request
(`runOn_keeps`, `perform_keeps`). So what follows about nodes never looks at an instruction again.
-/

namespace TreeCode

variable {σ ν α β : Type}

/-- The nodes that a change joins: the second is put under the first, or after it. -/
def Edit.joined? : Edit ν → Option (ν × ν)
  | .appendChild parent child => some (parent, child)
  | .insertAfter sibling child => some (sibling, child)
  | _ => none

theorem Edit.nodes_of_joined? {e : Edit ν} {pair : ν × ν} (h : e.joined? = some pair) :
    e.nodes = [pair.1, pair.2] := by
  cases e <;> cases h <;> rfl

/-- Whether an instruction can fail so. That a program is unfinished, only a session says. -/
def Error.raised : Error → Bool
  | .unfinished _ => false
  | _ => true

namespace Operands

/-- The access fails only as instructions can. -/
def Raises (access : Access α) : Prop := ∀ {s s' e}, access s = .error e s' → e.raised

theorem raises_push (value : Int32) : Raises (push value) := by
  intro s s' e h
  unfold push at h
  split at h <;> cases h
  rfl

theorem raises_pop : Raises pop := by
  intro s s' e h
  unfold pop at h
  split at h <;> cases h
  rfl

theorem raises_pushText (text : List UInt8) : Raises (pushText text) := by
  intro s s' e h
  unfold pushText at h
  split at h
  · cases h
    rfl
  · simp only at h
    split at h <;> cases h
    rfl

theorem raises_popText (length : Int32) : Raises (popText length) := by
  intro s s' e h
  unfold popText at h
  simp only at h
  split at h
  · cases h
    rfl
  · split at h
    · cases h
      rfl
    · split at h <;> cases h
      rfl

end Operands

namespace SlotTable

variable {t t' : SlotTable ν}

def nodes (t : SlotTable ν) : List ν := t.live.map (·.2)

@[simp] theorem length_nodes (t : SlotTable ν) : t.nodes.length = t.live.length :=
  List.length_map ..

@[simp] theorem nodes_insert (t : SlotTable ν) (node : ν) :
    (t.insert node).2.nodes = node :: t.nodes := rfl

@[simp] theorem created_insert (t : SlotTable ν) (node : ν) :
    (t.insert node).2.created = t.created + 1 := rfl

theorem mem_nodes_of_newest? {entry : SlotId × ν} (h : t.newest? = some entry) :
    entry.2 ∈ t.nodes :=
  List.mem_map_of_mem (List.mem_of_getElem? h)

theorem mem_nodes_of_below? {entry : SlotId × ν} (h : t.below? = some entry) : entry.2 ∈ t.nodes :=
  List.mem_map_of_mem (List.mem_of_getElem? h)

theorem mem_nodes_of_get? {id : SlotId} {node : ν} (h : t.get? id = some node) :
    node ∈ t.nodes := by
  obtain ⟨front, back, hlive, -⟩ := List.lookup_eq_some_iff.mp h
  rw [nodes, hlive]
  simp

theorem nodes_of_consume? {pair : ν × ν} (h : t.consume? = some (pair, t')) :
    (∃ rest, t.nodes = pair.2 :: pair.1 :: rest ∧ t'.nodes = pair.1 :: rest) ∧
      t'.created = t.created := by
  obtain ⟨live, created⟩ := t
  rcases live with _ | ⟨child, _ | ⟨parent, rest⟩⟩
  · cases h
  · cases h
  · cases h
    exact ⟨⟨rest.map (·.2), rfl, rfl⟩, rfl⟩

end SlotTable

namespace Demand

/-- The demand is for a new node, or for a change that joins no nodes and names only live ones. -/
def Modest (t : SlotTable ν) : Demand ν → Prop
  | .create _ => True
  | .edit e => e.joined? = none ∧ ∀ node ∈ e.nodes, node ∈ t.nodes
  | .defer _ _ => False

/-- The demand is to join two nodes, and to do so later only if siblings are put off. -/
inductive Joins (defersSiblings : Bool) (pair : ν × ν) : Demand ν → Prop
  | append : Joins defersSiblings pair (.edit (.appendChild pair.1 pair.2))
  | insert : defersSiblings = false →
      Joins defersSiblings pair (.edit (.insertAfter pair.1 pair.2))
  | defer : defersSiblings = true → Joins defersSiblings pair (.defer pair.1 pair.2)

theorem modest_edit {t : SlotTable ν} {e : Edit ν} (he : e.joined? = none)
    (hnodes : ∀ node ∈ e.nodes, node ∈ t.nodes) : Modest t (.edit e) := ⟨he, hnodes⟩

end Demand

namespace Machine

open Demand (modest_edit)

variable {m m' : Machine ν}

theorem mem_nodes_of_node? {operand : Int32} {node : ν} (h : m.node? operand = some node) :
    node ∈ m.table.nodes := by
  obtain ⟨id, -, hid⟩ := Option.bind_eq_some_iff.mp h
  exact SlotTable.mem_nodes_of_get? hid

/-! ## Steps that read the table -/

/-- The step leaves the table as it is, what it answers is true of the table, and it fails only as
instructions can. -/
structure Reads (step : Step ν α) (answer : SlotTable ν → α → Prop) : Prop where
  ok : ∀ {m m' a}, step m = .ok a m' → m'.table = m.table ∧ answer m.table a
  error : ∀ {m m' e}, step m = .error e m' → m'.table = m.table ∧ e.raised

variable {answer : SlotTable ν → α → Prop}

theorem Reads.mono {answer' : SlotTable ν → α → Prop} {step : Step ν α} (h : Reads step answer)
    (himp : ∀ t a, answer t a → answer' t a) : Reads step answer' where
  ok hs := (h.ok hs).imp_right (himp _ _)
  error := h.error

theorem reads_pure {a : α} (h : ∀ t, answer t a) : Reads (pure a) answer where
  ok hs := by cases hs; exact ⟨rfl, h _⟩
  error hs := by cases hs

theorem reads_throw {e : Error} (he : e.raised) (answer : SlotTable ν → α → Prop) :
    Reads (throw e) answer where
  ok hs := by cases hs
  error hs := by cases hs; exact ⟨rfl, he⟩

theorem Reads.bind {x : Step ν α} {f : α → Step ν β} {found : SlotTable ν → α → Prop}
    {answer : SlotTable ν → β → Prop} (hx : Reads x found)
    (hf : ∀ a, Reads (f a) fun t b => found t a → answer t b) : Reads (x >>= f) answer where
  ok {m m' b} hs := by
    change EStateM.bind x f m = _ at hs
    unfold EStateM.bind at hs
    split at hs
    · rename_i a m₁ hx₁
      obtain ⟨htable, hfound⟩ := hx.ok hx₁
      rw [← htable] at hfound ⊢
      exact ((hf a).ok hs).imp_right fun h => h hfound
    · cases hs
  error {m m' e} hs := by
    change EStateM.bind x f m = _ at hs
    unfold EStateM.bind at hs
    split at hs
    · rename_i a m₁ hx₁
      obtain ⟨htable, he⟩ := (hf a).error hs
      exact ⟨htable.trans (hx.ok hx₁).1, he⟩
    · rename_i e₁ m₁ hx₁
      cases hs
      exact hx.error hx₁

theorem Reads.then {x : Step ν α} {f : α → Step ν β} {answer : SlotTable ν → β → Prop}
    (hx : Reads x fun _ _ => True) (hf : ∀ a, Reads (f a) answer) : Reads (x >>= f) answer :=
  hx.bind fun a => (hf a).mono fun _ _ h _ => h

theorem reads_onOperands {access : Operands.Access α} (h : Operands.Raises access) :
    Reads (ν := ν) (onOperands access) fun _ _ => True where
  ok {m m' a} hs := by
    unfold onOperands at hs
    split at hs <;> cases hs
    exact ⟨rfl, trivial⟩
  error {m m' e} hs := by
    unfold onOperands at hs
    split at hs
    · cases hs
    · rename_i ha
      cases hs
      exact ⟨rfl, h ha⟩

theorem reads_pop : Reads (ν := ν) pop fun _ _ => True := reads_onOperands Operands.raises_pop

theorem reads_popText : Reads (ν := ν) popText fun _ _ => True :=
  reads_pop.then fun length => reads_onOperands (Operands.raises_popText length)

theorem reads_get_bind {f : Machine ν → Step ν α}
    (h : ∀ k, Reads (f k) fun t a => t = k.table → answer t a) :
    Reads (get >>= f) answer where
  ok {m _ _} hs := ((h m).ok (show f m m = _ from hs)).imp_right fun h => h rfl
  error {m _ _} hs := (h m).error (show f m m = _ from hs)

theorem reads_nodeOf (operand : Int32) :
    Reads (ν := ν) (nodeOf operand) fun t node => node ∈ t.nodes := by
  refine reads_get_bind fun k => ?_
  cases hn : k.node? operand with
  | some node => exact reads_pure fun t ht => ht ▸ mem_nodes_of_node? hn
  | none => exact reads_throw rfl _

theorem reads_nodesOf (parent child : Int32) :
    Reads (ν := ν) (nodesOf parent child) fun t pair => pair.1 ∈ t.nodes ∧ pair.2 ∈ t.nodes := by
  refine reads_get_bind fun k => ?_
  cases hp : k.node? parent <;> cases hc : k.node? child
  case some.some p c =>
    exact reads_pure fun t ht => ht ▸ ⟨mem_nodes_of_node? hp, mem_nodes_of_node? hc⟩
  all_goals exact reads_throw rfl _

theorem reads_livingAt {place : SlotTable ν → Option (SlotId × ν)}
    (hplace : ∀ {t entry}, place t = some entry → entry.2 ∈ t.nodes) :
    Reads (livingAt place) fun t node => node ∈ t.nodes := by
  refine reads_get_bind fun k => ?_
  cases hp : place k.table with
  | some entry => exact reads_pure fun t ht => ht ▸ hplace hp
  | none => exact reads_throw rfl _

/-! ## What instructions ask for -/

def consumes : Instruction String → Bool
  | .appendChild | .appendSibling => true
  | _ => false

/-- An instruction that takes nothing from the table asks for something modest. -/
theorem reads_prepare {i : Instruction String} (hi : consumes i = false) :
    Reads (ν := ν) (prepare i) Demand.Modest := by
  cases i with
  | createElement tag =>
    simp only [prepare]
    split
    · exact reads_throw rfl _
    · exact reads_pure fun _ => trivial
  | textNode text => exact reads_pure fun _ => trivial
  | setAttribute key value =>
    exact (reads_livingAt SlotTable.mem_nodes_of_newest?).bind fun node => reads_pure fun t hn =>
      modest_edit rfl (by simpa [Edit.nodes] using hn)
  | eventListener event callback =>
    exact (reads_livingAt SlotTable.mem_nodes_of_below?).bind fun node =>
      reads_get_bind fun _ => reads_pure fun t _ hn =>
        modest_edit rfl (by simpa [Edit.nodes] using hn)
  | appendChild => cases hi
  | appendSibling => cases hi
  | removeChild =>
    exact reads_pop.then fun _ => reads_pop.then fun _ =>
      (reads_nodesOf _ _).bind fun pair => reads_pure fun t hpair =>
        modest_edit rfl (by simpa [Edit.nodes] using hpair)
  | replaceChild =>
    exact reads_pop.then fun _ => reads_pop.then fun _ => reads_pop.then fun _ =>
      (reads_nodesOf _ _).bind fun first => (reads_nodesOf _ _).bind fun second =>
        reads_pure fun t hsecond hfirst =>
          modest_edit rfl (by simpa [Edit.nodes] using ⟨hsecond.1, hsecond.2, hfirst.2⟩)
  | setText =>
    exact reads_popText.then fun _ => reads_pop.then fun _ =>
      (reads_nodeOf _).bind fun node => reads_pure fun t hn =>
        modest_edit rfl (by simpa [Edit.nodes] using hn)
  | removeAttribute =>
    exact reads_popText.then fun _ => reads_pop.then fun _ =>
      (reads_nodeOf _).bind fun node => reads_pure fun t hn =>
        modest_edit rfl (by simpa [Edit.nodes] using hn)
  | style =>
    exact reads_popText.then fun _ => reads_popText.then fun _ => reads_pop.then fun _ =>
      (reads_nodeOf _).bind fun node => reads_pure fun t hn =>
        modest_edit rfl (by simpa [Edit.nodes] using hn)

theorem consume?_of_consume {pair : ν × ν} (h : consume m = .ok pair m') :
    m.table.consume? = some (pair, m'.table) := by
  unfold consume at h
  split at h
  · rename_i hc
    cases h
    exact hc
  · cases h

theorem consume_error {e : Error} (h : consume m = .error e m') :
    m'.table = m.table ∧ e.raised := by
  unfold consume at h
  split at h
  · cases h
  · cases h
    exact ⟨rfl, rfl⟩

theorem defersSiblings_of_consume {pair : ν × ν} (h : consume m = .ok pair m') :
    m'.defersSiblings = m.defersSiblings := by
  rw [blind_consume.local.eq_within_of_ok h]; rfl

/-- An instruction that takes a node from the table asks to join it to the one below. -/
theorem joins_of_prepare {i : Instruction String} (hi : consumes i = true) {demand : Demand ν}
    (h : prepare i m = .ok demand m') :
    ∃ pair, m.table.consume? = some (pair, m'.table) ∧ demand.Joins m.defersSiblings pair := by
  cases i with
  | appendChild =>
    rw [prepare_appendChild] at h
    split at h
    · rename_i parent child k hc
      cases h
      exact ⟨(parent, child), consume?_of_consume hc, .append⟩
    · cases h
  | appendSibling =>
    rw [prepare_appendSibling] at h
    split at h
    · rename_i sibling child k hc
      rw [defersSiblings_of_consume hc] at h
      cases h
      refine ⟨(sibling, child), consume?_of_consume hc, ?_⟩
      cases hd : m.defersSiblings with
      | false => exact .insert rfl
      | true => exact .defer rfl
    · cases h
  | _ => cases hi

theorem prepare_error {i : Instruction String} {e : Error} (h : prepare i m = .error e m') :
    m'.table = m.table ∧ e.raised := by
  cases i with
  | appendChild =>
    rw [prepare_appendChild] at h
    split at h
    · cases h
    · rename_i hc
      cases h
      exact consume_error hc
  | appendSibling =>
    rw [prepare_appendSibling] at h
    split at h
    · cases h
    · rename_i hc
      cases h
      exact consume_error hc
  | _ => exact (reads_prepare rfl).error h

/-! ## Deeds -/

/-- What can happen to the nodes of a machine and to its host between two moments. -/
inductive Deed [Host σ ν] (m m' : Machine ν) (host : σ) : σ → Prop
  | idle : m'.table = m.table → m'.deferred = m.deferred → Deed m m' host host
  | create (request : Creation) :
      m'.table = (m.table.insert (Host.create request host).1).2 → m'.deferred = m.deferred →
      Deed m m' host (Host.create request host).2
  /-- A change to live nodes that joins none. -/
  | edit {e : Edit ν} : e.joined? = none → (∀ node ∈ e.nodes, node ∈ m.table.nodes) →
      m'.table = m.table → m'.deferred = m.deferred → Deed m m' host (Host.edit e host)
  | join {e : Edit ν} {pair : ν × ν} : e.joined? = some pair →
      m.table.consume? = some (pair, m'.table) → m'.deferred = m.deferred →
      Deed m m' host (Host.edit e host)
  | putOff {pair : ν × ν} : m.table.consume? = some (pair, m'.table) →
      m'.deferred = m.deferred ++ [pair] → Deed m m' host host
  | flush : m'.table = m.table → m'.deferred = [] →
      Deed m m' host
        (m.deferred.foldl (fun host pair => Host.edit (.insertAfter pair.1 pair.2) host) host)

variable [Host σ ν] {k : Machine ν} {host : σ}

theorem deed_of_modest {demand : Demand ν} (hd : demand.Modest m.table)
    (htable : k.table = m.table) (hdeferred : k.deferred = m.deferred) :
    Deed m (k.satisfy host demand).machine host (k.satisfy host demand).host := by
  cases demand with
  | create request =>
    obtain ⟨operands, hk⟩ := exists_adopt_eq k (Host.create request host).1
    refine .create request ?_ ?_
    · simp only [satisfy, hk, htable, SlotTable.nodeTable_insert]
    · simp only [satisfy, hk, hdeferred]
  | edit e => exact .edit hd.1 hd.2 htable hdeferred
  | defer sibling child => cases hd

theorem deed_of_joins {demand : Demand ν} {defersSiblings : Bool} {pair : ν × ν}
    (hd : demand.Joins defersSiblings pair) (hc : m.table.consume? = some (pair, k.table))
    (hdeferred : k.deferred = m.deferred) :
    Deed m (k.satisfy host demand).machine host (k.satisfy host demand).host := by
  cases hd with
  | append => exact .join rfl hc hdeferred
  | insert => exact .join rfl hc hdeferred
  | defer => exact .putOff hc (by simp only [satisfy, hdeferred])

/-- An instruction does one deed. -/
theorem deed_execute (i : Instruction String) (m : Machine ν) (host : σ) :
    Deed m (execute i m host).machine host (execute i m host).host := by
  have hlocal : Local (T := SlotTable) (ν := ν) (prepare i) := local_prepare i
  unfold execute
  cases hp : prepare i m with
  | error e k =>
    have hdeferred : k.deferred = m.deferred := by rw [hlocal.eq_within_of_error hp]; rfl
    exact .idle (prepare_error hp).1 hdeferred
  | ok demand k =>
    have hdeferred : k.deferred = m.deferred := by rw [hlocal.eq_within_of_ok hp]; rfl
    cases hi : consumes i with
    | false =>
      obtain ⟨htable, hmodest⟩ := (reads_prepare hi).ok hp
      exact deed_of_modest hmodest htable hdeferred
    | true =>
      obtain ⟨pair, hc, hjoins⟩ := joins_of_prepare hi hp
      exact deed_of_joins hjoins hc hdeferred

/-! ## Failures -/

theorem raised_of_execute {i : Instruction String} {e : Error}
    (h : (execute i m host).result = .error e) : e.raised := by
  unfold execute at h
  cases hp : prepare i m with
  | error e' k =>
    rw [hp] at h
    cases h
    exact (prepare_error hp).2
  | ok demand k =>
    rw [hp] at h
    cases demand <;> cases h

/-- A run does not fail because its program is unfinished. -/
theorem raised_of_runOn {bytes : List UInt8} {e : Error}
    (h : (runOn bytes m host).result = .error e) : e.raised := by
  induction bytes, m, host using runOn_induction with
  | finished m host => rw [runOn_nil] at h; cases h
  | failed bytes m host raw width e' hr he =>
    rw [runOn_of_error hr he] at h
    cases h
    exact raised_of_execute he
  | continued bytes m host raw width hr hok ih =>
    rw [runOn_of_ok hr hok] at h
    exact ih h
  | truncated bytes m host hne hr => rw [runOn_of_truncated hne hr] at h; cases h
  | unknown bytes m host byte hr => rw [runOn_of_unknown hr] at h; cases h
  | undelimited bytes m host found hr =>
    rw [runOn_of_undelimited hr] at h
    cases h
    rfl

/-! ## What every deed keeps -/

section Keeps

variable {P : Machine ν → σ → Prop}
  (hdeed : ∀ (m m' : Machine ν) (host host' : σ), Deed m m' host host' → P m host → P m' host')

include hdeed

theorem execute_keeps (i : Instruction String) (m : Machine ν) (host : σ) (width : Nat)
    (h : P m host) :
    P (execute i (m.advance width) host).machine (execute i (m.advance width) host).host :=
  hdeed _ _ _ _ (deed_execute i _ host) (hdeed m _ host _ (.idle rfl rfl) h)

theorem runOn_keeps (bytes : List UInt8) (m : Machine ν) (host : σ) (h : P m host) :
    P (runOn bytes m host).machine (runOn bytes m host).host := by
  refine runOn_preserves ?_ ?_ bytes m host h
  · intro m host program place hm
    exact hdeed m _ host _ (.idle rfl rfl) hm
  · intro i m host hm
    exact hdeed m _ host _ (deed_execute i m host) hm

theorem alone_keeps {step : Step ν α} (hs : Local step) (ht : Reads step fun _ _ => True)
    (m : Machine ν) (host : σ) (h : P m host) :
    P (m.alone host step).machine (m.alone host step).host := by
  unfold alone
  cases hm : step m with
  | ok a k =>
    exact hdeed m k host _ (.idle (ht.ok hm).1 (by rw [hs.eq_within_of_ok hm]; rfl)) h
  | error e k =>
    exact hdeed m k host _ (.idle (ht.error hm).1 (by rw [hs.eq_within_of_error hm]; rfl)) h

/-- What every deed keeps, every request keeps. -/
theorem perform_keeps (request : Request) (m : Machine ν) (host : σ) (h : P m host) :
    P (m.perform host request).machine (m.perform host request).host := by
  cases request with
  | feed bytes => exact hdeed m _ host _ (.idle rfl rfl) h
  | push value =>
    exact alone_keeps hdeed (blind_onOperands (Operands.push value)).local
      (reads_onOperands (Operands.raises_push value)) m host h
  | pop => exact alone_keeps hdeed blind_pop.local reads_pop m host h
  | pushText text =>
    exact alone_keeps hdeed (blind_onOperands (Operands.pushText (Text.utf8 text))).local
      (reads_onOperands (Operands.raises_pushText _)) m host h
  | run => exact runOn_keeps hdeed m.remaining m host h
  | flush => exact hdeed m _ host _ (.flush rfl rfl) h

/-- What every deed keeps is kept from one moment to all later ones. -/
theorem later_keeps {s s' : Machine ν × σ} (hlater : Later s s') (h : P s.1 s.2) : P s'.1 s'.2 := by
  induction hlater with
  | refl => exact h
  | tail _ hnext ih =>
    cases hnext with
    | request m host request => exact perform_keeps hdeed request m host ih
    | instruction host _ => exact execute_keeps hdeed _ _ host _ ih

end Keeps

/-! ## Nodes are created and never forgotten -/

theorem Deed.created_le {host' : σ} (h : Deed m m' host host') :
    m.table.created ≤ m'.table.created := by
  cases h with
  | create request htable _ =>
    rw [htable]
    exact Nat.le_succ _
  | join _ hc _ | putOff hc _ => exact Nat.le_of_eq (SlotTable.nodes_of_consume? hc).2.symm
  | idle htable _ | edit _ _ htable _ | flush htable _ => exact Nat.le_of_eq (by rw [htable])

theorem created_le_execute (i : Instruction String) (m : Machine ν) (host : σ) :
    m.table.created ≤ (execute i m host).machine.table.created :=
  (deed_execute i m host).created_le

theorem created_le_perform (request : Request) (m : Machine ν) (host : σ) :
    m.table.created ≤ (m.perform host request).machine.table.created := by
  refine perform_keeps (P := fun k (_ : σ) => m.table.created ≤ k.table.created) ?_ request m host
    (Nat.le_refl _)
  intro k k' _ _ hdeed hle
  exact Nat.le_trans hle hdeed.created_le

theorem created_le_runOn (bytes : List UInt8) (m : Machine ν) (host : σ) :
    m.table.created ≤ (runOn bytes m host).machine.table.created := by
  refine runOn_keeps (P := fun k (_ : σ) => m.table.created ≤ k.table.created) ?_ bytes m host
    (Nat.le_refl _)
  intro k k' _ _ hdeed hle
  exact Nat.le_trans hle hdeed.created_le

end Machine

end TreeCode
