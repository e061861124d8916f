import TreeCode.Proofs.Document.Inside
import TreeCode.Proofs.Machine.Renaming
import TreeCode.Proofs.Machine.Workshop

/-!
# The same work inside another document

A machine works on a document that lies inside another. The same machine, its nodes under the names
that they have there, works on the other document: what it asks for comes to the same change there
(`mirrors_satisfy`), and so it answers every request alike (`mirrors_perform`). That the machine
asks for no nodes but those of its document, it owes to its live nodes and the insertions that wait
(`Tends`).
-/

namespace TreeCode

variable {α β : Type} {size : Nat}

/-- The nodes that a demand names have numbers below a bound. -/
def Demand.Bounded (size : Nat) : Demand NodeId → Prop
  | .create _ => True
  | .edit request => ∀ id ∈ request.nodes, id < size
  | .defer sibling child => sibling < size ∧ child < size

namespace Machine

open Document (named Inside Alongside)

variable {m k : Machine NodeId} {a a' d : Document} {names : List NodeId}

/-! ## The nodes that a machine knows -/

/-- The live nodes, and those of insertions put off, have numbers below a bound. -/
structure Bounded (size : Nat) (m : Machine NodeId) : Prop where
  nodes : ∀ id ∈ m.table.nodes, id < size
  deferred : ∀ pair ∈ m.deferred, pair.1 < size ∧ pair.2 < size

theorem Bounded.rename_congr {f g : NodeId → NodeId} (h : m.Bounded size)
    (hfg : ∀ id < size, f id = g id) : m.rename f = m.rename g := by
  have hlive : m.table.live.map (Prod.map id f) = m.table.live.map (Prod.map id g) :=
    List.map_congr_left fun entry hentry =>
      congrArg (Prod.mk entry.1) (hfg _ (h.nodes _ (List.mem_map_of_mem hentry)))
  have hdeferred : m.deferred.map (Prod.map f f) = m.deferred.map (Prod.map g g) :=
    List.map_congr_left fun pair hpair =>
      Prod.ext (hfg _ (h.deferred pair hpair).1) (hfg _ (h.deferred pair hpair).2)
  rw [rename, rename, SlotTable.rename, SlotTable.rename, hlive, hdeferred]

/-- An instruction asks for nodes that the machine knows, and the machine knows no others then. -/
theorem Bounded.prepare {i : Instruction String} {demand : Demand NodeId} (h : m.Bounded size)
    (hp : Machine.prepare i m = .ok demand k) : k.Bounded size ∧ demand.Bounded size := by
  have hdeferred : k.deferred = m.deferred := by rw [(local_prepare i).eq_within_of_ok hp]; rfl
  cases hi : consumes i with
  | false =>
    obtain ⟨htable, hmodest⟩ := (reads_prepare hi).ok hp
    refine ⟨⟨htable ▸ h.nodes, hdeferred ▸ h.deferred⟩, ?_⟩
    cases demand with
    | create request => trivial
    | edit request => exact fun id hid => h.nodes id (hmodest.2 id hid)
    | defer sibling child => cases hmodest
  | true =>
    obtain ⟨pair, hc, hjoins⟩ := joins_of_prepare hi hp
    obtain ⟨⟨rest, hnodes, hnodes'⟩, -⟩ := SlotTable.nodes_of_consume? hc
    have hall := h.nodes
    rw [hnodes, List.forall_mem_cons] at hall
    refine ⟨⟨hnodes' ▸ hall.2, hdeferred ▸ h.deferred⟩, ?_⟩
    have hother : pair.1 < size := hall.2 _ List.mem_cons_self
    cases hjoins with
    | append => simpa [Demand.Bounded, Edit.nodes] using ⟨hother, hall.1⟩
    | insert => simpa [Demand.Bounded, Edit.nodes] using ⟨hother, hall.1⟩
    | defer => exact ⟨hother, hall.1⟩

/-- The document is tended by this machine and no other. -/
def Tends (m : Machine NodeId) (a : Document) : Prop :=
  ∃ order, a.Tended order m.table.nodes m.deferred

theorem Tends.deed {m' : Machine NodeId} (h : m.Tends a) (hdeed : Deed m m' a a') :
    m'.Tends a' := by
  have halone : ∃ order, a.Tended order (m.table.nodes ++ []) (m.deferred ++ []) := by
    simpa only [Tends, List.append_nil] using h
  simpa only [Tends, List.append_nil] using Document.Tended.deed hdeed halone

theorem Tends.bounded (h : m.Tends a) : m.Bounded a.size := by
  obtain ⟨order, h⟩ := h
  refine ⟨fun id hid => (h.free id hid).1, fun pair hpair => ⟨(h.before pair hpair).1, ?_⟩⟩
  exact h.forest.lt_size_of_mem _ (h.before pair hpair).2.mem

/-! ## Outcomes -/

/-- The second outcome is the first, under the names that the nodes have in the outer document. -/
structure Mirrors (names : List NodeId) (a d : Document) (o o' : Outcome Document NodeId α) :
    Prop where
  result : o'.result = o.result
  hosts : ∃ names', Alongside names a d names' o.host o'.host ∧
    o'.machine = o.machine.rename (named names')

theorem Mirrors.map {o o' : Outcome Document NodeId α} (h : Mirrors names a d o o') (f : α → β) :
    Mirrors names a d (o.map f) (o'.map f) :=
  ⟨congrArg (Except.map f) h.result, h.hosts⟩

/-- Names given later do not change those that the machine uses. -/
theorem Bounded.rename_eq {names' : List NodeId} {d' : Document} (hm : m.Bounded a.size)
    (h : Inside names a d) (hlater : Alongside names a d names' a' d') :
    m.rename (named names') = m.rename (named names) :=
  hm.rename_congr fun _ hid => hlater.named_eq h hid

theorem mirrors_satisfy {demand : Demand NodeId} (h : Inside names a d) (hm : m.Bounded a.size)
    (hdemand : demand.Bounded a.size) :
    Mirrors names a d (m.satisfy a demand)
      ((m.rename (named names)).satisfy d (demand.map (named names))) := by
  cases demand with
  | create request =>
    have hcreated := h.create (Document.contentOf request)
    have hname : named (names ++ [d.size]) a.size = d.size := by
      rw [← h.length, Document.named_append_length]
    have hadopted := adopt_rename (named (names ++ [d.size])) m a.size
    rw [hname, hm.rename_eq h hcreated] at hadopted
    refine ⟨rfl, _, hcreated, ?_⟩
    change ((m.rename (named names)).adopt d.size).2 = _
    rw [hadopted]
    rfl
  | edit request =>
    obtain ⟨names', hedited⟩ := h.edit hdemand
    exact ⟨rfl, names', hedited, (hm.rename_eq h hedited).symm⟩
  | defer sibling child =>
    refine ⟨rfl, names, .refl h, ?_⟩
    simp only [satisfy, Demand.map, rename, List.map_append]
    rfl

theorem mirrors_execute (i : Instruction String) (h : Inside names a d) (hm : m.Bounded a.size) :
    Mirrors names a d (execute i m a) (execute i (m.rename (named names)) d) := by
  unfold execute
  rw [renames_prepare i m]
  cases hp : prepare i m with
  | error e k => exact ⟨rfl, names, .refl h, rfl⟩
  | ok demand k =>
    obtain ⟨hk, hdemand⟩ := hm.prepare hp
    exact mirrors_satisfy h hk hdemand

/-- A run goes alike on both documents, however it ends. -/
theorem mirrors_runOn (bytes : List UInt8) (m : Machine NodeId) (a : Document) (hm : m.Tends a)
    (names : List NodeId) (d : Document) (h : Inside names a d) :
    Mirrors names a d (runOn bytes m a) (runOn bytes (m.rename (named names)) d) := by
  have hadvance (m : Machine NodeId) (width : Nat) (names : List NodeId) :
      (m.rename (named names)).advance width = (m.advance width).rename (named names) := rfl
  induction bytes, m, a using runOn_induction generalizing names d with
  | finished m a =>
    rw [runOn_nil, runOn_nil]
    exact ⟨rfl, names, .refl h, rfl⟩
  | failed bytes m a raw width e hr he =>
    have hm' : (m.advance width).Tends a := hm
    have hx := mirrors_execute raw.ofBytes h hm'.bounded
    rw [← hadvance] at hx
    rw [runOn_of_error hr he, runOn_of_error hr (hx.result.trans he)]
    exact ⟨rfl, hx.hosts⟩
  | continued bytes m a raw width hr hok ih =>
    have hm' : (m.advance width).Tends a := hm
    have hx := mirrors_execute raw.ofBytes h hm'.bounded
    rw [← hadvance] at hx
    obtain ⟨names', hnext, hmachine⟩ := hx.hosts
    have htends := hm'.deed (deed_execute raw.ofBytes (m.advance width) a)
    have hrest := ih htends names' _ hnext.inside
    obtain ⟨later, hlater, hmachine'⟩ := hrest.hosts
    rw [runOn_of_ok hr hok, runOn_of_ok hr (hx.result.trans hok), hmachine]
    exact ⟨hrest.result, later, hnext.trans hlater, hmachine'⟩
  | truncated bytes m a hne hr =>
    rw [runOn_of_truncated hne hr, runOn_of_truncated hne hr]
    exact ⟨rfl, names, .refl h, rfl⟩
  | unknown bytes m a byte hr =>
    rw [runOn_of_unknown hr, runOn_of_unknown hr]
    exact ⟨rfl, names, .refl h, rfl⟩
  | undelimited bytes m a found hr =>
    rw [runOn_of_undelimited hr, runOn_of_undelimited hr]
    exact ⟨rfl, names, .refl h, rfl⟩

/-! ## Requests -/

theorem mirrors_alone {step : Step NodeId α} (hstep : Renames (named names) id step step)
    (h : Inside names a d) :
    Mirrors names a d (m.alone a step) ((m.rename (named names)).alone d step) := by
  unfold alone
  rw [hstep m]
  cases step m <;> exact ⟨rfl, names, .refl h, rfl⟩

theorem alongside_insertAll (h : Inside names a d) (pairs : List (NodeId × NodeId))
    (hpairs : ∀ pair ∈ pairs, pair.1 < a.size ∧ pair.2 < a.size) :
    Alongside names a d names
      (pairs.foldl (fun a pair => Host.edit (.insertAfter pair.1 pair.2) a) a)
      ((pairs.map (Prod.map (named names) (named names))).foldl
        (fun d pair => Host.edit (.insertAfter pair.1 pair.2) d) d) := by
  induction pairs generalizing a d with
  | nil => exact .refl h
  | cons pair rest ih =>
    obtain ⟨hpair, hrest⟩ := List.forall_mem_cons.mp hpairs
    have hfirst := h.insertAfter hpair.1 hpair.2
    exact hfirst.trans <| ih hfirst.inside fun next hnext =>
      (hrest next hnext).imp (hfirst.lt_size h) (hfirst.lt_size h)

theorem mirrors_perform (request : Request) (hm : m.Tends a) (h : Inside names a d) :
    Mirrors names a d (m.perform a request) ((m.rename (named names)).perform d request) := by
  cases request with
  | feed bytes => exact ⟨rfl, names, .refl h, rfl⟩
  | push value => exact (mirrors_alone (renames_onOperands _) h).map _
  | pop => exact (mirrors_alone renames_pop h).map _
  | pushText text => exact (mirrors_alone (renames_onOperands _) h).map _
  | run => exact (mirrors_runOn m.remaining m a hm names d h).map _
  | flush =>
    have hinserted := alongside_insertAll h m.deferred hm.bounded.deferred
    refine Mirrors.map (o := m.flush a) ⟨?_, names, hinserted, rfl⟩ Answer.flushed
    exact congrArg Except.ok (List.length_map ..)

end Machine

end TreeCode
