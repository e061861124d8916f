import TreeCode.Proofs.Machine.Conservation
import TreeCode.Proofs.Slots.Keyed

/-!
# Machines that count in 32 bits

A machine whose table counts in 32 bits does what one does that counts without end, as long as the
nodes created are fewer than `2 ^ 32`: its steps go the same way (`alike_prepare`), and so do its
runs, its answers, and its whole life (`retabled_perform`, `Later.exists_retable`). The two differ
in the table alone, and there only in form (`KeyedTable.Reflects`).
-/

namespace TreeCode

variable {σ ν α β : Type}

/-! ## Tables -/

namespace KeyedTable

variable {t : KeyedTable ν} {s : SlotTable ν}

/-- A table in two parts holds what a stack of numbered nodes does, whose numbers are in order. -/
structure Reflects (t : KeyedTable ν) (s : SlotTable ν) : Prop where
  agrees : t.Agrees s
  ordered : s.Ordered

namespace Reflects

theorem empty : (KeyedTable.empty : KeyedTable ν).Reflects SlotTable.empty :=
  ⟨agrees_empty, SlotTable.ordered_empty⟩

theorem newest? (h : t.Reflects s) : t.newest? = s.newest? := h.agrees.entry h.ordered 0

theorem below? (h : t.Reflects s) : t.below? = s.below? := h.agrees.entry h.ordered 1

theorem newestPair (h : t.Reflects s) : t.newestPair = s.newestPair :=
  (h.agrees.answersAs h.ordered).newestPair

theorem find? (h : t.Reflects s) {id : SlotId} (hid : id.index < 2 ^ 32) :
    t.find? id = s.get? id := by
  have hslot : slot (UInt32.ofNat id.index) = id := congrArg SlotId.mk (UInt32.toNat_ofNat_of_lt hid)
  have hsize : id.index < UInt32.size := hid
  rw [KeyedTable.find?, if_pos hsize, KeyedTable.get?, h.agrees.nodes, hslot]

theorem length_live (h : t.Reflects s) : t.live.length = s.live.length := by
  simpa using congrArg List.length h.agrees.live

/-- To consume takes the same nodes from both, or is refused by both. -/
theorem consume?_cases (h : t.Reflects s) :
    (t.consume? = none ∧ s.consume? = none) ∨
    ∃ pair t' s', t.consume? = some (pair, t') ∧ s.consume? = some (pair, s') ∧ t'.Reflects s' := by
  rcases s.run_consume_cases with ⟨child, parent, rest, hlive, -⟩ | ⟨hlength, -⟩
  · obtain ⟨t', hconsume, hagrees⟩ := h.agrees.consume h.ordered hlive
    exact .inr ⟨_, t', _, hconsume, SlotTable.consume?_of_live hlive, hagrees,
      h.ordered.tail hlive rfl⟩
  · exact .inl ⟨h.agrees.consume?_of_length_lt hlength, SlotTable.consume?_of_length_lt hlength⟩

theorem insert (h : t.Reflects s) (hcount : s.created + 1 < 2 ^ 32) (node : ν) :
    (t.insert node).1 = (s.insert node).1 ∧ (t.insert node).2.Reflects (s.insert node).2 :=
  ⟨h.agrees.slot_next, h.agrees.insert hcount node, h.ordered.insert node⟩

end Reflects

end KeyedTable

namespace Machine

def retable {T T' : Type → Type} (m : Machine ν T) (table : T' ν) : Machine ν T' :=
  { m with table }

end Machine

def Outcome.retable {T T' : Type → Type} (o : Outcome σ ν α T) (table : T' ν) : Outcome σ ν α T' :=
  ⟨o.result, o.machine.retable table, o.host, o.log⟩

/-- Two outcomes differ in nothing but that one counts in 32 bits. -/
def Outcome.Retabled (o : Outcome σ ν α KeyedTable) (o' : Outcome σ ν α) : Prop :=
  ∃ table : KeyedTable ν, o = o'.retable table ∧ table.Reflects o'.machine.table

namespace Machine

/-! ## Steps -/

/-- Two steps end the same way, on machines that differ in nothing but that one counts in 32 bits. -/
inductive SameEnd : EStateM.Result Error (Machine ν KeyedTable) α →
    EStateM.Result Error (Machine ν) α → Prop where
  | ok (a : α) {k : Machine ν} {t : KeyedTable ν} : t.Reflects k.table →
      SameEnd (.ok a (k.retable t)) (.ok a k)
  | error (e : Error) {k : Machine ν} {t : KeyedTable ν} : t.Reflects k.table →
      SameEnd (.error e (k.retable t)) (.error e k)

/-- The steps go the same way on all machines that differ in nothing but that one counts in 32 bits.
-/
def Alike (x : StepOn KeyedTable ν α) (y : Step ν α) : Prop :=
  ∀ (k : Machine ν) (t : KeyedTable ν), t.Reflects k.table → SameEnd (x (k.retable t)) (y k)

theorem alike_pure (a : α) : Alike (ν := ν) (pure a) (pure a) := fun _ _ ht => .ok a ht

theorem alike_throw (e : Error) : Alike (ν := ν) (throw e : StepOn KeyedTable ν α) (throw e) :=
  fun _ _ ht => .error e ht

theorem Alike.bind {x : StepOn KeyedTable ν α} {y : Step ν α} {f : α → StepOn KeyedTable ν β}
    {g : α → Step ν β} (h : Alike x y) (hfg : ∀ a, Alike (f a) (g a)) :
    Alike (x >>= f) (y >>= g) := by
  intro k t ht
  change SameEnd (EStateM.bind x f (k.retable t)) (EStateM.bind y g k)
  have hxy := h k t ht
  unfold EStateM.bind
  generalize x (k.retable t) = first at hxy
  generalize y k = second at hxy
  cases hxy with
  | ok a ht => exact hfg a _ _ ht
  | error e ht => exact .error e ht

theorem alike_get_bind {f : Machine ν KeyedTable → StepOn KeyedTable ν α} {g : Machine ν → Step ν α}
    (h : ∀ k t, t.Reflects k.table → Alike (f (k.retable t)) (g k)) :
    Alike (get >>= f) (get >>= g) := fun k t ht => h k t ht k t ht

theorem alike_onOperands (access : Operands.Access α) :
    Alike (ν := ν) (onOperands access) (onOperands access) := by
  intro k t ht
  have hoperands : (k.retable t).operands = k.operands := rfl
  unfold onOperands
  rw [hoperands]
  cases access k.operands with
  | ok a operands => exact .ok (k := { k with operands }) a ht
  | error e operands => exact .error (k := { k with operands }) e ht

theorem alike_pop : Alike (ν := ν) pop pop := alike_onOperands _

theorem alike_popText : Alike (ν := ν) popText popText :=
  alike_pop.bind fun length => alike_onOperands (Operands.popText length)

/-- An operand names the same node: it has fewer bits than a number. -/
theorem node?_retable {k : Machine ν} {t : KeyedTable ν} (ht : t.Reflects k.table)
    (operand : Int32) : (k.retable t).node? operand = k.node? operand := by
  unfold node?
  cases hid : SlotId.ofOperand? operand with
  | none => rfl
  | some id =>
    refine ht.find? ?_
    unfold SlotId.ofOperand? at hid
    split at hid
    · cases hid
    · cases hid
      have := operand.toInt_lt
      rw [Int32.toNatClampNeg]
      show operand.toInt.toNat < 2 ^ 32
      omega

theorem alike_nodeOf (operand : Int32) : Alike (ν := ν) (nodeOf operand) (nodeOf operand) := by
  refine alike_get_bind fun k t ht => ?_
  rw [node?_retable ht]
  cases k.node? operand with
  | some node => exact alike_pure node
  | none => exact alike_throw _

theorem alike_nodesOf (parent child : Int32) :
    Alike (ν := ν) (nodesOf parent child) (nodesOf parent child) := by
  refine alike_get_bind fun k t ht => ?_
  rw [node?_retable ht, node?_retable ht]
  cases k.node? parent <;> cases k.node? child
  case some.some p c => exact alike_pure (p, c)
  all_goals exact alike_throw _

theorem alike_livingAt {place : KeyedTable ν → Option (SlotId × ν)}
    {place' : SlotTable ν → Option (SlotId × ν)}
    (h : ∀ {t : KeyedTable ν} {s : SlotTable ν}, t.Reflects s → place t = place' s) :
    Alike (livingAt place) (livingAt place') := by
  refine alike_get_bind fun k t ht => ?_
  rw [show place (k.retable t).table = place' k.table from h ht]
  cases place' k.table with
  | some entry => exact alike_pure entry.2
  | none => exact alike_throw _

theorem alike_consume : Alike (ν := ν) consume consume := by
  intro k t ht
  have htable : (k.retable t).table = t := rfl
  have hpair : NodeTable.newestPair t = k.table.newestPair := ht.newestPair
  unfold consume
  rw [htable, hpair]
  rcases ht.consume?_cases with ⟨hnone, hnone'⟩ | ⟨pair, t', s', hsome, hsome', ht'⟩
  · rw [show NodeTable.consume? t = none from hnone,
      show NodeTable.consume? k.table = none from hnone']
    exact .error _ ht
  · rw [show NodeTable.consume? t = some (pair, t') from hsome,
      show NodeTable.consume? k.table = some (pair, s') from hsome']
    exact .ok (k := { k with table := s', operands := _ }) pair ht'

theorem alike_prepare (i : Instruction String) : Alike (ν := ν) (prepare i) (prepare i) := by
  cases i with
  | createElement tag =>
    simp only [prepare]
    split
    · exact alike_throw _
    · exact alike_pure _
  | textNode text => exact alike_pure _
  | setAttribute key value =>
    exact (alike_livingAt fun ht => ht.newest?).bind fun _ => alike_pure _
  | eventListener event callback =>
    exact (alike_livingAt fun ht => ht.below?).bind fun _ =>
      alike_get_bind fun _ _ _ => alike_pure _
  | appendChild => exact alike_consume.bind fun _ => alike_pure _
  | appendSibling =>
    refine alike_consume.bind fun _ => alike_get_bind fun k t _ => ?_
    rw [show (k.retable t).defersSiblings = k.defersSiblings from rfl]
    cases k.defersSiblings <;> exact alike_pure _
  | removeChild =>
    exact alike_pop.bind fun _ => alike_pop.bind fun _ =>
      (alike_nodesOf _ _).bind fun _ => alike_pure _
  | replaceChild =>
    exact alike_pop.bind fun _ => alike_pop.bind fun _ => alike_pop.bind fun _ =>
      (alike_nodesOf _ _).bind fun _ => (alike_nodesOf _ _).bind fun _ => alike_pure _
  | setText =>
    exact alike_popText.bind fun _ => alike_pop.bind fun _ =>
      (alike_nodeOf _).bind fun _ => alike_pure _
  | removeAttribute =>
    exact alike_popText.bind fun _ => alike_pop.bind fun _ =>
      (alike_nodeOf _).bind fun _ => alike_pure _
  | style =>
    exact alike_popText.bind fun _ => alike_popText.bind fun _ => alike_pop.bind fun _ =>
      (alike_nodeOf _).bind fun _ => alike_pure _

theorem adopt_retable {k : Machine ν} {t : KeyedTable ν} (ht : t.Reflects k.table)
    (hcount : k.table.created + 1 < 2 ^ 32) (node : ν) :
    ∃ t', (k.retable t).adopt node = ((k.adopt node).1, (k.adopt node).2.retable t') ∧
      KeyedTable.Reflects t' (k.adopt node).2.table := by
  obtain ⟨hslot, hinsert⟩ := ht.insert hcount node
  have hoperands : (k.retable t).operands = k.operands := rfl
  have hkeyed : NodeTable.insert (k.retable t).table node =
      ((k.table.insert node).1, (t.insert node).2) := Prod.ext hslot rfl
  refine ⟨(t.insert node).2, ?_⟩
  simp only [adopt, hkeyed, hoperands, SlotTable.nodeTable_insert]
  cases Operands.push (k.table.insert node).1.toOperand k.operands <;> exact ⟨rfl, hinsert⟩

/-! ## Requests -/

variable {k k' : Machine ν} {table : KeyedTable ν} {s s' : Traced σ ν}

/-- As many numbers were given as nodes created. -/
def Counts (k : Machine ν) (s : Traced σ ν) : Prop :=
  k.table.created = (Call.created s.calls).length

theorem Deed.counts [Host σ ν] (h : Deed k k' s s') (hk : k.Counts s) : k'.Counts s' := by
  unfold Counts at hk ⊢
  cases h with
  | idle htable _ => rw [htable, hk]
  | create request htable _ => simp [htable, hk]
  | edit _ _ htable _ => simp [htable, hk]
  | join _ hconsume _ => simp [(SlotTable.nodes_of_consume? hconsume).2, hk]
  | putOff hconsume _ => rw [(SlotTable.nodes_of_consume? hconsume).2, hk]
  | flush htable _ => simp [htable, calls_flush, hk]

/-- The calls have created fewer nodes than there are numbers. -/
def Few (s : Traced σ ν) : Prop := (Call.created s.calls).length < 2 ^ 32

theorem Few.before (h : Few s') (hcalls : s.calls <+: s'.calls) : Few s :=
  Nat.lt_of_le_of_lt (Call.created_mono hcalls).length_le h

/-- It is enough to know of one of the two machines that it creates few nodes. -/
abbrev EitherFew (o : Outcome (Traced σ ν) ν α KeyedTable) (o' : Outcome (Traced σ ν) ν β) : Prop :=
  Few o.host ∨ Few o'.host

theorem retabled_alone {x : StepOn KeyedTable ν α} {y : Step ν α} (h : Alike x y)
    (ht : table.Reflects k.table) (host : σ) :
    ((k.retable table).alone host x).Retabled (k.alone host y) := by
  have hsame := h k table ht
  unfold alone
  generalize x (k.retable table) = first at hsame
  generalize y k = second at hsame
  cases hsame with
  | ok a ht' => exact ⟨_, rfl, ht'⟩
  | error e ht' => exact ⟨_, rfl, ht'⟩

variable [Host σ ν]

theorem retabled_satisfy (demand : Demand ν) (ht : table.Reflects k.table) (hk : k.Counts s)
    (hfew : EitherFew (satisfy (k.retable table) s demand) (satisfy k s demand)) :
    (satisfy (k.retable table) s demand).Retabled (satisfy k s demand) := by
  cases demand with
  | create request =>
    have hcount : k.table.created + 1 < 2 ^ 32 := by
      rw [hk]
      simpa [EitherFew, Few, satisfy] using hfew
    obtain ⟨t', hadopt, ht'⟩ := adopt_retable ht hcount (Host.create request s).1
    refine ⟨t', ?_, ht'⟩
    simp only [satisfy, hadopt]
    rfl
  | edit e => exact ⟨table, rfl, ht⟩
  | defer sibling child => exact ⟨table, rfl, ht⟩

theorem created_prepare {i : Instruction String} {demand : Demand ν}
    (h : prepare i k = .ok demand k') : k'.table.created = k.table.created := by
  cases hi : consumes i with
  | false => rw [((reads_prepare hi).ok h).1]
  | true =>
    obtain ⟨pair, hconsume, -⟩ := joins_of_prepare hi h
    exact (SlotTable.nodes_of_consume? hconsume).2

theorem retabled_execute (i : Instruction String) (ht : table.Reflects k.table) (hk : k.Counts s)
    (hfew : EitherFew (execute i (k.retable table) s) (execute i k s)) :
    (execute i (k.retable table) s).Retabled (execute i k s) := by
  have hsame := alike_prepare i k table ht
  unfold execute at hfew ⊢
  generalize prepare i (k.retable table) = first at hsame hfew ⊢
  generalize hsecond : prepare i k = second at hsame hfew ⊢
  cases hsame with
  | ok demand ht' => exact retabled_satisfy demand ht' ((created_prepare hsecond).trans hk) hfew
  | error e ht' => exact ⟨_, rfl, ht'⟩

/-- A run goes the same way while there are numbers. -/
theorem retabled_runOn (bytes : List UInt8) (ht : table.Reflects k.table) (hk : k.Counts s)
    (hfew : EitherFew (runOn bytes (k.retable table) s) (runOn bytes k s)) :
    (runOn bytes (k.retable table) s).Retabled (runOn bytes k s) := by
  -- What the run executes first, if it does, goes the same way.
  have hfirst {bytes : List UInt8} {k : Machine ν} {s : Traced σ ν} {table : KeyedTable ν}
      {raw : Instruction (List UInt8)} {width : Nat}
      (hr : Instruction.read bytes = .complete raw width) (ht : table.Reflects k.table)
      (hk : k.Counts s) (hfew : EitherFew (runOn bytes (k.retable table) s) (runOn bytes k s)) :
      (execute raw.ofBytes ((k.retable table).advance width) s).Retabled
        (execute raw.ofBytes (k.advance width) s) :=
    retabled_execute (k := k.advance width) raw.ofBytes ht hk
      (hfew.imp (·.before (calls_prefix_of_complete hr (k.retable table) s))
        (·.before (calls_prefix_of_complete hr k s)))
  induction bytes, k, s using runOn_induction generalizing table with
  | finished k s =>
    rw [runOn_nil, runOn_nil]
    exact ⟨table, rfl, ht⟩
  | failed bytes k s raw width e hr he =>
    obtain ⟨t', heq, ht'⟩ := hfirst hr ht hk hfew
    rw [runOn_of_error hr ((congrArg Outcome.result heq).trans he), runOn_of_error hr he, heq]
    exact ⟨t', rfl, ht'⟩
  | continued bytes k s raw width hr hok ih =>
    obtain ⟨t', heq, ht'⟩ := hfirst hr ht hk hfew
    rw [runOn_of_ok hr ((congrArg Outcome.result heq).trans hok), runOn_of_ok hr hok, heq] at hfew ⊢
    obtain ⟨t'', hrest, ht''⟩ :=
      ih ht' ((deed_execute raw.ofBytes (k.advance width) s).counts hk) hfew
    exact ⟨t'', congrArg (Outcome.after _) hrest, ht''⟩
  | truncated bytes k s hne hr =>
    rw [runOn_of_truncated hne hr, runOn_of_truncated hne hr]
    exact ⟨table, rfl, ht⟩
  | unknown bytes k s byte hr =>
    rw [runOn_of_unknown hr, runOn_of_unknown hr]
    exact ⟨table, rfl, ht⟩
  | undelimited bytes k s found hr =>
    rw [runOn_of_undelimited hr, runOn_of_undelimited hr]
    exact ⟨table, rfl, ht⟩

theorem retabled_perform (request : Request) (ht : table.Reflects k.table) (hk : k.Counts s)
    (hfew : EitherFew ((k.retable table).perform s request) (k.perform s request)) :
    ((k.retable table).perform s request).Retabled (k.perform s request) := by
  have hmap {γ δ : Type} {o : Outcome (Traced σ ν) ν γ KeyedTable} {o' : Outcome (Traced σ ν) ν γ}
      (f : γ → δ) (h : o.Retabled o') : (o.map f).Retabled (o'.map f) := by
    obtain ⟨t', rfl, ht'⟩ := h
    exact ⟨t', rfl, ht'⟩
  cases request with
  | feed bytes => exact ⟨table, rfl, ht⟩
  | push value => exact hmap _ (retabled_alone (alike_onOperands _) ht s)
  | pop => exact hmap _ (retabled_alone alike_pop ht s)
  | pushText text => exact hmap _ (retabled_alone (alike_onOperands _) ht s)
  | run => exact hmap _ (retabled_runOn k.remaining ht hk hfew)
  | flush => exact ⟨table, rfl, ht⟩

theorem Next.exists_retable {m : Machine ν KeyedTable}
    (h : Next (k.retable table, s) (m, s')) (ht : table.Reflects k.table) (hk : k.Counts s)
    (hfew : Few s') :
    ∃ k' table', Next (k, s) (k', s') ∧ m = k'.retable table' ∧
      KeyedTable.Reflects table' k'.table ∧ k'.Counts s' := by
  cases h with
  | request _ _ request =>
    obtain ⟨table', heq, ht'⟩ := retabled_perform request ht hk (.inl hfew)
    have hcounts := perform_keeps (P := Counts) (fun _ _ _ _ hdeed => hdeed.counts) request k s hk
    rw [heq]
    exact ⟨_, table', .request k s request, rfl, ht', hcounts⟩
  | @instruction _ raw width _ hr =>
    obtain ⟨table', heq, ht'⟩ :=
      retabled_execute (k := k.advance width) raw.ofBytes ht hk (.inl hfew)
    have hcounts := (deed_execute raw.ofBytes (k.advance width) s).counts hk
    have heq' : execute raw.ofBytes ((k.retable table).advance width) s =
        (execute raw.ofBytes (k.advance width) s).retable table' := heq
    rw [heq']
    exact ⟨_, table', .instruction s hr, rfl, ht', hcounts⟩

/-- What a machine that counts in 32 bits does in its life, one that counts without end does, as long
as there are numbers. -/
theorem Later.exists_retable {m : Machine ν KeyedTable}
    (h : Later (k.retable table, s) (m, s')) (ht : table.Reflects k.table) (hk : k.Counts s)
    (hfew : Few s') :
    ∃ k' table', Later (k, s) (k', s') ∧ m = k'.retable table' ∧
      KeyedTable.Reflects table' k'.table ∧ k'.Counts s' := by
  generalize hlast : (m, s') = last at h
  induction h generalizing m s' with
  | refl =>
    cases hlast
    exact ⟨k, table, .refl, rfl, ht, hk⟩
  | @tail middle last _ hnext ih =>
    subst hlast
    obtain ⟨k₁, table₁, hlater, hm, ht₁, hk₁⟩ := ih (hfew.before hnext.calls_grow) rfl
    obtain ⟨m₁, s₁⟩ := middle
    cases hm
    obtain ⟨k', table', hnext', hm', ht', hk'⟩ := Next.exists_retable hnext ht₁ hk₁ hfew
    exact ⟨k', table', hlater.tail hnext', hm', ht', hk'⟩

end Machine

end TreeCode
