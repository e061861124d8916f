import TreeCode.Proofs.Machine.Keyed

/-!
# Nodes are used once

A machine names no node but those it had created, and joins each child to another node once
(`nodes_used_once`). This rests on numbers that are never given again, so it holds while fewer than
`2 ^ 32` nodes have been created. With one node more the counter runs over. Two bytes and three more
for every further node are enough for that, and then a node is put under itself
(`nodes_used_once_runs_over`).
-/

namespace TreeCode.Machine

variable {σ ν : Type} [Host σ ν]

/-- **Nodes are used once.** A machine that counts in 32 bits starts on a program, with a host that
keeps its calls and gives each new node a handle of its own. At any moment of the machine's life up
to which fewer than `2 ^ 32` nodes were created, be it between two instructions of a run: each call
has named no nodes but those created before it; nodes that were joined differ, and no node has been
taken as a child twice, be its insertion made or put off; and the nodes created, which the table
counts, are as many as are live, were appended, inserted, or wait for their insertion. Whatever
happens later, a node that was taken as a child is named only by the insertions that were put off at
that moment: the calls made since then and the insertions that still wait are, as far as they name
it, just these, in their order. -/
theorem nodes_used_once [DecidableEq ν] {host : σ} {program : List UInt8} {defersSiblings : Bool}
    {settings : Settings} {registry : RegistryId} {m m' : Machine ν KeyedTable}
    {t t' : Traced σ ν}
    (hnow : Later (start program defersSiblings settings registry, ⟨host, []⟩) (m, t))
    (hlater : Later (m, t) (m', t')) (hdistinct : (Call.created t'.calls).Nodup)
    (hfew : (Call.created t'.calls).length < 2 ^ 32) :
    (∀ (i : Nat) (call : Call ν), t.calls[i]? = some call →
      ∀ node ∈ call.nodes, node ∈ Call.created (t.calls.take i)) ∧
    (∀ pair ∈ Call.joined t.calls ++ m.deferred, pair.1 ≠ pair.2) ∧
    ((Call.joined t.calls ++ m.deferred).map (·.2)).Nodup ∧
    m.table.next.toNat = m.table.live.length + t.calls.countP Call.isAppend +
      t.calls.countP Call.isInsertion + m.deferred.length ∧
    ∃ since, t'.calls = t.calls ++ since ∧
      ∀ node ∈ (Call.joined t.calls ++ m.deferred).map (·.2),
        naming node (since ++ m'.deferred.map Call.insertion) =
          naming node (m.deferred.map Call.insertion) := by
  have hcalls : t.calls <+: t'.calls := Later.calls_grow hlater
  have hnodup : (Call.created t.calls).Nodup :=
    hdistinct.sublist (Call.created_mono hcalls).sublist
  -- A machine that counts without end has the same life.
  obtain ⟨k, table, hnow', rfl, htable, hcounts⟩ :=
    Later.exists_retable (k := start program defersSiblings settings registry)
      hnow .empty rfl (Few.before hfew hcalls)
  obtain ⟨k', table', hlater', rfl, -, -⟩ := Later.exists_retable hlater htable hcounts hfew
  have hc := conserved_of_later hnow' hnodup
  obtain ⟨since, hsince⟩ := hcalls
  refine ⟨hc.named, hc.apart, hc.nodup_children hnodup, ?_, since, hsince.symm,
    fun node hnode => ?_⟩
  · change table.next.toNat = table.live.length + _ + _ + k.deferred.length
    rw [htable.agrees.next, htable.length_live, hc.created, hc.nodes.length_eq]
    simp only [List.length_append, List.length_map, SlotTable.length_nodes, Call.length_joined]
    omega
  · have hcreated : node ∈ Call.created t.calls :=
      hc.nodes.mem_iff.mpr (List.mem_append_right _ hnode)
    obtain ⟨-, more, hmore, hnaming⟩ := since_of_later hlater' hcreated hdistinct
      ⟨hc.not_mem_nodes hnodup hnode, [], (List.append_nil _).symm, rfl⟩
    obtain rfl := List.append_cancel_left (hsince.trans hmore)
    exact hnaming

/-- A text is put off to stand after another, which then goes under a paragraph. The flush names
both texts once more, in the insertion put off, and no other call does. -/
theorem nodes_used_once_late_sibling :
    let program : List UInt8 := [1, 1, 112, 6, 1, 97, 6, 1, 98, 12, 3]
    let traced : Traced Numbering Nat := ⟨{ defersSiblings := true }, []⟩
    let machine : Machine Nat KeyedTable := start program true {} 0
    let ran := machine.perform traced .run
    let flushed := ran.machine.perform ran.host .flush
    Later (machine, traced) (ran.machine, ran.host) ∧
    Later (ran.machine, ran.host) (flushed.machine, flushed.host) ∧
    Call.created flushed.host.calls = [0, 1, 2] ∧
    Call.joined ran.host.calls = [(0, 1)] ∧ ran.machine.deferred = [(1, 2)] ∧
    ran.machine.table.next.toNat = 3 ∧
    ∃ since, flushed.host.calls = ran.host.calls ++ since ∧
      naming 1 since = [.edit (.insertAfter 1 2)] ∧
      naming 2 since = [.edit (.insertAfter 1 2)] := by
  intro program traced machine ran flushed
  have hran : Later (machine, traced) (ran.machine, ran.host) := .single (.request ..)
  have hflushed : Later (ran.machine, ran.host) (flushed.machine, flushed.host) :=
    .single (.request ..)
  -- The kernel cannot run a machine whose numbers are kept in a map, but it can run the other.
  let endless : Machine Nat := start program true {} 0
  let endlessRan := endless.perform traced .run
  have hfew : (Call.created endlessRan.host.calls).length < 2 ^ 32 := by decide +kernel
  obtain ⟨table, heq, htable⟩ : ran.Retabled endlessRan :=
    retabled_perform (k := endless) .run .empty rfl (.inr hfew)
  have hhost : ran.host = endlessRan.host := congrArg Outcome.host heq
  have hmachine : ran.machine = endlessRan.machine.retable table := congrArg Outcome.machine heq
  have hlive : ran.machine.table.live.length = 1 := by
    rw [hmachine]
    exact htable.length_live.trans (by decide +kernel)
  have hdeferred : ran.machine.deferred = [(1, 2)] := by
    rw [hmachine]
    show endlessRan.machine.deferred = [(1, 2)]
    decide +kernel
  have hjoined : Call.joined ran.host.calls = [(0, 1)] := by
    rw [hhost]
    decide +kernel
  have hcreated : Call.created flushed.host.calls = [0, 1, 2] := by
    change Call.created (ran.machine.deferred.foldl _ ran.host).calls = [0, 1, 2]
    rw [calls_flush, hdeferred, hhost]
    decide +kernel
  have hrest : flushed.machine.deferred = [] := rfl
  obtain ⟨-, -, -, hcount, since, hsince, hnaming⟩ :=
    nodes_used_once hran hflushed (by rw [hcreated]; decide) (by rw [hcreated]; decide)
  rw [hjoined, hdeferred, hrest, List.map_nil, List.append_nil] at hnaming
  refine ⟨hran, hflushed, hcreated, hjoined, hdeferred, ?_, since, hsince, ?_, ?_⟩
  · rw [hcount, hlive, hdeferred, hhost]
    decide +kernel
  · exact hnaming 1 (by decide)
  · exact hnaming 2 (by decide)

/-! ## When the counter runs over -/

section Steps

variable {T : Type → Type} [NodeTable T]

theorem exists_runOn_textNode (rest : List UInt8) (m : Machine ν T) (host : σ) :
    ∃ m', (runOn (6 :: 0 :: rest) m host).silent =
        (runOn rest m' (Host.create (.text "") host).2).silent ∧
      m'.table = (NodeTable.insert m.table (Host.create (.text "") host).1).2 ∧
      m'.deferred = m.deferred := by
  obtain ⟨operands, hadopt⟩ := exists_adopt_eq (m.advance 2) (Host.create (.text "") host).1
  refine ⟨((m.advance 2).adopt (Host.create (.text "") host).1).2, ?_, ?_, ?_⟩
  · have hread : Instruction.read (6 :: 0 :: rest) = .complete (.textNode []) 2 := rfl
    rw [runOn_of_ok hread rfl]
    rfl
  · rw [hadopt]
    rfl
  · rw [hadopt]
    rfl

theorem exists_runOn_appendChild {m : Machine ν T} {pair : ν × ν} {table : T ν}
    (h : NodeTable.consume? m.table = some (pair, table)) (rest : List UInt8) (host : σ) :
    ∃ m', (runOn (3 :: rest) m host).silent =
        (runOn rest m' (Host.edit (.appendChild pair.1 pair.2) host)).silent ∧
      m'.table = table ∧ m'.deferred = m.deferred := by
  obtain ⟨operands, hconsume⟩ : ∃ operands, consume (m.advance 1) =
      .ok pair { m.advance 1 with table, operands } := by
    have htable : (m.advance 1).table = m.table := rfl
    unfold consume
    rw [htable, h]
    exact ⟨_, rfl⟩
  have hexecute : execute .appendChild (m.advance 1) host =
      ⟨.ok (), { m.advance 1 with table, operands },
        Host.edit (.appendChild pair.1 pair.2) host, []⟩ := by
    unfold execute
    rw [prepare_appendChild, hconsume]
    rfl
  refine ⟨{ m.advance 1 with table, operands }, ?_, rfl, rfl⟩
  have hread : Instruction.read (3 :: rest) = .complete .appendChild 1 := rfl
  rw [runOn_of_ok hread (congrArg Outcome.result hexecute),
    show execute (Instruction.ofBytes .appendChild) (m.advance 1) host = _ from hexecute]
  rfl

end Steps

/-- The code of an empty text that goes under the node below. -/
def emptyChild : List UInt8 := [6, 0, 3]

variable {m : Machine Nat KeyedTable} {t : Traced Numbering Nat} {count : Nat}

/-- An empty text takes the next number and goes under the root, unless that is the number of the
root. Then both are the text. -/
theorem exists_runOn_emptyChild (rest : List UInt8) (hlive : m.table.live = [0])
    (hroot : m.table.nodes[(0 : UInt32)]? = some 0) :
    let child := t.host.created
    let parent := if m.table.next = 0 then child else 0
    let t' : Traced Numbering Nat := ⟨{ t.host with created := child + 1 },
      t.calls ++ [.create (.text "") child] ++ [.edit (.appendChild parent child)]⟩
    ∃ m', (runOn (emptyChild ++ rest) m t).silent = (runOn rest m' t').silent ∧
      m'.table = ⟨(m.table.nodes.insert m.table.next child).erase m.table.next, [0],
        m.table.next + 1⟩ ∧
      m'.deferred = m.deferred := by
  intro child parent t'
  obtain ⟨m₁, hcreate, htable, hdeferred⟩ := exists_runOn_textNode (3 :: rest) m t
  have hconsume : NodeTable.consume? m₁.table = some ((parent, child),
      ⟨(m.table.nodes.insert m.table.next child).erase m.table.next, [0], m.table.next + 1⟩) := by
    have hparent : (m.table.nodes.insert m.table.next child)[(0 : UInt32)]? = some parent := by
      rw [Std.HashMap.getElem?_insert, hroot]
      by_cases hnext : m.table.next = 0 <;> simp [parent, hnext]
    rw [htable]
    change KeyedTable.consume? (m.table.insert child).2 = _
    unfold KeyedTable.insert KeyedTable.consume?
    simp only [hlive, hparent, Std.HashMap.getElem?_insert_self]
    rfl
  obtain ⟨m₂, happend, htable', hdeferred'⟩ :=
    exists_runOn_appendChild hconsume rest (Host.create (.text "") t).2
  exact ⟨m₂, hcreate.trans happend, htable', hdeferred'.trans hdeferred⟩

/-- What the machine and its host have come to after a root and so many children. -/
structure Worn (count : Nat) (m : Machine Nat KeyedTable) (t : Traced Numbering Nat) : Prop where
  live : m.table.live = [0]
  root : m.table.nodes[(0 : UInt32)]? = some 0
  next : m.table.next = UInt32.ofNat (count + 1)
  deferred : m.deferred = []
  given : t.host.created = count + 1
  created : Call.created t.calls = List.range (count + 1)
  appended : t.calls.countP Call.isAppend = count
  inserted : t.calls.countP Call.isInsertion = 0

/-- One more child, for which there still is a number. -/
theorem Worn.child (h : Worn count m t) (hcount : count + 1 < 2 ^ 32) (rest : List UInt8) :
    ∃ m' t', (runOn (emptyChild ++ rest) m t).silent = (runOn rest m' t').silent ∧
      Worn (count + 1) m' t' := by
  obtain ⟨m', hrun, htable, hdeferred⟩ := exists_runOn_emptyChild rest h.live h.root
  have hnext : m.table.next ≠ 0 := by
    rw [h.next, ne_eq, ← UInt32.toNat_inj, UInt32.toNat_ofNat_of_lt' hcount]
    exact Nat.succ_ne_zero count
  refine ⟨m', _, hrun, ?_⟩
  constructor
  · rw [htable]
  · rw [htable]
    simp only [Std.HashMap.getElem?_erase, Std.HashMap.getElem?_insert, beq_iff_eq, hnext,
      if_false, h.root]
  · rw [htable, h.next]
    exact (UInt32.ofNat_add (count + 1) 1).symm
  · rw [hdeferred, h.deferred]
  · exact congrArg (· + 1) h.given
  · rw [Call.created_append, Call.created_append, Call.created_create, Call.created_edit, h.created,
      h.given, List.append_nil, List.range_succ (n := count + 1)]
  · simp [h.appended, Call.isAppend]
  · simp [h.inserted, Call.isInsertion]

theorem Worn.children (h : Worn count m t) (n : Nat) (hcount : count + n < 2 ^ 32)
    (rest : List UInt8) :
    ∃ m' t', (runOn ((List.replicate n emptyChild).flatten ++ rest) m t).silent =
        (runOn rest m' t').silent ∧ Worn (count + n) m' t' := by
  induction n generalizing count m t with
  | zero => exact ⟨m, t, rfl, h⟩
  | succ n ih =>
    obtain ⟨m₁, t₁, hfirst, h₁⟩ :=
      h.child (by omega) ((List.replicate n emptyChild).flatten ++ rest)
    obtain ⟨m', t', hrest, h'⟩ := ih h₁ (by omega)
    refine ⟨m', t', ?_, ?_⟩
    · rw [List.replicate_succ, List.flatten_cons, List.append_assoc]
      exact hfirst.trans hrest
    · rwa [Nat.add_right_comm, Nat.add_assoc] at h'

/-- Of as many children as there are numbers, the last gets the number of the root, which is live. It
is put under itself, and the table has counted one node. -/
theorem nodes_used_once_runs_over :
    let program : List UInt8 := [6, 0] ++ (List.replicate (2 ^ 32) [6, 0, 3]).flatten
    let traced : Traced Numbering Nat := ⟨{}, []⟩
    let machine : Machine Nat KeyedTable := start program false {} 0
    let ran := machine.perform traced .run
    Later (machine, traced) (ran.machine, ran.host) ∧
    (Call.created ran.host.calls).Nodup ∧
    .edit (.appendChild (2 ^ 32) (2 ^ 32)) ∈ ran.host.calls ∧
    ran.machine.table.next.toNat = 1 ∧
    ran.machine.table.live.length + ran.host.calls.countP Call.isAppend +
      ran.host.calls.countP Call.isInsertion + ran.machine.deferred.length = 2 ^ 32 + 1 := by
  intro program traced machine ran
  obtain ⟨m₀, hroot, htable₀, hdeferred₀⟩ :=
    exists_runOn_textNode (List.replicate (2 ^ 32) emptyChild).flatten machine traced
  have h₀ : Worn 0 m₀ (Host.create (.text "") traced).2 := by
    constructor
    · rw [htable₀]; rfl
    · rw [htable₀]; exact Std.HashMap.getElem?_insert_self
    · rw [htable₀]; rfl
    · exact hdeferred₀
    all_goals rfl
  obtain ⟨m₁, t₁, hchildren, h₁⟩ := h₀.children (2 ^ 32 - 1) (by omega) emptyChild
  obtain ⟨m₂, hlast, htable₂, hdeferred₂⟩ := exists_runOn_emptyChild (t := t₁) [] h₁.live h₁.root
  have hnext : m₁.table.next = 0 := h₁.next
  have hgiven : t₁.host.created = 2 ^ 32 := h₁.given
  rw [hnext, if_pos rfl, hgiven] at hlast
  have hsplit (n : Nat) : (List.replicate (n + 1) emptyChild).flatten =
      (List.replicate n emptyChild).flatten ++ emptyChild := by
    rw [List.replicate_succ', List.flatten_concat]
  rw [← hsplit] at hchildren
  have hrun := (hroot.trans hchildren).trans hlast
  rw [runOn_nil] at hrun
  have hmachine : ran.machine = m₂ := congrArg Outcome.machine hrun
  have hcalls : ran.host.calls = t₁.calls ++ [.create (.text "") (2 ^ 32)] ++
      [.edit (.appendChild (2 ^ 32) (2 ^ 32))] := congrArg (·.host.calls) hrun
  have hcreated : Call.created ran.host.calls = List.range (2 ^ 32 + 1) := by
    have hbefore : Call.created t₁.calls = List.range (2 ^ 32) := h₁.created
    rw [hcalls, Call.created_append, Call.created_append, hbefore, Call.created_create,
      Call.created_edit, List.append_nil]
    exact (List.range_succ).symm
  refine ⟨.single (.request ..), ?_, ?_, ?_, ?_⟩
  · rw [hcreated]
    exact List.nodup_range
  · rw [hcalls]
    exact List.mem_append_right _ List.mem_cons_self
  · rw [hmachine, htable₂, hnext]
    rfl
  · rw [hmachine, htable₂, hdeferred₂, h₁.deferred, hcalls]
    simp [h₁.appended, h₁.inserted, Call.isAppend, Call.isInsertion]

end TreeCode.Machine
