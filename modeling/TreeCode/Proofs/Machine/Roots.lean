import TreeCode.Proofs.Machine.Taking
import TreeCode.Proofs.Machine.Workshop

/-!
# Live nodes are roots

A node is live at a machine until it is joined to another, so of a document that was empty, and that
machines alone have changed, no live node has a parent. To take a live node away from another, or to
put one in its place, then changes nothing (`live_nodes_are_roots`).
-/

namespace TreeCode

/-! ## Instructions that take slots -/

namespace Machine

variable {σ ν : Type} [Host σ ν] {m : Machine ν} {parent child old new : Int32}
  {rest : List Int32} {p c o n : ν}

theorem execute_removeChild (host : σ) (hs : m.operands.Sound)
    (hcontents : m.operands.contents = child :: parent :: rest)
    (hp : m.node? parent = some p) (hc : m.node? child = some c) :
    ∃ operands, operands.contents = rest ∧
      execute .removeChild m host =
        ⟨.ok (), { m with operands }, Host.edit (.removeChild p c) host, []⟩ := by
  have hholds : m.operands.Holds m.operands.capacity (child :: parent :: rest) :=
    ⟨hs, rfl, hcontents⟩
  obtain ⟨s₁, hpop₁, hholds₁⟩ := hholds.pop
  obtain ⟨s₂, hpop₂, hholds₂⟩ := hholds₁.pop
  have hprepare : prepare .removeChild m = _ := prepare_removeChild hpop₁ hpop₂ hp hc
  refine ⟨s₂, hholds₂.contents, ?_⟩
  rw [execute, hprepare]
  rfl

theorem execute_replaceChild (host : σ) (hs : m.operands.Sound)
    (hcontents : m.operands.contents = new :: old :: parent :: rest)
    (hp : m.node? parent = some p) (ho : m.node? old = some o) (hn : m.node? new = some n) :
    ∃ operands, operands.contents = rest ∧
      execute .replaceChild m host =
        ⟨.ok (), { m with operands }, Host.edit (.replaceChild p o n) host, []⟩ := by
  have hholds : m.operands.Holds m.operands.capacity (new :: old :: parent :: rest) :=
    ⟨hs, rfl, hcontents⟩
  obtain ⟨s₁, hpop₁, hholds₁⟩ := hholds.pop
  obtain ⟨s₂, hpop₂, hholds₂⟩ := hholds₁.pop
  obtain ⟨s₃, hpop₃, hholds₃⟩ := hholds₂.pop
  have hprepare : prepare .replaceChild m = _ :=
    prepare_replaceChild hpop₁ hpop₂ hpop₃ hp ho hn
  refine ⟨s₃, hholds₃.contents, ?_⟩
  rw [execute, hprepare]
  rfl

end Machine

/-! ## Every moment of a workshop -/

namespace Workshop

/-- From one moment of a workshop to the next: there is a turn, or a machine in a run executes the
instruction it stands before. -/
inductive Next {σ ν : Type} [Host σ ν] : Workshop σ ν → Workshop σ ν → Prop
  | turn (w : Workshop σ ν) (turn : Turn) : Next w (w.take turn)
  | instruction {w : Workshop σ ν} {machine : Nat} {m : Machine ν}
      {raw : Instruction (List UInt8)} {width : Nat} :
      w.machines[machine]? = some m → Instruction.read m.remaining = .complete raw width →
      Next w ⟨(Machine.execute raw.ofBytes (m.advance width) w.host).host,
        w.machines.set machine (Machine.execute raw.ofBytes (m.advance width) w.host).machine⟩

abbrev Later {σ ν : Type} [Host σ ν] : Workshop σ ν → Workshop σ ν → Prop :=
  Relation.ReflTransGen Next

variable {w w' : Workshop Document NodeId} {defersSiblings : Bool} {m : Machine NodeId}

theorem tended_empty (defersSiblings : Bool) :
    (⟨{ defersSiblings }, []⟩ : Workshop Document NodeId).Tended :=
  ⟨[], .empty defersSiblings, .nil, List.forall_mem_nil _, List.forall_mem_nil _⟩

theorem Tended.next (h : w.Tended) (hnext : Next w w') : w'.Tended := by
  cases hnext with
  | turn turn => exact h.take turn
  | instruction hm _ =>
    exact h.set hm fun P hdeed => Machine.execute_keeps hdeed _ _ w.host _

theorem Tended.later (h : w.Tended) (hlater : Later w w') : w'.Tended := by
  induction hlater with
  | refl => exact h
  | tail _ hnext ih => exact ih.next hnext

theorem forall_mem_set {α : Type} {P : α → Prop} {xs : List α} {i : Nat} {x : α}
    (h : ∀ y ∈ xs, P y) (hx : P x) : ∀ y ∈ xs.set i x, P y := by
  intro y hy
  rcases List.mem_or_eq_of_mem_set hy with hy | rfl
  · exact h y hy
  · exact hx

theorem reachable_of_next {σ ν : Type} [Host σ ν] {w w' : Workshop σ ν}
    (h : ∀ m ∈ w.machines, Machine.Reachable σ m) (hnext : Next w w') :
    ∀ m ∈ w'.machines, Machine.Reachable σ m := by
  cases hnext with
  | turn turn =>
    cases turn with
    | start program defersSiblings settings registry =>
      exact List.forall_mem_append.mpr
        ⟨h, List.forall_mem_singleton.mpr (.start program defersSiblings settings registry)⟩
    | ask machine request =>
      simp only [Workshop.take]
      cases hm : w.machines[machine]? with
      | none => exact h
      | some m =>
        exact forall_mem_set h (.request w.host request (h m (List.mem_of_getElem? hm)))
  | instruction hm hread =>
    exact forall_mem_set h (.instruction w.host hread (h _ (List.mem_of_getElem? hm)))

theorem reachable_of_later {σ ν : Type} [Host σ ν] {host : σ} {w : Workshop σ ν}
    (h : Later ⟨host, []⟩ w) : ∀ m ∈ w.machines, Machine.Reachable σ m := by
  induction h with
  | refl => exact List.forall_mem_nil _
  | tail _ hnext ih => exact reachable_of_next ih hnext

theorem Tended.parent_of_live (h : w.Tended) (hm : m ∈ w.machines) {id : NodeId}
    (hid : id ∈ m.table.nodes) : (w.host.node id).parent = none := by
  obtain ⟨order, h⟩ := h
  exact h.forest.parent_eq_none (h.free id (List.mem_flatMap.mpr ⟨m, hm, hid⟩)).2

theorem later_after {σ ν : Type} [Host σ ν] (w : Workshop σ ν) (turns : List Turn) :
    Later w (w.after turns) := by
  induction turns generalizing w with
  | nil => exact .refl
  | cons turn rest ih => exact .head (.turn w turn) (ih (w.take turn))

/-- **Live nodes are roots.** Machines start on a document that was empty, any number of them and at
any time, and are asked anything in any order. At every moment, between two requests or between two
instructions of a run, no live node of any machine has a parent. So an instruction to take one live
node away from another, or to put one in its place, is executed without an error and leaves the
document as it is. -/
theorem live_nodes_are_roots (h : Later ⟨{ defersSiblings }, []⟩ w) (hm : m ∈ w.machines) :
    (∀ entry ∈ m.table.live, (w.host.node entry.2).parent = none) ∧
    (∀ parent child rest p c, m.operands.contents = child :: parent :: rest →
      m.node? parent = some p → m.node? child = some c →
      ∃ operands, operands.contents = rest ∧
        Machine.execute .removeChild (m.advance 1) w.host =
          ⟨.ok (), { m.advance 1 with operands }, w.host, []⟩) ∧
    ∀ parent old new rest p o n, m.operands.contents = new :: old :: parent :: rest →
      m.node? parent = some p → m.node? old = some o → m.node? new = some n →
      ∃ operands, operands.contents = rest ∧
        Machine.execute .replaceChild (m.advance 1) w.host =
          ⟨.ok (), { m.advance 1 with operands }, w.host, []⟩ := by
  have htended : w.Tended := (tended_empty defersSiblings).later h
  have hs : m.operands.Sound := (reachable_of_later h m hm).sound
  refine ⟨fun entry hentry => ?_, ?_, ?_⟩
  · exact htended.parent_of_live hm (List.mem_map_of_mem hentry)
  · intro parent child rest p c hcontents hp hc
    have hroot := htended.parent_of_live hm (Machine.mem_nodes_of_node? hc)
    have hsame : Host.edit (Edit.removeChild p c) w.host = w.host :=
      Document.removeChild_of_root hroot p
    obtain ⟨operands, hrest, hexecute⟩ :=
      Machine.execute_removeChild (m := m.advance 1) w.host hs hcontents hp hc
    exact ⟨operands, hrest, by rw [hexecute, hsame]⟩
  · intro parent old new rest p o n hcontents hp ho hn
    -- Where the other two stand does not matter, as the old one is nobody's child.
    have hroot := htended.parent_of_live hm (Machine.mem_nodes_of_node? ho)
    have hsame : Host.edit (Edit.replaceChild p o n) w.host = w.host :=
      Document.replaceChild_of_root hroot p n
    obtain ⟨operands, hrest, hexecute⟩ :=
      Machine.execute_replaceChild (m := m.advance 1) w.host hs hcontents hp ho hn
    exact ⟨operands, hrest, by rw [hexecute, hsame]⟩

/-- A text that waited to be put beside another has come under a parent with it. Another machine has
made a node meanwhile, and the first has made two more, one to be put in the place of the other. -/
theorem live_nodes_are_roots_late_sibling :
    let turns : List Turn :=
      [.start [1, 1, 112, 6, 1, 97, 6, 1, 98, 12, 3] true {} 0, .ask 0 .run,
        .start [6, 1, 120] false {} 1, .ask 1 .run, .ask 0 .flush,
        .ask 0 (.feed [1, 1, 113, 6, 1, 99]), .ask 0 .run]
    let w := Workshop.after ⟨({ defersSiblings := true } : Document), []⟩ turns
    ∃ m ∈ w.machines, m.table.live.map (·.2) = [5, 4, 0] ∧ m.operands.contents = [4, 3, 0] ∧
      (w.host.node 2).parent = some 0 ∧ (w.host.node 5).parent = none ∧
      (Machine.execute .replaceChild (m.advance 1) w.host).result = .ok () ∧
      (Machine.execute .replaceChild (m.advance 1) w.host).host = w.host := by
  intro turns w
  let m : Machine NodeId := w.machines.get ⟨0, by decide +kernel⟩
  have hm : m ∈ w.machines := List.get_mem w.machines _
  have hlive : m.table.live = [(⟨4⟩, 5), (⟨3⟩, 4), (⟨0⟩, 0)] := by decide +kernel
  have hcontents : m.operands.contents = [4, 3, 0] := by decide +kernel
  obtain ⟨hroots, -, hreplace⟩ := live_nodes_are_roots (later_after _ turns) hm
  obtain ⟨operands, -, hexecute⟩ := hreplace 0 3 4 [] 0 4 5 hcontents (by decide +kernel)
    (by decide +kernel) (by decide +kernel)
  exact ⟨m, hm, by rw [hlive]; rfl, hcontents, by decide +kernel,
    hroots (⟨4⟩, 5) (by rw [hlive]; simp), by rw [hexecute], by rw [hexecute]⟩

end Workshop

end TreeCode
