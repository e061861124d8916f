import TreeCode.Proofs.Machine.Streaming
import TreeCode.Proofs.Machine.Taking
import TreeCode.Proofs.Slots

/-!
# Instructions called with operands

Who wants a change to nodes that are in a tree already puts operands on the stack and feeds one
opcode. `Supplies` says which operands go with which opcode and what is asked of the host then. If
the operands fit on the stack, this is all that is asked of it, and the stack is as it was before
them (`run_supplied`).
-/

namespace TreeCode

variable {σ ν : Type}

/-- A live node, found in a slot that an operand can stand for. -/
def SlotTable.Named (t : SlotTable ν) (id : SlotId) (node : ν) : Prop :=
  t.get? id = some node ∧ id.index < 2 ^ 31

namespace Machine

/-- The requests put on the operands of an instruction by which it asks for an edit. Each text goes
on before its length. -/
inductive Supplies (t : SlotTable ν) : Instruction String → List Request → Edit ν → Prop
  | removeChild {parent child : SlotId} {p c : ν} : t.Named parent p → t.Named child c →
      Supplies t .removeChild [.push parent.toOperand, .push child.toOperand] (.removeChild p c)
  | replaceChild {parent old new : SlotId} {p o n : ν} :
      t.Named parent p → t.Named old o → t.Named new n →
      Supplies t .replaceChild
        [.push parent.toOperand, .push old.toOperand, .push new.toOperand] (.replaceChild p o n)
  | setText {id : SlotId} {node : ν} {text : String} {length : Int32} :
      t.Named id node → length.toInt = (Text.utf8 text).length →
      Supplies t .setText [.push id.toOperand, .pushText text, .push length] (.setText node text)
  | removeAttribute {id : SlotId} {node : ν} {key : String} {length : Int32} :
      t.Named id node → length.toInt = (Text.utf8 key).length →
      Supplies t .removeAttribute [.push id.toOperand, .pushText key, .push length]
        (.removeAttribute node key)
  | style {id : SlotId} {node : ν} {name value : String} {nameLength valueLength : Int32} :
      t.Named id node → valueLength.toInt = (Text.utf8 value).length →
      nameLength.toInt = (Text.utf8 name).length →
      Supplies t .style
        [.push id.toOperand, .pushText value, .push valueLength, .pushText name, .push nameLength]
        (.setStyle node name value)

/-! ## Putting operands on -/

def puts : Request → Bool
  | .push _ | .pushText _ => true
  | _ => false

/-- The requests put operands on the first stack, there is room for all, and the second is left. -/
inductive Loads : List Request → Operands → Operands → Prop
  | nil (s : Operands) : Loads [] s s
  | push {value : Int32} {rest : List Request} {s s' s'' : Operands} :
      Operands.push value s = .ok () s' → Loads rest s' s'' → Loads (.push value :: rest) s s''
  | pushText {text : String} {rest : List Request} {s s' s'' : Operands} :
      Operands.pushText (Text.utf8 text) s = .ok () s' → Loads rest s' s'' →
      Loads (.pushText text :: rest) s s''

variable {m : Machine ν} {i : Instruction String} {pushes : List Request} {e : Edit ν}

theorem Supplies.puts {t : SlotTable ν} (h : Supplies t i pushes e) :
    ∀ request ∈ pushes, Machine.puts request := by
  cases h <;> simp [Machine.puts]

theorem alone_onOperands_of_isOk {α β : Type} {host : σ} {access : Operands.Access α} {f : α → β}
    (h : ((m.alone host (onOperands access)).map f).result.isOk) :
    ∃ a s, access m.operands = .ok a s ∧
      (m.alone host (onOperands access)).machine = { m with operands := s } ∧
      (m.alone host (onOperands access)).host = host := by
  unfold alone onOperands Outcome.map at *
  cases ha : access m.operands with
  | ok a s => exact ⟨a, s, rfl, rfl, rfl⟩
  | error e s =>
    rw [ha] at h
    cases h

section Host

variable [Host σ ν] {host : σ}

theorem loads_of_serve (hputs : ∀ request ∈ pushes, puts request)
    (hok : ∀ answer ∈ (m.serve pushes host).1, answer.isOk) :
    ∃ s, Loads pushes m.operands s ∧
      (m.serve pushes host).2 = ({ m with operands := s }, host) := by
  induction pushes generalizing m host with
  | nil => exact ⟨m.operands, .nil _, rfl⟩
  | cons request rest ih =>
    obtain ⟨hfirst, hrest⟩ := List.forall_mem_cons.mp hputs
    rw [serve, List.forall_mem_cons] at hok
    obtain ⟨hanswer, hok⟩ := hok
    obtain ⟨s, hload, hserved⟩ := ih hrest hok
    rw [serve]
    cases request with
    | push value =>
      obtain ⟨a, s', hpush, hmachine, hhost⟩ := alone_onOperands_of_isOk hanswer
      simp only [perform, Outcome.map, Machine.push, hmachine, hhost] at hload hserved ⊢
      exact ⟨s, .push hpush hload, hserved⟩
    | pushText text =>
      obtain ⟨a, s', hpush, hmachine, hhost⟩ := alone_onOperands_of_isOk hanswer
      simp only [perform, Outcome.map, Machine.pushText, hmachine, hhost] at hload hserved ⊢
      exact ⟨s, .pushText hpush hload, hserved⟩
    | feed | pop | run | flush => cases hfirst

end Host

/-! ## Taking them off -/

theorem node?_of_named {id : SlotId} {node : ν} (h : m.table.Named id node) :
    m.node? id.toOperand = some node := by
  rw [node?, SlotId.ofOperand?_toOperand h.2]
  exact h.1

/-- With its operands on the stack an instruction asks for its edit, and takes no more than them. -/
theorem prepare_of_loads {s loaded : Operands} (hs : s.Sound) (h : Supplies m.table i pushes e)
    (hload : Loads pushes s loaded) :
    ∃ operands, prepare i { m with operands := loaded } = .ok (.edit e) { m with operands } ∧
      s.Alike operands := by
  have hlike : loaded.Alike loaded := .refl loaded
  cases h with
  | removeChild hp hc =>
    rcases hload with _ | ⟨hparent, _ | ⟨hchild, ⟨⟩⟩⟩
    obtain ⟨s₁, hpop₁, hlike₁⟩ := Operands.pop_of_push (hs.push hparent) hchild hlike
    obtain ⟨s₂, hpop₂, hlike₂⟩ := Operands.pop_of_push hs hparent hlike₁
    have hprepare := prepare_removeChild hpop₁ hpop₂ (node?_of_named hp) (node?_of_named hc)
    exact ⟨s₂, hprepare, hlike₂⟩
  | replaceChild hp ho hn =>
    rcases hload with _ | ⟨hparent, _ | ⟨hold, _ | ⟨hnew, ⟨⟩⟩⟩⟩
    have hs₁ := hs.push hparent
    obtain ⟨s₁, hpop₁, hlike₁⟩ := Operands.pop_of_push (hs₁.push hold) hnew hlike
    obtain ⟨s₂, hpop₂, hlike₂⟩ := Operands.pop_of_push hs₁ hold hlike₁
    obtain ⟨s₃, hpop₃, hlike₃⟩ := Operands.pop_of_push hs hparent hlike₂
    have hprepare := prepare_replaceChild hpop₁ hpop₂ hpop₃ (node?_of_named hp)
      (node?_of_named ho) (node?_of_named hn)
    exact ⟨s₃, hprepare, hlike₃⟩
  | setText hid hlength =>
    rcases hload with _ | ⟨hslot, _ | _ | ⟨htext, _ | ⟨hpush, ⟨⟩⟩⟩⟩
    obtain ⟨s₁, s₂, hpop₁, hpop₂, hlike₂⟩ :=
      Operands.popText_of_push (hs.push hslot) htext hlength hpush hlike
    obtain ⟨s₃, hpop₃, hlike₃⟩ := Operands.pop_of_push hs hslot hlike₂
    exact ⟨s₃, prepare_setText hpop₁ hpop₂ hpop₃ (node?_of_named hid), hlike₃⟩
  | removeAttribute hid hlength =>
    rcases hload with _ | ⟨hslot, _ | _ | ⟨htext, _ | ⟨hpush, ⟨⟩⟩⟩⟩
    obtain ⟨s₁, s₂, hpop₁, hpop₂, hlike₂⟩ :=
      Operands.popText_of_push (hs.push hslot) htext hlength hpush hlike
    obtain ⟨s₃, hpop₃, hlike₃⟩ := Operands.pop_of_push hs hslot hlike₂
    exact ⟨s₃, prepare_removeAttribute hpop₁ hpop₂ hpop₃ (node?_of_named hid), hlike₃⟩
  | style hid hvalueLength hnameLength =>
    rcases hload with
      _ | ⟨hslot, _ | _ | ⟨hvalue, _ | ⟨hpush, _ | _ | ⟨hname, _ | ⟨hpush', ⟨⟩⟩⟩⟩⟩⟩
    have hs₁ := hs.push hslot
    have hs₂ := (hs₁.pushText hvalue).push hpush
    -- The name went on last, so it comes off first.
    obtain ⟨s₁, s₂, hpop₁, hpop₂, hlike₂⟩ :=
      Operands.popText_of_push hs₂ hname hnameLength hpush' hlike
    obtain ⟨s₃, s₄, hpop₃, hpop₄, hlike₄⟩ :=
      Operands.popText_of_push hs₁ hvalue hvalueLength hpush hlike₂
    obtain ⟨s₅, hpop₅, hlike₅⟩ := Operands.pop_of_push hs hslot hlike₄
    have hprepare := prepare_style hpop₁ hpop₂ hpop₃ hpop₄ hpop₅ (node?_of_named hid)
    exact ⟨s₅, hprepare, hlike₅⟩

theorem read_of_supplies {t : SlotTable ν} (h : Supplies t i pushes e) :
    ∃ raw, Instruction.read [i.opcode.byte] = .complete raw 1 ∧ raw.ofBytes = i := by
  cases h <;> exact ⟨_, rfl, rfl⟩

/-! ## Calls -/

theorem run_feed_byte [Host σ ν] (host : σ) {raw : Instruction (List UInt8)} {byte : UInt8}
    {k k' : Machine ν} (hplace : k.place = k.program.length)
    (hread : Instruction.read [byte] = .complete raw 1)
    (hprepare : prepare raw.ofBytes k = .ok (.edit e) k') :
    let ran := (k.feed [byte]).run host
    ran.result = .ok .done ∧ ran.host = Host.edit e host ∧
      ran.machine = k'.relocate (k.program ++ [byte]) (k.place + 1) := by
  have hremaining : (k.feed [byte]).remaining = [byte] := by
    rw [remaining_feed (Nat.le_of_eq hplace), remaining, hplace, List.drop_length, List.nil_append]
  have hexecute : execute raw.ofBytes ((k.feed [byte]).advance 1) host =
      ⟨.ok (), k'.relocate (k.program ++ [byte]) (k.place + 1), Host.edit e host, []⟩ := by
    change execute raw.ofBytes (k.relocate (k.program ++ [byte]) (k.place + 1)) host = _
    rw [execute_relocate, execute, hprepare]
    rfl
  intro ran
  have hran : ran = (runOn [] (k'.relocate (k.program ++ [byte]) (k.place + 1))
      (Host.edit e host)).after [executing k.place raw.ofBytes] := by
    change (k.feed [byte]).run host = _
    rw [run, hremaining, runOn_of_ok hread (by rw [hexecute]), hexecute]
    rfl
  rw [hran, runOn_nil]
  exact ⟨rfl, rfl, rfl⟩

/-- **The calling convention.** A machine stands at the end of its program. The operands of an
instruction are put on its stack, and there is room for all; then the opcode is fed, and the machine
runs. It is done with one call made to the host, the edit that the operands name, and nothing else
is changed: the operand stack has its depth again, with the values and the texts that it had. -/
theorem run_supplied [Host σ ν] {m : Machine ν} {t : Traced σ ν} {i : Instruction String}
    {pushes : List Request} {e : Edit ν} (hm : Reachable σ m) (hplace : m.place = m.program.length)
    (h : Supplies m.table i pushes e)
    (hok : ∀ answer ∈ (m.serve pushes t).1, answer.isOk) :
    let loaded := (m.serve pushes t).2
    let ran := (loaded.1.feed [i.opcode.byte]).run loaded.2
    ran.result = .ok .done ∧ ran.host = ⟨Host.edit e t.host, t.calls ++ [.edit e]⟩ ∧
      ran.machine = { m with
        program := m.program ++ [i.opcode.byte]
        place := m.place + 1
        operands := ran.machine.operands } ∧
      ran.machine.operands.depth = m.operands.depth ∧
      ran.machine.operands.contents = m.operands.contents ∧
      m.operands.Alike ran.machine.operands := by
  obtain ⟨loaded, hload, hserved⟩ := loads_of_serve h.puts hok
  obtain ⟨operands, hprepare, hlike⟩ := prepare_of_loads hm.sound h hload
  obtain ⟨raw, hread, rfl⟩ := read_of_supplies h
  let k : Machine ν := { m with operands := loaded }
  obtain ⟨hresult, hhost, hmachine⟩ := run_feed_byte t (k := k) hplace hread hprepare
  intro served ran
  have hran : ran = (k.feed [raw.ofBytes.opcode.byte]).run t := by
    change (served.1.feed _).run served.2 = _
    rw [show served = (k, t) from hserved]
  have hoperands : ran.machine.operands = operands := by
    rw [hran, hmachine]
    rfl
  rw [hoperands, hran]
  exact ⟨hresult, hhost, hmachine, hlike.depth, hlike.contents, hlike⟩

/-- A style is set over a text that stays on the stack, and the text is then taken off. -/
theorem run_supplied_style_over_text :
    let m : Machine Nat :=
      (serve [.run, .pushText "ü", .push 2] (start [1, 1, 112] false {} 0) ({} : Numbering)).2.1
    let t : Traced Numbering Nat := ⟨{ created := 1 }, []⟩
    let pushes : List Request :=
      [.push (SlotId.toOperand ⟨0⟩), .pushText "1 €", .push 5, .pushText "width", .push 5]
    let loaded := (m.serve pushes t).2
    let ran := (loaded.1.feed [Opcode.style.byte]).run loaded.2
    m.place = m.program.length ∧ (∀ answer ∈ (m.serve pushes t).1, answer.isOk) ∧
      ran.result = .ok .done ∧ ran.host.calls = [.edit (.setStyle 0 "width" "1 €")] ∧
      ran.machine.operands.contents = [2, 0, 0] ∧
      (ran.machine.alone ran.host popText).result.toOption = some "ü" := by
  intro m t pushes loaded ran
  have hm : Reachable Numbering m := .request _ _ (.request _ _ (.request _ _ (.start _ _ _ _)))
  have hplace : m.place = m.program.length := by decide +kernel
  have hnamed : m.table.Named ⟨0⟩ 0 := ⟨by decide +kernel, by decide⟩
  have hok : ∀ answer ∈ (m.serve pushes t).1, answer.isOk := by decide +kernel
  obtain ⟨hresult, hhost, -, -, hcontents, -⟩ :=
    run_supplied (t := t) hm hplace (.style hnamed (by decide +kernel) (by decide +kernel)) hok
  exact ⟨hplace, hok, hresult, congrArg Traced.calls hhost, hcontents.trans (by decide +kernel),
    by decide +kernel⟩

end Machine

end TreeCode
