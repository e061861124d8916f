import Mathlib.Data.List.DropRight
import TreeCode.Proofs.Listing
import TreeCode.Proofs.Machine.Deeds
import TreeCode.Proofs.Machine.Streaming
import TreeCode.Proofs.Operands
import TreeCode.Proofs.Slots

/-!
# The operand stack of a machine that builds trees

Each new node's slot is offered to the operand stack, and taken off again with the node if it is on
top. As long as nobody else touches the stack, it holds the slots of the oldest live nodes, as many
as there is room for (`Machine.Echoes`): a full stack misses the newest, and what it misses is gone
from the table before the first that it holds. An instruction without operands keeps that
(`echoes_execute`), so it is true at every moment of a machine that builds trees
(`operands_echo_live`).
-/

namespace TreeCode

variable {α σ ν : Type}

/-! ## The last of a list -/

theorem rtake_cons_of_lt {k : Nat} {xs : List α} (h : xs.length < k) (x : α) :
    (x :: xs).rtake k = x :: xs.rtake k := by
  unfold List.rtake
  rw [List.length_cons, show xs.length + 1 - k = 0 by omega, show xs.length - k = 0 by omega]
  rfl

theorem rtake_cons_of_le {k : Nat} {xs : List α} (h : k ≤ xs.length) (x : α) :
    (x :: xs).rtake k = xs.rtake k := by
  unfold List.rtake
  rw [List.length_cons, show xs.length + 1 - k = xs.length - k + 1 by omega]
  rfl

theorem length_rtake (k : Nat) (xs : List α) : (xs.rtake k).length = min xs.length k := by
  unfold List.rtake
  rw [List.length_drop]
  omega

theorem reverse_rtake (k : Nat) (xs : List α) : (xs.rtake k).reverse = xs.reverse.take k := by
  rw [List.rtake_eq_reverse_take_reverse, List.reverse_reverse]

/-- The slots of the live nodes as operands, the newest first. -/
def SlotTable.operands (t : SlotTable ν) : List Int32 := t.live.map (·.1.toOperand)

def Listing.SparesOperands (l : Listing) : Prop :=
  ∀ item ∈ l.items, item.2.opcode.usesOperands = false

namespace Listing.SparesOperands

variable {l : Listing} {offset : Nat} {i : Instruction String}

theorem head (h : (cons offset i l).SparesOperands) : i.opcode.usesOperands = false :=
  h _ List.mem_cons_self

theorem tail (h : (cons offset i l).SparesOperands) : l.SparesOperands :=
  fun item hitem => h item (List.mem_cons_of_mem _ hitem)

end Listing.SparesOperands

namespace Machine

/-- The operand stack, of `capacity` slots, holds the slots of the oldest live nodes, as many as there
is room for. -/
structure Echoes (m : Machine ν) (capacity : Nat) : Prop where
  ordered : m.table.Ordered
  holds : m.operands.Holds capacity (m.table.operands.rtake (capacity - 1))

variable {m m' : Machine ν} {capacity : Nat}

theorem echoes_start (program : List UInt8) (defersSiblings : Bool) (settings : Settings)
    (registry : RegistryId) :
    (start program defersSiblings settings registry : Machine ν).Echoes
      (min (max settings.operandSlots 1) Operands.maxSlots) where
  ordered := SlotTable.ordered_empty
  holds := by
    change Operands.Holds _ _ ([].rtake _)
    rw [List.rtake_nil]
    exact Operands.Holds.empty settings.operandSlots settings.scratchBytes

theorem Echoes.of_eq (h : m.Echoes capacity) (htable : m'.table = m.table)
    (hoperands : m'.operands = m.operands) : m'.Echoes capacity where
  ordered := htable ▸ h.ordered
  holds := by
    rw [htable, hoperands]
    exact h.holds

theorem Echoes.relocate (h : m.Echoes capacity) (program : List UInt8) (place : Nat) :
    (m.relocate program place).Echoes capacity := h.of_eq rfl rfl

theorem Echoes.advance (h : m.Echoes capacity) (width : Nat) : (m.advance width).Echoes capacity :=
  h.relocate _ _

/-! ## A node comes -/

theorem Echoes.adopt (h : m.Echoes capacity) (node : ν) : (m.adopt node).2.Echoes capacity := by
  have hlength : m.table.operands.length = m.table.live.length := List.length_map ..
  have hlt := h.holds.length_lt
  rw [length_rtake] at hlt
  unfold Machine.adopt
  rw [SlotTable.nodeTable_insert]
  by_cases hroom : m.table.operands.length < capacity - 1
  · have hfree : (m.table.operands.rtake (capacity - 1)).length + 1 < capacity := by
      rw [length_rtake]
      omega
    obtain ⟨operands, hpush, hholds⟩ := h.holds.push hfree (m.table.insert node).1.toOperand
    simp only [hpush]
    refine ⟨h.ordered.insert node, ?_⟩
    rwa [← rtake_cons_of_lt hroom] at hholds
  · have hfull : (m.table.operands.rtake (capacity - 1)).length + 1 = capacity := by
      rw [length_rtake]
      omega
    simp only [h.holds.push_of_full hfull]
    refine ⟨h.ordered.insert node, ?_⟩
    change m.operands.Holds capacity ((_ :: m.table.operands).rtake (capacity - 1))
    rw [rtake_cons_of_le (by omega)]
    exact h.holds

/-! ## A node goes -/

theorem not_mem_operands_tail (h : m.table.Ordered) (hfew : m.table.created ≤ 2 ^ 31)
    {newest : SlotId × ν} {rest : List (SlotId × ν)} (hlive : m.table.live = newest :: rest) :
    newest.1.toOperand ∉ rest.map (·.1.toOperand) := by
  intro hmem
  obtain ⟨older, holder, heq⟩ := List.mem_map.mp hmem
  have hbound (entry : SlotId × ν) (hentry : entry ∈ m.table.live) : entry.1.index < 2 ^ 31 :=
    Nat.lt_of_lt_of_le (h.lt_created entry hentry) hfew
  have hsame : older.1 = newest.1 :=
    SlotId.toOperand_inj (hbound older (by rw [hlive]; exact List.mem_cons_of_mem _ holder))
      (hbound newest (by rw [hlive]; exact List.mem_cons_self)) heq
  have hpairwise := h.pairwise
  rw [hlive] at hpairwise
  have hlt := List.rel_of_pairwise_cons hpairwise holder
  rw [hsame] at hlt
  exact Nat.lt_irrefl _ hlt

/-- The newest live node leaves the table, and its slot the operand stack if it is on top there. -/
theorem exists_of_consume {pair : ν × ν} (hc : consume m = .ok pair m') :
    ∃ newest rest, m.table.live = newest :: rest ∧ m'.table = { m.table with live := rest } ∧
      m'.operands =
        if m.operands.top? = some newest.1.toOperand then
          match Operands.pop m.operands with
          | .ok _ operands => operands
          | .error _ operands => operands
        else m.operands := by
  obtain ⟨program, place, operands, ⟨live, created⟩, defersSiblings, deferred⟩ := m
  rcases live with _ | ⟨newest, _ | ⟨parent, rest⟩⟩
  · cases hc
  · cases hc
  · cases hc
    exact ⟨newest, parent :: rest, rfl, rfl, rfl⟩

theorem Echoes.consume (h : m.Echoes capacity) (hfew : m.table.created ≤ 2 ^ 31) {pair : ν × ν}
    (hc : consume m = .ok pair m') : m'.Echoes capacity := by
  obtain ⟨newest, rest, hlive, htable, hoperands⟩ := exists_of_consume hc
  have hstay : m.table.live = newest :: m'.table.live := by rw [hlive, htable]
  have hordered : m'.table.Ordered := h.ordered.tail hstay (by rw [htable])
  have hbefore : m.table.operands = newest.1.toOperand :: rest.map (·.1.toOperand) := by
    rw [SlotTable.operands, hlive]
    rfl
  have hafter : m'.table.operands = rest.map (·.1.toOperand) := by rw [SlotTable.operands, htable]
  have hholds := h.holds
  refine ⟨hordered, ?_⟩
  rw [hafter, hoperands]
  rw [hbefore] at hholds
  by_cases hroom : (rest.map (·.1.toOperand)).length < capacity - 1
  · -- All slots are on the stack, that of the newest node on top.
    rw [rtake_cons_of_lt hroom] at hholds
    obtain ⟨operands, hpop, hpopped⟩ := hholds.pop
    have htop : m.operands.top? = some newest.1.toOperand := hholds.top?
    rw [if_pos htop]
    simp only [hpop]
    exact hpopped
  · -- The newest node's slot had no room, and on top is that of an older one, or nothing.
    rw [rtake_cons_of_le (by omega)] at hholds
    have hother : m.operands.top? ≠ some newest.1.toOperand := by
      rw [hholds.top?]
      intro htop
      exact not_mem_operands_tail h.ordered hfew hlive
        (List.mem_of_mem_drop (List.mem_of_mem_head? htop))
    rw [if_neg hother]
    exact hholds

/-! ## One instruction -/

/-- An instruction that neither takes operands nor consumes a node leaves the machine as it is. -/
theorem eq_of_prepare {i : Instruction String} (hi : i.opcode.usesOperands = false)
    (hc : consumes i = false) :
    (∀ {demand}, prepare i m = .ok demand m' → m' = m) ∧
      ∀ {e}, prepare i m = .error e m' → m' = m := by
  cases i with
  | createElement tag =>
    simp only [prepare]
    split
    · exact ⟨(by intro _ h; cases h), by intro _ h; cases h; rfl⟩
    · exact ⟨(by intro _ h; cases h; rfl), by intro _ h; cases h⟩
  | textNode text => exact ⟨(by intro _ h; cases h; rfl), by intro _ h; cases h⟩
  | setAttribute key value =>
    obtain ⟨program, place, operands, ⟨live, created⟩, defers, deferred⟩ := m
    cases live with
    | nil => exact ⟨(by intro _ h; cases h), by intro _ h; cases h; rfl⟩
    | cons newest rest => exact ⟨(by intro _ h; cases h; rfl), by intro _ h; cases h⟩
  | eventListener event callback =>
    obtain ⟨program, place, operands, ⟨live, created⟩, defers, deferred⟩ := m
    rcases live with _ | ⟨newest, _ | ⟨below, rest⟩⟩
    · exact ⟨(by intro _ h; cases h), by intro _ h; cases h; rfl⟩
    · exact ⟨(by intro _ h; cases h), by intro _ h; cases h; rfl⟩
    · exact ⟨(by intro _ h; cases h; rfl), by intro _ h; cases h⟩
  | appendChild | appendSibling => cases hc
  | _ => cases hi

/-- An instruction that consumes a node does no more to the machine, and nothing if it fails. -/
theorem consume_of_prepare {i : Instruction String} (hc : consumes i = true) :
    (∀ {demand}, prepare i m = .ok demand m' → ∃ pair, consume m = .ok pair m') ∧
      ∀ {e}, prepare i m = .error e m' → m' = m := by
  have hfail {e} (h : consume m = .error e m') : m' = m := by
    unfold consume at h
    split at h <;> cases h
    rfl
  cases i with
  | appendChild =>
    rw [prepare_appendChild]
    cases hx : consume m with
    | ok pair k => exact ⟨(by intro _ h; cases h; exact ⟨pair, rfl⟩), by intro _ h; cases h⟩
    | error e k => exact ⟨(by intro _ h; cases h), by intro _ h; cases h; exact hfail hx⟩
  | appendSibling =>
    rw [prepare_appendSibling]
    cases hx : consume m with
    | ok pair k => exact ⟨(by intro _ h; cases h; exact ⟨pair, rfl⟩), by intro _ h; cases h⟩
    | error e k => exact ⟨(by intro _ h; cases h), by intro _ h; cases h; exact hfail hx⟩
  | _ => cases hc

variable [Host σ ν] {host : σ}

theorem Echoes.satisfy (h : m.Echoes capacity) (demand : Demand ν) :
    (m.satisfy host demand).machine.Echoes capacity := by
  cases demand with
  | create request => exact h.adopt _
  | edit request => exact h
  | defer sibling child => exact h.of_eq rfl rfl

theorem echoes_execute (h : m.Echoes capacity) (hfew : m.table.created ≤ 2 ^ 31)
    {i : Instruction String} (hi : i.opcode.usesOperands = false) :
    (execute i m host).machine.Echoes capacity := by
  unfold execute
  cases hc : consumes i with
  | false =>
    cases hp : prepare i m with
    | ok demand k =>
      obtain rfl : k = m := (eq_of_prepare hi hc).1 hp
      exact h.satisfy demand
    | error e k =>
      obtain rfl : k = m := (eq_of_prepare hi hc).2 hp
      exact h
  | true =>
    cases hp : prepare i m with
    | ok demand k =>
      obtain ⟨pair, hpair⟩ := (consume_of_prepare hc).1 hp
      exact (h.consume hfew hpair).satisfy demand
    | error e k =>
      obtain rfl : k = m := (consume_of_prepare hc).2 hp
      exact h

/-! ## A run -/

/-- A run of instructions that take no operands, however it ends. -/
theorem echoes_runOn (bytes : List UInt8) (m : Machine ν) (host : σ) (h : m.Echoes capacity)
    (hspares : (Listing.ofBytes m.place bytes).SparesOperands)
    (hfew : (runOn bytes m host).machine.table.created ≤ 2 ^ 31) :
    (runOn bytes m host).machine.Echoes capacity := by
  induction bytes, m, host using runOn_induction with
  | finished m host => rwa [runOn_nil]
  | failed bytes m host raw width e hr he =>
    rw [Listing.ofBytes_of_complete hr] at hspares
    rw [runOn_of_error hr he] at hfew ⊢
    have hbefore : (m.advance width).table.created ≤ 2 ^ 31 :=
      Nat.le_trans (created_le_execute raw.ofBytes (m.advance width) host) hfew
    exact echoes_execute (h.advance width) hbefore hspares.head
  | continued bytes m host raw width hr hok ih =>
    rw [Listing.ofBytes_of_complete hr] at hspares
    rw [runOn_of_ok hr hok] at hfew ⊢
    have hmiddle := Nat.le_trans (created_le_runOn (bytes.drop width) _ _) hfew
    have hbefore : (m.advance width).table.created ≤ 2 ^ 31 :=
      Nat.le_trans (created_le_execute raw.ofBytes (m.advance width) host) hmiddle
    have hfirst : (execute raw.ofBytes (m.advance width) host).machine.Echoes capacity :=
      echoes_execute (h.advance width) hbefore hspares.head
    have hplace : (execute raw.ofBytes (m.advance width) host).machine.place = m.place + width :=
      place_execute ..
    refine ih hfirst ?_ hfew
    rw [hplace]
    exact hspares.tail
  | truncated bytes m host hne hr => rwa [runOn_of_truncated hne hr]
  | unknown bytes m host byte hr =>
    rw [runOn_of_unknown hr]
    exact h.relocate _ _
  | undelimited bytes m host found hr => rwa [runOn_of_undelimited hr]

/-! ## Every moment -/

/-- The instructions before the machine take no operands, as far as they can be listed. -/
def Building (m : Machine ν) : Prop := (Listing.ofBytes m.place m.remaining).SparesOperands

/-- A request that leaves the operand stack to the machine, and has it run only if it is building. -/
def Spares (m : Machine ν) : Request → Prop
  | .feed _ | .flush => True
  | .run => m.Building
  | .push _ | .pop | .pushText _ => False

/-- From one moment of a machine that builds trees to the next: it answers a request that spares
the operand stack, or it is in a run and executes an instruction that takes no operands. -/
inductive Builds : Machine ν × σ → Machine ν × σ → Prop
  | request {m : Machine ν} {request : Request} (host : σ) : m.Spares request →
      Builds (m, host) ((m.perform host request).machine, (m.perform host request).host)
  | instruction {m : Machine ν} {raw : Instruction (List UInt8)} {width : Nat} (host : σ) :
      Instruction.read m.remaining = .complete raw width → raw.opcode.usesOperands = false →
      Builds (m, host) ((execute raw.ofBytes (m.advance width) host).machine,
        (execute raw.ofBytes (m.advance width) host).host)

theorem Builds.created_le {s s' : Machine ν × σ} (h : Builds s s') :
    s.1.table.created ≤ s'.1.table.created := by
  cases h with
  | request host _ => exact created_le_perform _ _ host
  | instruction host _ _ => exact created_le_execute _ (advance _ _) host

theorem echoes_perform (h : m.Echoes capacity) {request : Request} (hspares : m.Spares request)
    (hfew : (m.perform host request).machine.table.created ≤ 2 ^ 31) :
    (m.perform host request).machine.Echoes capacity := by
  cases request with
  | feed bytes => exact h.of_eq rfl rfl
  | run => exact echoes_runOn m.remaining m host h hspares hfew
  | flush => exact h.of_eq rfl rfl
  | push value | pop | pushText text => exact absurd hspares id

theorem echoes_of_builds {s s' : Machine ν × σ} (hbuilds : Relation.ReflTransGen Builds s s')
    (h : s.1.Echoes capacity) (hfew : s'.1.table.created ≤ 2 ^ 31) : s'.1.Echoes capacity := by
  induction hbuilds with
  | refl => exact h
  | tail _ hnext ih =>
    have hbefore := ih (Nat.le_trans hnext.created_le hfew)
    cases hnext with
    | request host hspares => exact echoes_perform hbefore hspares hfew
    | @instruction m raw width host hr hoperands =>
      have hspares : raw.ofBytes.opcode.usesOperands = false := by
        rw [Instruction.ofBytes, Instruction.opcode_map]
        exact hoperands
      exact echoes_execute (hbefore.advance width)
        (Nat.le_trans (created_le_execute raw.ofBytes (m.advance width) host) hfew) hspares

/-! ## Chunks -/

/-- What a run leaves unread is still to come in the listing. -/
theorem listing_of_not_final {bytes : List UInt8} {m : Machine ν} {host : σ}
    (hf : isFinal (runOn bytes m host).result = false) :
    ∃ n ≤ bytes.length, (runOn bytes m host).machine.program = m.program ∧
      (runOn bytes m host).machine.place = m.place + n ∧
      ∀ more, (Listing.ofBytes (m.place + n) (bytes.drop n ++ more)).items <:+
        (Listing.ofBytes m.place (bytes ++ more)).items := by
  induction bytes, m, host using runOn_induction with
  | finished m host => exact ⟨0, Nat.le_refl _, by simp, by simp, fun _ => List.suffix_refl _⟩
  | failed bytes m host raw width e hr he => rw [runOn_of_error hr he] at hf; cases hf
  | continued bytes m host raw width hr hok ih =>
    rw [runOn_of_ok hr hok] at hf ⊢
    obtain ⟨n, hn, hprogram, hplace, hrest⟩ := ih hf
    have hw := Instruction.read_width hr
    have hat : (execute raw.ofBytes (m.advance width) host).machine.place = m.place + width :=
      place_execute ..
    rw [hat, Nat.add_assoc] at hplace
    refine ⟨width + n, ?_, hprogram.trans (program_execute ..), hplace, fun more => ?_⟩
    · rw [List.length_drop] at hn
      omega
    · have hlater := hrest more
      rw [hat, List.drop_drop, Nat.add_assoc] at hlater
      rw [Listing.ofBytes_of_complete (read_append_of_complete more hr),
        List.drop_append_of_le_length hw.2]
      exact hlater.trans (List.suffix_cons _ _)
  | truncated bytes m host hne hr =>
    rw [runOn_of_truncated hne hr]
    exact ⟨0, Nat.zero_le _, rfl, rfl, fun _ => List.suffix_refl _⟩
  | unknown bytes m host byte hr => rw [runOn_of_unknown hr] at hf; cases hf
  | undelimited bytes m host found hr => rw [runOn_of_undelimited hr] at hf; cases hf

/-- Each run of a stream is one of a machine that builds trees, if all the bytes list no instruction
that takes operands. -/
theorem builds_feedRuns (chunks : List (List UInt8)) (m : Machine ν) (host : σ)
    (hm : m.place ≤ m.program.length)
    (hspares : (Listing.ofBytes m.place (m.remaining ++ chunks.flatten)).SparesOperands)
    {ran : Outcome σ ν RunState} (hran : ran ∈ feedRuns chunks m host) :
    Relation.ReflTransGen Builds (m, host) (ran.machine, ran.host) := by
  induction chunks generalizing m host with
  | nil => cases hran
  | cons chunk rest ih =>
    have hfed : (m.feed chunk).place ≤ (m.feed chunk).program.length := by
      simp only [feed, List.length_append]
      omega
    have hremaining : (m.feed chunk).remaining = m.remaining ++ chunk := remaining_feed hm chunk
    rw [List.flatten_cons, ← List.append_assoc, ← hremaining] at hspares
    have hbuilding : (m.feed chunk).Building := fun item hitem =>
      hspares item ((Listing.items_prefix _ _ rest.flatten).subset hitem)
    have hrun : Relation.ReflTransGen Builds (m, host)
        (((m.feed chunk).run host).machine, ((m.feed chunk).run host).host) :=
      .head (.request host (show m.Spares (.feed chunk) from trivial))
        (.single (.request host (show (m.feed chunk).Spares .run from hbuilding)))
    rw [feedRuns, List.mem_cons] at hran
    rcases hran with rfl | hran
    · exact hrun
    · split at hran
      · cases hran
      · rename_i hf
        have hf : isFinal ((m.feed chunk).run host).result = false := Bool.eq_false_iff.mpr hf
        obtain ⟨n, hn, hprogram, hplace, hrest⟩ := listing_of_not_final hf
        have hunread : (runOn (m.feed chunk).remaining (m.feed chunk) host).machine.remaining =
            (m.feed chunk).remaining.drop n := by
          rw [remaining, hprogram, hplace, remaining, List.drop_drop]
        refine hrun.trans (ih _ _ (place_run_le hfed hf) (fun item hitem => ?_) hran)
        refine hspares item ((hrest rest.flatten).subset ?_)
        rw [run, hunread, hplace] at hitem
        exact hitem

/-! ## Slots on the operand stack -/

/-- The operand stack has `capacity` slots and read from the bottom it is the first `capacity - 1`
live nodes, or all there are, each under its number. -/
structure EchoesLive (m : Machine ν) (capacity : Nat) : Prop where
  size : m.operands.capacity = capacity
  contents : m.operands.contents.reverse =
    (m.table.live.reverse.take (capacity - 1)).map (·.1.toOperand)
  depth : m.operands.depth = min m.table.live.length (capacity - 1)
  live : ∀ value ∈ m.operands.contents, (m.node? value).isSome

theorem Echoes.live (h : m.Echoes capacity) (hfew : m.table.created ≤ 2 ^ 31) :
    m.EchoesLive capacity where
  size := h.holds.capacity
  contents := by
    rw [h.holds.contents, reverse_rtake, SlotTable.operands, ← List.map_reverse, List.map_take]
  depth := by
    rw [h.holds.depth, length_rtake, SlotTable.operands, List.length_map]
  live value hvalue := by
    rw [h.holds.contents] at hvalue
    obtain ⟨entry, hentry, rfl⟩ := List.mem_map.mp (List.mem_of_mem_drop hvalue)
    have hlt : entry.1.index < 2 ^ 31 := Nat.lt_of_lt_of_le (h.ordered.lt_created entry hentry) hfew
    rw [node?, SlotId.ofOperand?_toOperand hlt, Option.bind_some, SlotTable.nodeTable_get?,
      h.ordered.get?_of_mem hentry]
    rfl

/-- **The operand stack echoes the live nodes.** A machine is started with any settings, and from
then on answers requests that leave its operand stack alone, and runs instructions that take no
operands. At every moment, whether or not a run has failed, the stack holds the numbers of the
oldest live nodes, as many as it has room for; so it is never deeper than there are live nodes, and
each number on it is that of one. The same is true after each run of a program that comes in chunks,
if the whole program lists no instruction that takes operands. -/
theorem operands_echo_live (host : σ) (settings : Settings) (registry : RegistryId) :
    let capacity := min (max settings.operandSlots 1) Operands.maxSlots
    (∀ (program : List UInt8) (m : Machine ν) (host' : σ),
      Relation.ReflTransGen Builds (startOn host program settings registry, host) (m, host') →
      m.table.created < 2 ^ 31 → m.EchoesLive capacity) ∧
    ∀ chunks : List (List UInt8), (Listing.ofProgram chunks.flatten).SparesOperands →
      ∀ ran ∈ feedRuns chunks (startOn host [] settings registry : Machine ν) host,
        ran.machine.table.created < 2 ^ 31 → ran.machine.EchoesLive capacity := by
  intro capacity
  have hlive (program : List UInt8) (m : Machine ν) (host' : σ)
      (hbuilds :
        Relation.ReflTransGen Builds (startOn host program settings registry, host) (m, host'))
      (hfew : m.table.created < 2 ^ 31) : m.EchoesLive capacity := by
    have hstart := echoes_start (ν := ν) program (Host.defersSiblings host) settings
      registry
    exact (echoes_of_builds hbuilds hstart (Nat.le_of_lt hfew)).live (Nat.le_of_lt hfew)
  refine ⟨hlive, fun chunks hspares ran hran hfew => ?_⟩
  have hbuilds := builds_feedRuns chunks (startOn host [] settings registry) host
    (Nat.le_refl _) hspares hran
  exact hlive [] ran.machine ran.host hbuilds hfew

/-- A stack with room for two fills with four nodes, drains as they go, fills again, and drains to a
failure. The first chunk ends inside an instruction. Between two instructions of a run, when one of
the four nodes has gone that the stack had missed, it is the same. -/
theorem operands_echo_live_refilled :
    let host : Numbering := {}
    let settings : Settings := { operandSlots := 3 }
    let chunks := [[1, 1, 97, 6, 1, 98, 6, 1, 99, 6, 1, 100, 6], [1, 101, 3, 3, 3, 3],
      [6, 1, 102, 6, 1, 103], [3, 3, 3, 6, 0]]
    let runs := feedRuns chunks (startOn host [] settings 0 : Machine Nat) host
    let machine : Machine Nat :=
      startOn host [1, 1, 97, 6, 1, 98, 6, 1, 99, 6, 1, 100] settings 0
    let built := machine.perform host .run
    let inside := execute .appendChild ((built.machine.feed [3, 3]).advance 1) built.host
    (Listing.ofProgram chunks.flatten).SparesOperands ∧
    (∀ ran ∈ runs, ran.machine.table.created < 2 ^ 31 ∧ ran.machine.EchoesLive 3) ∧
    runs.map (fun ran => (ran.machine.operands.contents.reverse, ran.machine.table.live.length)) =
      [([0, 1], 4), ([0], 1), ([0, 5], 3), ([0], 1)] ∧
    Relation.ReflTransGen Builds (machine, host) (inside.machine, inside.host) ∧
    inside.machine.EchoesLive 3 ∧ inside.machine.table.live.length = 3 := by
  intro host settings chunks runs machine built inside
  obtain ⟨hmoments, hchunks⟩ := operands_echo_live host settings 0
  have hspares : (Listing.ofProgram chunks.flatten).SparesOperands := by
    unfold Listing.SparesOperands
    decide +kernel
  have hfew : ∀ ran ∈ runs, ran.machine.table.created < 2 ^ 31 := by decide +kernel
  have hbuilding : machine.Building := by
    unfold Building Listing.SparesOperands
    decide +kernel
  have hread : Instruction.read (built.machine.feed [3, 3]).remaining =
      .complete .appendChild 1 := by decide +kernel
  have hinside : Relation.ReflTransGen Builds (machine, host) (inside.machine, inside.host) :=
    .head (.request host (show machine.Spares .run from hbuilding))
      (.head (.request built.host (show built.machine.Spares (.feed [3, 3]) from trivial))
        (.single (.instruction built.host hread rfl)))
  refine ⟨hspares, fun ran hran => ⟨hfew ran hran, hchunks chunks hspares ran hran (hfew ran hran)⟩,
    by decide +kernel, hinside, ?_, by decide +kernel⟩
  exact hmoments _ inside.machine inside.host hinside (by decide +kernel)

end Machine

end TreeCode
