import Mathlib.Algebra.Group.Nat.Defs
import TreeCode.Slots

/-!
# Numbers of live nodes

A table numbers its nodes as they come and lets go of the newest, so the live ones always stand in
the order of their numbers (`SlotTable.Ordered`), and each is found under its own. A number below
`2 ^ 31` has an operand of its own (`SlotId.ofOperand?_toOperand`).
-/

namespace TreeCode

namespace SlotId

variable {id other : SlotId}

theorem ofOperand?_toOperand (h : id.index < 2 ^ 31) : ofOperand? id.toOperand = some id := by
  have hmin : min id.index 0x7fffffff = id.index := by omega
  have hint : (Int32.ofNat id.index).toInt = id.index := Int32.toInt_ofNat_of_lt h
  have hnonneg : ¬ Int32.ofNat id.index < 0 := by
    rw [Int32.lt_iff_toInt_lt, hint]
    simp
  rw [toOperand, hmin, ofOperand?, if_neg hnonneg, Int32.toNatClampNeg_ofNat_of_lt h]

theorem toOperand_inj (h : id.index < 2 ^ 31) (hother : other.index < 2 ^ 31)
    (heq : id.toOperand = other.toOperand) : id = other := by
  have := congrArg ofOperand? heq
  rw [ofOperand?_toOperand h, ofOperand?_toOperand hother] at this
  exact Option.some.inj this

end SlotId

namespace SlotTable

variable {ν : Type} {t t' : SlotTable ν} {entry : SlotId × ν}

/-- The live nodes stand in the order of their numbers, the newest first, and the next number is
greater than all. -/
structure Ordered (t : SlotTable ν) : Prop where
  pairwise : t.live.Pairwise fun newer older => older.1.index < newer.1.index
  lt_created : ∀ entry ∈ t.live, entry.1.index < t.created

theorem ordered_empty : (empty : SlotTable ν).Ordered := ⟨.nil, List.forall_mem_nil _⟩

namespace Ordered

theorem insert (h : t.Ordered) (node : ν) : (t.insert node).2.Ordered where
  pairwise := h.pairwise.cons h.lt_created
  lt_created := by
    rw [SlotTable.insert, List.forall_mem_cons]
    exact ⟨Nat.lt_succ_self _, fun entry hentry => Nat.lt_succ_of_lt (h.lt_created entry hentry)⟩

theorem tail (h : t.Ordered) (hlive : t.live = entry :: t'.live) (hcreated : t'.created = t.created) :
    t'.Ordered where
  pairwise := by
    have := h.pairwise
    rw [hlive] at this
    exact this.tail
  lt_created older holder := by
    rw [hcreated]
    exact h.lt_created older (hlive ▸ List.mem_cons_of_mem _ holder)

theorem get?_of_mem (h : t.Ordered) (hentry : entry ∈ t.live) : t.get? entry.1 = some entry.2 := by
  obtain ⟨front, back, hlive⟩ := List.append_of_mem hentry
  refine List.lookup_eq_some_iff.mpr ⟨front, back, hlive, fun newer hnewer => ?_⟩
  have hpairwise := h.pairwise
  rw [hlive, List.pairwise_append] at hpairwise
  have hlt := hpairwise.2.2 newer hnewer entry List.mem_cons_self
  apply bne_iff_ne.mpr
  intro heq
  rw [heq] at hlt
  exact Nat.lt_irrefl _ hlt

end Ordered

end SlotTable

end TreeCode
