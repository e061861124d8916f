/-!
# Memory

A `Memory α` is a row of `size` cells. `read` and `write` are its two accesses, and `readRange` and
`writeRange` move a row of values at once.
-/

namespace TreeCode

/-- A row of cells, numbered from zero. Nothing is said of the cells past its size. -/
structure Memory (α : Type) where
  size : Nat
  read : Nat → α

namespace Memory

variable {α : Type}

def filled (size : Nat) (a : α) : Memory α := ⟨size, fun _ => a⟩

def write (m : Memory α) (i : Nat) (a : α) : Memory α :=
  { m with read := fun j => if j = i then a else m.read j }

def readRange (m : Memory α) (start length : Nat) : List α :=
  (List.range length).map fun i => m.read (start + i)

def writeRange (m : Memory α) (start : Nat) (values : List α) : Memory α :=
  { m with
    read := fun i =>
      if start ≤ i then values.getD (i - start) (m.read i) else m.read i }

@[simp] theorem size_write (m : Memory α) (i : Nat) (a : α) : (m.write i a).size = m.size := rfl

@[simp] theorem size_writeRange (m : Memory α) (i : Nat) (as : List α) :
    (m.writeRange i as).size = m.size := rfl

@[simp] theorem read_write_self (m : Memory α) (i : Nat) (a : α) : (m.write i a).read i = a := by
  simp [write]

theorem read_write_of_ne (m : Memory α) {i j : Nat} (a : α) (h : j ≠ i) :
    (m.write i a).read j = m.read j := by
  simp [write, h]

@[simp] theorem length_readRange (m : Memory α) (start length : Nat) :
    (m.readRange start length).length = length := by
  simp [readRange]

theorem readRange_succ (m : Memory α) (start length : Nat) :
    m.readRange start (length + 1) = m.read start :: m.readRange (start + 1) length := by
  simp [readRange, List.range_succ_eq_map, Nat.add_assoc, Nat.add_comm 1]

theorem readRange_congr {m m' : Memory α} {start length : Nat}
    (h : ∀ i, start ≤ i → m'.read i = m.read i) :
    m'.readRange start length = m.readRange start length := by
  apply List.map_congr_left
  intro i _
  exact h (start + i) (Nat.le_add_right start i)

theorem read_writeRange_of_lt (m : Memory α) {start i : Nat} (values : List α) (h : i < start) :
    (m.writeRange start values).read i = m.read i := by
  have : ¬ start ≤ i := by omega
  simp [writeRange, this]

theorem read_writeRange_of_le (m : Memory α) {start i : Nat} (values : List α)
    (h : start + values.length ≤ i) : (m.writeRange start values).read i = m.read i := by
  have h₁ : start ≤ i := by omega
  have h₂ : values.length ≤ i - start := by omega
  simp [writeRange, h₁, h₂]

theorem readRange_writeRange (m : Memory α) (start : Nat) (values : List α) :
    (m.writeRange start values).readRange start values.length = values := by
  apply List.ext_getElem (by simp)
  intro i _ hi
  simp [readRange, writeRange, hi]

end Memory

end TreeCode
