import TreeCode.Error

/-!
# Registered callbacks

What runs when an event fires is code of whoever uses the library, which only keeps it and starts
it; `κ` is the type of what names that code. A `Registry` numbers callbacks from zero in the order
they are registered, up to the 256 numbers that one byte holds, and never forgets or renumbers one.
There may be many registries, told apart by numbers of their own. A `Handler` is what a node keeps
of a callback: its registry and its number there.
-/

namespace TreeCode

abbrev RegistryId := Nat

/-- The callbacks registered so far, in order. -/
structure Registry (κ : Type) where
  callbacks : List κ := []
  length_le : callbacks.length ≤ 256 := by exact Nat.zero_le 256

namespace Registry

variable {κ : Type}

def size (r : Registry κ) : Nat := r.callbacks.length

def get? (r : Registry κ) (index : UInt8) : Option κ := r.callbacks[index.toNat]?

/-- Gives a callback the next number, if there is one. -/
def register (r : Registry κ) (callback : κ) : Except Error (UInt8 × Registry κ) :=
  if h : r.callbacks.length < 256 then
    .ok (UInt8.ofNat r.size,
      ⟨r.callbacks ++ [callback], by simp only [List.length_append, List.length_singleton]; omega⟩)
  else .error .callbacksFull

/-- The text of a registry: its size, and the number it gives next. -/
def text (r : Registry κ) : String :=
  "CallbackStore \x7b len: " ++ Nat.repr r.size ++ ", next: " ++ Nat.repr r.size ++ " \x7d"

end Registry

structure Handler where
  registry : RegistryId
  index : UInt8
  deriving DecidableEq, Repr

def Handler.text (h : Handler) : String :=
  "EventHandler \x7b index: " ++ Nat.repr h.index.toNat ++ ", .. \x7d"

end TreeCode
