import TreeCode.Registry

/-!
# Hosts

A host owns the nodes. A machine asks it to create nodes and to edit those it created, and knows
them only by the handles of type `ν` that it gave out. `Traced` is a host that also keeps every
call; `Numbering` is the plainest host, whose handles count the nodes created.
-/

namespace TreeCode

inductive Creation where
  | element (tag : String)
  | text (content : String)
  deriving DecidableEq, Repr

inductive Edit (ν : Type) where
  | setAttribute (node : ν) (key value : String)
  | removeAttribute (node : ν) (key : String)
  | setStyle (node : ν) (name value : String)
  | appendChild (parent child : ν)
  /-- Puts `child` right after `sibling`. -/
  | insertAfter (sibling child : ν)
  | removeChild (parent child : ν)
  | replaceChild (parent old new : ν)
  | setText (node : ν) (text : String)
  | listen (node : ν) (event : String) (handler : Handler)
  deriving DecidableEq, Repr

/-- States of type `σ` that own nodes with handles of type `ν`. -/
class Host (σ : Type) (ν : outParam Type) where
  /-- Whether a node cannot be put beside another until the machine has stopped. -/
  defersSiblings : σ → Bool
  create : Creation → σ → ν × σ
  edit : Edit ν → σ → σ

/-- What a host was asked, with its answer. -/
inductive Call (ν : Type) where
  | create (request : Creation) (node : ν)
  | edit (request : Edit ν)
  deriving DecidableEq, Repr

/-- A host together with the calls made to it, in order. -/
structure Traced (σ ν : Type) where
  host : σ
  calls : List (Call ν) := []

instance {σ ν : Type} [Host σ ν] : Host (Traced σ ν) ν where
  defersSiblings s := Host.defersSiblings s.host
  create c s :=
    let (node, host) := Host.create c s.host
    (node, ⟨host, s.calls ++ [.create c node]⟩)
  edit e s := ⟨Host.edit e s.host, s.calls ++ [.edit e]⟩

/-- The handlers that calls have attached to a node for an event, in order. -/
def Call.handlers {ν : Type} [DecidableEq ν] (calls : List (Call ν)) (node : ν) (event : String) :
    List Handler :=
  calls.filterMap fun
    | .edit (.listen n e h) => if n = node ∧ e = event then some h else none
    | _ => none

/-- A host that only counts the nodes it creates. -/
structure Numbering where
  defersSiblings : Bool := false
  created : Nat := 0
  deriving DecidableEq, Repr

instance : Host Numbering Nat where
  defersSiblings s := s.defersSiblings
  create _ s := (s.created, { s with created := s.created + 1 })
  edit _ s := s

end TreeCode
