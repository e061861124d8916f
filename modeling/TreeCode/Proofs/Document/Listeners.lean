import TreeCode.Proofs.Document.Attributes
import TreeCode.Proofs.Document.Keeping

/-!
# Listeners after many calls

Nodes get listeners by one kind of change, and each at the end of those that the node has; no other
change and no place that a node comes to matters to them. So the handlers of a node for an event are
those that calls have attached to it, in the order of the calls (`MadeBy.handlers_eq`).
-/

namespace TreeCode

theorem Call.handlers_append {ν : Type} [DecidableEq ν] (calls later : List (Call ν)) (node : ν)
    (event : String) :
    handlers (calls ++ later) node event = handlers calls node event ++ handlers later node event :=
  List.filterMap_append

namespace Document

variable {d : Document}

/-! ## One change -/

theorem listeners_appendChild (d : Document) (p c i : NodeId) :
    ((d.appendChild p c).node i).listeners = (d.node i).listeners :=
  (listeners_modifyChildren _ p _ i).trans
    ((listeners_setParent _ c (some p) i).trans (listeners_detach d c i))

theorem listeners_insertAfter (d : Document) (s c i : NodeId) :
    ((d.insertAfter s c).node i).listeners = (d.node i).listeners := by
  refine .trans ?_ (listeners_detach d c i)
  unfold insertAfter
  cases hs : ((d.detach c).node s).parent with
  | none =>
    simp only [hs]
    rfl
  | some p =>
    simp only [hs]
    exact (listeners_setParent _ c (some p) i).trans (listeners_modifyChildren _ p _ i)

theorem listeners_removeChild (d : Document) (p c i : NodeId) :
    ((d.removeChild p c).node i).listeners = (d.node i).listeners := by
  unfold removeChild
  split
  · exact listeners_detach d c i
  · rfl

theorem listeners_replaceChild (d : Document) (p old new i : NodeId) :
    ((d.replaceChild p old new).node i).listeners = (d.node i).listeners := by
  unfold replaceChild
  split
  · rfl
  · exact (listeners_setParent _ new (some p) i).trans ((listeners_setParent _ old none i).trans
      ((listeners_modifyChildren _ p _ i).trans (listeners_detach d new i)))

theorem listeners_setText (d : Document) (id : NodeId) (text : String) (i : NodeId) :
    ((d.setText id text).node i).listeners = (d.node i).listeners := by
  cases hcontent : (d.node id).content with
  | text content =>
    rw [setText, hcontent]
    exact (keeps_modifyContent d id _).listeners i
  | element tag attributes style =>
    rw [setText_of_element hcontent, listeners_appendChild]
    exact ((keeps_create _ (.text text)).listeners i).trans ((keeps_emptied d id).listeners i)

theorem handlers_congr {d' : Document} {id : NodeId}
    (h : (d'.node id).listeners = (d.node id).listeners) (event : String) :
    d'.handlers id event = d.handlers id event := by
  rw [handlers, handlers, h]

theorem handlers_listen {n : NodeId} (hn : n < d.size) (name : String) (handler : Handler)
    (id : NodeId) (event : String) :
    (edit (.listen n name handler) d).handlers id event =
      d.handlers id event ++ Call.handlers [.edit (.listen n name handler)] id event := by
  change ((d.modify n _).handlers id event) = _
  by_cases hid : id = n
  · subst hid
    rw [handlers, node_modify_self hn]
    by_cases hname : name = event <;> simp [handlers, Call.handlers, hname]
  · rw [handlers, node_modify_of_ne hid]
    simp [handlers, Call.handlers, Ne.symm hid]

theorem handlers_edit {e : Edit NodeId} (he : ∀ id ∈ e.nodes, id < d.size) (id : NodeId)
    (event : String) :
    (edit e d).handlers id event = d.handlers id event ++ Call.handlers [.edit e] id event := by
  have hkeeps (h : ((edit e d).node id).listeners = (d.node id).listeners) :
      (edit e d).handlers id event = d.handlers id event ++ [] :=
    (handlers_congr h event).trans (List.append_nil _).symm
  cases e with
  | listen n name handler => exact handlers_listen (he n List.mem_cons_self) name handler id event
  | setAttribute n key value => exact hkeeps ((keeps_modifyContent d n _).listeners id)
  | removeAttribute n key => exact hkeeps ((keeps_modifyContent d n _).listeners id)
  | setStyle n name value => exact hkeeps ((keeps_modifyContent d n _).listeners id)
  | appendChild p c => exact hkeeps (listeners_appendChild d p c id)
  | insertAfter s c => exact hkeeps (listeners_insertAfter d s c id)
  | removeChild p c => exact hkeeps (listeners_removeChild d p c id)
  | replaceChild p old new => exact hkeeps (listeners_replaceChild d p old new id)
  | setText n text => exact hkeeps (listeners_setText d n text id)

/-! ## Many calls -/

/-- The handlers of a node for an event are those that calls have attached to it. -/
theorem MadeBy.handlers_eq {calls : List (Call NodeId)} (h : d.MadeBy calls) (id : NodeId)
    (event : String) : d.handlers id event = Call.handlers calls id event := by
  induction h with
  | empty defersSiblings => rfl
  | @create d calls request _ ih =>
    rw [Call.handlers_append, ← ih]
    exact (handlers_congr ((keeps_create d (contentOf request)).listeners id) event).trans
      (List.append_nil _).symm
  | @edit d calls request _ hnodes ih =>
    rw [Call.handlers_append, ← ih]
    exact handlers_edit hnodes id event

end Document

end TreeCode
