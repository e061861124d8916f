import TreeCode.Proofs.Document.Contents
import TreeCode.Proofs.Document.Pairs
import TreeCode.Proofs.Document.Parents

/-!
# Attributes and styles after many calls

A change sets at most one attribute or one style property, of one node (`Edit.attributeSetting?`,
`Edit.styleSetting?`). To an element it does just that and nothing else (`content_edit_of_element`),
and which nodes are elements never changes (`tag?_edit`). So the attributes of an element, and its
style, record what the calls that made the document set in it (`attributes_in_order`).
-/

namespace TreeCode

variable {ν : Type}

/-- What a change sets among the attributes of a node. -/
def Edit.attributeSetting? [DecidableEq ν] (node : ν) : Edit ν → Option Pairs.Setting
  | .setAttribute n key value => if n = node then some (key, some value) else none
  | .removeAttribute n key => if n = node then some (key, none) else none
  | _ => none

/-- What a change sets in the style of a node. -/
def Edit.styleSetting? [DecidableEq ν] (node : ν) : Edit ν → Option Pairs.Setting
  | .setStyle n name value => if n = node then some (name, some value) else none
  | _ => none

/-- What calls set, in order, if a change sets what is given. -/
def Call.settings (setting? : Edit ν → Option Pairs.Setting) (calls : List (Call ν)) :
    List Pairs.Setting :=
  calls.filterMap fun
    | .edit e => setting? e
    | .create _ _ => none

theorem Call.settings_create (setting? : Edit ν → Option Pairs.Setting) (calls : List (Call ν))
    (request : Creation) (node : ν) :
    settings setting? (calls ++ [.create request node]) = settings setting? calls := by
  rw [settings, List.filterMap_append]
  exact List.append_nil _

theorem Call.settings_edit (setting? : Edit ν → Option Pairs.Setting) (calls : List (Call ν))
    (e : Edit ν) :
    settings setting? (calls ++ [.edit e]) = settings setting? calls ++ (setting? e).toList := by
  rw [settings, List.filterMap_append]
  rfl

theorem Edit.attributeSetting?_of_not_mem [DecidableEq ν] {node : ν} {e : Edit ν}
    (h : node ∉ e.nodes) : e.attributeSetting? node = none := by
  cases e with
  | setAttribute n key value => exact if_neg fun hn => h (by simp [Edit.nodes, hn])
  | removeAttribute n key => exact if_neg fun hn => h (by simp [Edit.nodes, hn])
  | _ => rfl

theorem Edit.styleSetting?_of_not_mem [DecidableEq ν] {node : ν} {e : Edit ν} (h : node ∉ e.nodes) :
    e.styleSetting? node = none := by
  cases e with
  | setStyle n name value => exact if_neg fun hn => h (by simp [Edit.nodes, hn])
  | _ => rfl

def Edit.KeepsContents : Edit ν → Prop
  | .appendChild _ _ | .insertAfter _ _ | .removeChild _ _ | .replaceChild _ _ _ => True
  | .listen _ _ _ => True
  | .setAttribute _ _ _ | .removeAttribute _ _ | .setStyle _ _ _ | .setText _ _ => False

@[simp] theorem Content.tag?_mapAttributes (f : Pairs → Pairs) (content : Content) :
    (content.mapAttributes f).tag? = content.tag? := by
  cases content <;> rfl

@[simp] theorem Content.tag?_mapStyle (f : Pairs → Pairs) (content : Content) :
    (content.mapStyle f).tag? = content.tag? := by
  cases content <;> rfl

namespace Document

/-- Calls to an empty document, each naming nodes that were there, leave the document. -/
inductive MadeBy : Document → List (Call NodeId) → Prop where
  | empty (defersSiblings : Bool) : MadeBy { defersSiblings } []
  | create {d : Document} {calls : List (Call NodeId)} (request : Creation) : MadeBy d calls →
      MadeBy (Host.create request d).2 (calls ++ [.create request d.size])
  | edit {d : Document} {calls : List (Call NodeId)} (request : Edit NodeId) : MadeBy d calls →
      (∀ id ∈ request.nodes, id < d.size) →
      MadeBy (Host.edit request d) (calls ++ [.edit request])

variable {d : Document} {i : NodeId} {tag : String} {attributes style : Pairs}

/-! ## One change -/

theorem lt_size_of_element (h : (d.node i).content = .element tag attributes style) :
    i < d.size := by
  by_contra hi
  rw [node_of_size_le (Nat.le_of_not_lt hi)] at h
  cases h

theorem content_modifyContent (hi : i < d.size) (id : NodeId) (f : Content → Content) :
    ((d.modifyContent id f).node i).content =
      if id = i then f (d.node i).content else (d.node i).content := by
  split
  · rename_i hid
    rw [hid, modifyContent, node_modify_self hi]
  · rename_i hid
    rw [modifyContent, node_modify_of_ne (Ne.symm hid)]

/-- A text given to an element changes no node that was there but for where it is. -/
theorem content_setText_of_element {id : NodeId} {tag : String} {attributes style : Pairs}
    (h : (d.node id).content = .element tag attributes style) (text : String) (i : NodeId) :
    ((d.setText id text).node i).content =
      if i = d.size then .text text else (d.node i).content := by
  rw [setText_of_element h, (alike_appendChild _ _ _).content, node_create, size_emptied]
  split
  · rfl
  · exact (alike_emptied d id).content i

theorem alike_edit {e : Edit NodeId} (he : e.KeepsContents) (d : Document) :
    (edit e d).Alike d := by
  cases e with
  | appendChild p c => exact alike_appendChild d p c
  | insertAfter s c => exact alike_insertAfter d s c
  | removeChild p c => exact alike_removeChild d p c
  | replaceChild p old new => exact alike_replaceChild d p old new
  | listen id event handler =>
    exact alike_modify d id (fun n => { n with listeners := n.listeners ++ [(event, handler)] })
      fun _ => rfl
  | setAttribute | removeAttribute | setStyle | setText => exact he.elim

theorem content_edit_of_element (h : (d.node i).content = .element tag attributes style)
    (e : Edit NodeId) :
    ((edit e d).node i).content =
      .element tag ((e.attributeSetting? i).toList.foldl Pairs.apply attributes)
        ((e.styleSetting? i).toList.foldl Pairs.apply style) := by
  have hi : i < d.size := lt_size_of_element h
  have hmodify (id : NodeId) (f : Content → Content) :
      ((d.modifyContent id f).node i).content =
        if id = i then f (.element tag attributes style) else .element tag attributes style := by
    rw [content_modifyContent hi, h]
  cases e with
  | setAttribute id key value =>
    refine (hmodify id _).trans ?_
    by_cases hid : id = i <;>
      simp [hid, Edit.attributeSetting?, Edit.styleSetting?, Content.mapAttributes, Pairs.apply]
  | removeAttribute id key =>
    refine (hmodify id _).trans ?_
    by_cases hid : id = i <;>
      simp [hid, Edit.attributeSetting?, Edit.styleSetting?, Content.mapAttributes, Pairs.apply]
  | setStyle id name value =>
    refine (hmodify id _).trans ?_
    by_cases hid : id = i <;>
      simp [hid, Edit.attributeSetting?, Edit.styleSetting?, Content.mapStyle, Pairs.apply]
  | setText id text =>
    cases hcontent : (d.node id).content with
    | text content =>
      have hid : id ≠ i := by
        rintro rfl
        cases hcontent.symm.trans h
      change ((d.setText id text).node i).content = _
      rw [setText, hcontent]
      exact (hmodify id _).trans (if_neg hid)
    | element =>
      refine (content_setText_of_element hcontent text i).trans ?_
      rw [if_neg (Nat.ne_of_lt hi)]
      exact h
  | _ => exact ((alike_edit (by trivial) d).content i).trans h

theorem tag?_setText (d : Document) (id : NodeId) (text : String) (i : NodeId) :
    ((d.setText id text).node i).content.tag? = (d.node i).content.tag? := by
  cases hcontent : (d.node id).content with
  | text content =>
    rw [setText, hcontent]
    rcases Nat.lt_or_ge i d.size with hi | hi
    · rw [content_modifyContent hi]
      split
      · rename_i hid
        rw [← hid, hcontent]
        rfl
      · rfl
    · rw [node_of_size_le hi, node_of_size_le (by rwa [modifyContent, size_modify])]
  | element tag attributes style =>
    rw [content_setText_of_element hcontent]
    split
    · rename_i hi
      rw [node_of_size_le (Nat.le_of_eq hi.symm)]
      rfl
    · rfl

theorem tag?_edit (e : Edit NodeId) (d : Document) (i : NodeId) :
    ((edit e d).node i).content.tag? = (d.node i).content.tag? := by
  have htag (id : NodeId) (f : Content → Content)
      (hf : ∀ content, (f content).tag? = content.tag?) :
      ((d.modifyContent id f).node i).content.tag? = (d.node i).content.tag? :=
    map_node_modify (fun n => n.content.tag?) d id _ (fun n => hf n.content) i
  cases e with
  | setAttribute id key value => exact htag id _ (Content.tag?_mapAttributes _)
  | removeAttribute id key => exact htag id _ (Content.tag?_mapAttributes _)
  | setStyle id name value => exact htag id _ (Content.tag?_mapStyle _)
  | setText id text => exact tag?_setText d id text i
  | _ => exact congrArg Content.tag? ((alike_edit (by trivial) d).content i)

theorem content_edit_of_text {text : String} (h : (d.node i).content = .text text)
    (e : Edit NodeId) : ∃ text', ((edit e d).node i).content = .text text' := by
  have htag : ((edit e d).node i).content.tag? = none := by rw [tag?_edit, h]; rfl
  cases hafter : ((edit e d).node i).content with
  | text text' => exact ⟨text', rfl⟩
  | element tag attributes style =>
    rw [hafter] at htag
    cases htag

/-- An element was one before a change, which set in it what it sets there. -/
theorem element_of_edit {e : Edit NodeId}
    (h : ((edit e d).node i).content = .element tag attributes style) :
    ∃ attributes₀ style₀, (d.node i).content = .element tag attributes₀ style₀ ∧
      attributes = (e.attributeSetting? i).toList.foldl Pairs.apply attributes₀ ∧
      style = (e.styleSetting? i).toList.foldl Pairs.apply style₀ := by
  cases hcontent : (d.node i).content with
  | text content =>
    obtain ⟨content', hafter⟩ := content_edit_of_text hcontent e
    cases hafter.symm.trans h
  | element tag₀ attributes₀ style₀ =>
    rw [content_edit_of_element hcontent e] at h
    cases h
    exact ⟨attributes₀, style₀, rfl, rfl, rfl⟩

theorem size_mono_edit (e : Edit NodeId) (d : Document) : d.size ≤ (edit e d).size := by
  cases e with
  | setAttribute | removeAttribute | setStyle => exact Nat.le_of_eq (size_modify ..).symm
  | setText id text => exact size_le_setText d id text
  | _ => exact Nat.le_of_eq (alike_edit (by trivial) d).size.symm

/-! ## Many calls -/

namespace MadeBy

variable {calls : List (Call NodeId)}

theorem settings_eq_nil (h : d.MadeBy calls) {setting? : Edit NodeId → Option Pairs.Setting}
    (hsetting : ∀ e : Edit NodeId, i ∉ e.nodes → setting? e = none) (hi : d.size ≤ i) :
    Call.settings setting? calls = [] := by
  induction h with
  | empty defersSiblings => rfl
  | create request _ ih =>
    rw [Call.settings_create]
    exact ih (Nat.le_of_succ_le (Nat.le_trans (Nat.le_of_eq (size_create ..).symm) hi))
  | edit request _ hnodes ih =>
    have hi' := Nat.le_trans (size_mono_edit request _) hi
    have hrequest : setting? request = none :=
      hsetting request fun hmem => Nat.not_lt.mpr hi' (hnodes i hmem)
    rw [Call.settings_edit, ih hi', hrequest]
    rfl

theorem records (h : d.MadeBy calls)
    (hcontent : (d.node i).content = .element tag attributes style) :
    attributes.Records (Call.settings (Edit.attributeSetting? i) calls) ∧
      style.Records (Call.settings (Edit.styleSetting? i) calls) := by
  induction h generalizing attributes style with
  | empty defersSiblings =>
    exact absurd (lt_size_of_element hcontent) (Nat.not_lt_zero i)
  | @create d calls request h ih =>
    rw [Call.settings_create, Call.settings_create]
    change ((d.create (contentOf request)).2.node i).content = _ at hcontent
    rw [node_create] at hcontent
    split at hcontent
    · rename_i hi
      have hle : d.size ≤ i := Nat.le_of_eq hi.symm
      rw [h.settings_eq_nil (fun _ => Edit.attributeSetting?_of_not_mem) hle,
        h.settings_eq_nil (fun _ => Edit.styleSetting?_of_not_mem) hle]
      cases request with
      | text content => cases hcontent
      | element tag =>
        cases hcontent
        exact ⟨.empty, .empty⟩
    · exact ih hcontent
  | edit request _ hnodes ih =>
    obtain ⟨attributes₀, style₀, hcontent₀, rfl, rfl⟩ := element_of_edit hcontent
    rw [Call.settings_edit, Call.settings_edit]
    obtain ⟨hattributes, hstyle⟩ := ih hcontent₀
    exact ⟨hattributes.foldl _, hstyle.foldl _⟩

end MadeBy

/-! ## Calls that set nothing -/

theorem content_create (hi : i < d.size) (request : Creation) :
    ((Host.create request d).2.node i).content = (d.node i).content := by
  change ((d.create (contentOf request)).2.node i).content = _
  rw [node_create, if_neg (Nat.ne_of_lt hi)]

/-- An edit that sets no attribute of a node leaves them all, and so it is with its style. -/
theorem unset_edit (e : Edit NodeId) (d : Document) (i : NodeId) :
    (e.attributeSetting? i = none →
      ((edit e d).node i).content.attributes = (d.node i).content.attributes) ∧
    (e.styleSetting? i = none →
      ((edit e d).node i).content.style = (d.node i).content.style) := by
  cases hcontent : (d.node i).content with
  | element tag attributes style =>
    rw [content_edit_of_element hcontent]
    exact ⟨fun he => by rw [he]; rfl, fun he => by rw [he]; rfl⟩
  | text content =>
    obtain ⟨content', hafter⟩ := content_edit_of_text hcontent e
    rw [hafter]
    exact ⟨fun _ => rfl, fun _ => rfl⟩

theorem modify_eq_self {id : NodeId} {f : Node → Node} (h : f (d.node id) = d.node id) :
    d.modify id f = d := by
  have hnodes : d.nodes.modify id f = d.nodes := by
    refine Array.ext Array.size_modify fun j hj hj' => ?_
    rw [Array.getElem_modify]
    split
    · rename_i hid
      subst hid
      rwa [node, Array.getD_eq_getD_getElem?, Array.getElem?_eq_getElem hj'] at h
    · rfl
  rw [modify, hnodes]

theorem edit_of_text {text : String} (h : (d.node i).content = .text text) {e : Edit NodeId}
    (he : (e.attributeSetting? i).isSome ∨ (e.styleSetting? i).isSome) : edit e d = d := by
  have hlost (f : Content → Content) (hf : f (.text text) = .text text) :
      d.modifyContent i f = d := by
    refine modify_eq_self ?_
    rw [h, hf, ← h]
  cases e with
  | setAttribute id key value =>
    obtain rfl : id = i := by simpa [Edit.attributeSetting?, Edit.styleSetting?] using he
    exact hlost _ rfl
  | removeAttribute id key =>
    obtain rfl : id = i := by simpa [Edit.attributeSetting?, Edit.styleSetting?] using he
    exact hlost _ rfl
  | setStyle id name value =>
    obtain rfl : id = i := by simpa [Edit.attributeSetting?, Edit.styleSetting?] using he
    exact hlost _ rfl
  | _ => simp [Edit.attributeSetting?, Edit.styleSetting?] at he

/-- **Attributes and styles are maps in order.** Calls have made a document. What they set in an
element is recorded by its attributes and its style: a key has the value of the last setting of it,
none if that took it away, no key stands twice, and the keys stand in the order in which each was
first set since it was last taken away. No call on another node changes them, nor any call on the
node but their own settings, and what is set in a text changes nothing at all. -/
theorem attributes_in_order {calls : List (Call NodeId)} (h : d.MadeBy calls) :
    (∀ id tag attributes style, (d.node id).content = .element tag attributes style →
      attributes.Records (Call.settings (Edit.attributeSetting? id) calls) ∧
      style.Records (Call.settings (Edit.styleSetting? id) calls)) ∧
    (∀ request, ∀ id < d.size,
      ((Host.create request d).2.node id).content = (d.node id).content) ∧
    (∀ (e : Edit NodeId) (id : NodeId),
      (id ∉ e.nodes ∨ e.attributeSetting? id = none →
        ((Host.edit e d).node id).content.attributes = (d.node id).content.attributes) ∧
      (id ∉ e.nodes ∨ e.styleSetting? id = none →
        ((Host.edit e d).node id).content.style = (d.node id).content.style)) ∧
    (∀ (e : Edit NodeId) (id : NodeId) (text : String), (d.node id).content = .text text →
      (e.attributeSetting? id).isSome ∨ (e.styleSetting? id).isSome → Host.edit e d = d) := by
  refine ⟨fun id tag attributes style => h.records,
    fun request id hid => content_create hid request, fun e id => ⟨?_, ?_⟩,
    fun e id text htext he => edit_of_text htext he⟩
  · rintro (hid | he)
    · exact (unset_edit e d id).1 (Edit.attributeSetting?_of_not_mem hid)
    · exact (unset_edit e d id).1 he
  · rintro (hid | he)
    · exact (unset_edit e d id).2 (Edit.styleSetting?_of_not_mem hid)
    · exact (unset_edit e d id).2 he

/-- An attribute is set, changed, taken away and set again: it comes last. The text below the
element has none. -/
theorem attributes_in_order_set_again :
    let calls : List (Call NodeId) :=
      [.create (.element "p") 0, .create (.text "x") 1, .edit (.setAttribute 0 "a" "1"),
        .edit (.setAttribute 0 "b" "2"), .edit (.setAttribute 0 "a" "3"),
        .edit (.setStyle 0 "color" "red"), .edit (.appendChild 0 1),
        .edit (.setAttribute 1 "a" "9"), .edit (.removeAttribute 0 "a"),
        .edit (.setAttribute 0 "a" "4")]
    ∃ d : Document, d.MadeBy calls ∧
      (d.node 0).content = .element "p" [("b", "2"), ("a", "4")] [("color", "red")] ∧
      (d.node 1).content = .text "x" ∧
      Call.settings (Edit.attributeSetting? 0) calls =
        [("a", some "1"), ("b", some "2"), ("a", some "3"), ("a", none), ("a", some "4")] ∧
      Pairs.Records [("b", "2"), ("a", "4")] (Call.settings (Edit.attributeSetting? 0) calls) ∧
      Pairs.Records [("color", "red")] [("color", some "red")] ∧
      Host.edit (.setAttribute 1 "a" "9") d = d := by
  intro calls
  have hcreated := ((MadeBy.empty false).create (.element "p")).create (.text "x")
  have hset := ((hcreated.edit (.setAttribute 0 "a" "1") (by decide)).edit
    (.setAttribute 0 "b" "2") (by decide)).edit (.setAttribute 0 "a" "3") (by decide)
  have hplaced := ((hset.edit (.setStyle 0 "color" "red") (by decide)).edit
    (.appendChild 0 1) (by decide)).edit (.setAttribute 1 "a" "9") (by decide)
  have h := (hplaced.edit (.removeAttribute 0 "a") (by decide)).edit
    (.setAttribute 0 "a" "4") (by decide)
  obtain ⟨hrecords, -, -, hlost⟩ := attributes_in_order h
  have helement := hrecords 0 "p" [("b", "2"), ("a", "4")] [("color", "red")] (by decide)
  exact ⟨_, h, by decide, by decide, by decide, helement.1, helement.2,
    hlost (.setAttribute 1 "a" "9") 1 "x" (by decide) (.inl rfl)⟩

end Document

end TreeCode
