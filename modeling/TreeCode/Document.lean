import TreeCode.Document.Markup
import TreeCode.Host
import TreeCode.Reactor

/-!
# Documents

A `Document` is a host that keeps its nodes in memory, numbered as they were created. A node holds
a text or an element, and knows its parent, its children and its listeners. Nodes without a parent
that were put side by side form the `fragment`. `Document.edit` makes one change; `markup?` reads
off what a node and all below it show.
-/

namespace TreeCode

/-- The number of a node. It has no bound here: documents of 2 ^ 32 nodes or more, whose numbers
would not fit in 32 bits, are out of scope. -/
abbrev NodeId := Nat

inductive Content where
  | element (tag : String) (attributes style : Pairs)
  | text (content : String)
  deriving DecidableEq, Repr

namespace Content

def mapAttributes (f : Pairs → Pairs) : Content → Content
  | element tag attributes style => element tag (f attributes) style
  | text content => text content

def mapStyle (f : Pairs → Pairs) : Content → Content
  | element tag attributes style => element tag attributes (f style)
  | text content => text content

def tag? : Content → Option String
  | element tag _ _ => some tag
  | text _ => none

def attributes : Content → Pairs
  | element _ attributes _ => attributes
  | text _ => []

def style : Content → Pairs
  | element _ _ style => style
  | text _ => []

end Content

structure Node where
  content : Content := .text ""
  parent : Option NodeId := none
  children : List NodeId := []
  listeners : List (String × Handler) := []
  deriving DecidableEq, Repr

structure Document where
  nodes : Array Node := #[]
  /-- The nodes without a parent that stand side by side. -/
  fragment : List NodeId := []
  defersSiblings : Bool := false
  deriving DecidableEq, Repr

namespace Document

/-! ## Reading -/

def size (d : Document) : Nat := d.nodes.size

def node (d : Document) (id : NodeId) : Node := d.nodes.getD id {}

def handlers (d : Document) (id : NodeId) (event : String) : List Handler :=
  ((d.node id).listeners.filter (·.1 = event)).map (·.2)

/-- Runs the handlers of a node for an event in order, and counts those that had a callback. -/
def fire {ε κ : Type} [Embedder ε κ] (d : Document) (id : NodeId) (event : String)
    (r : Reactor ε κ) : Option (Nat × Reactor ε κ) :=
  r.fire (d.handlers id event)

def idText (id : NodeId) : String := "node" ++ Nat.repr id

/-- What a node shows, and all below it down to `depth` elements inside one another. -/
def markupWithin (d : Document) : Nat → NodeId → Option Markup
  | 0, _ => none
  | depth + 1, id =>
    match (d.node id).content with
    | .text content => some (.text content)
    | .element tag attributes style =>
      ((d.node id).children.mapM (d.markupWithin depth)).map (.element tag attributes style)

/-- What a node and all below it show; nothing if an element is below itself. -/
def markup? (d : Document) (id : NodeId) : Option Markup := d.markupWithin d.size id

def html? (d : Document) (id : NodeId) : Option String := (d.markup? id).map Markup.html

def textContent? (d : Document) (id : NodeId) : Option String := (d.markup? id).map Markup.content

def fragmentHtml? (d : Document) : Option String :=
  (d.fragment.mapM d.markup?).map Markup.htmlAll

/-! ## Changing -/

def modify (d : Document) (id : NodeId) (f : Node → Node) : Document :=
  { d with nodes := d.nodes.modify id f }

def modifyContent (d : Document) (id : NodeId) (f : Content → Content) : Document :=
  d.modify id fun n => { n with content := f n.content }

def setParent (d : Document) (id : NodeId) (parent : Option NodeId) : Document :=
  d.modify id fun n => { n with parent }

def modifyChildren (d : Document) (id : NodeId) (f : List NodeId → List NodeId) : Document :=
  d.modify id fun n => { n with children := f n.children }

def create (d : Document) (content : Content) : NodeId × Document :=
  (d.size, { d with nodes := d.nodes.push { content } })

def detach (d : Document) (id : NodeId) : Document :=
  let d := match (d.node id).parent with
    | none => d
    | some parent => (d.setParent id none).modifyChildren parent (·.filter (· ≠ id))
  { d with fragment := d.fragment.filter (· ≠ id) }

/-- Puts `new` after the first `sibling` of a list, or last if it is not there. -/
def putAfter (sibling new : NodeId) : List NodeId → List NodeId
  | [] => [new]
  | id :: rest => if id = sibling then id :: new :: rest else id :: putAfter sibling new rest

/-- Puts `new` in the place of the first `old` of a list. -/
def putInstead (old new : NodeId) : List NodeId → List NodeId
  | [] => []
  | id :: rest => if id = old then new :: rest else id :: putInstead old new rest

def appendChild (d : Document) (parent child : NodeId) : Document :=
  ((d.detach child).setParent child (some parent)).modifyChildren parent (· ++ [child])

/-- Puts a node right after another: under the same parent, or in the fragment, to which the other
comes first if it is not there. -/
def insertAfter (d : Document) (sibling child : NodeId) : Document :=
  let d := d.detach child
  match (d.node sibling).parent with
  | some parent =>
    (d.modifyChildren parent (putAfter sibling child)).setParent child (some parent)
  | none =>
    let fragment := if sibling ∈ d.fragment then d.fragment else d.fragment ++ [sibling]
    { d with fragment := putAfter sibling child fragment }

/-- Takes a child away from its parent. A node that is no child of `parent` stays. -/
def removeChild (d : Document) (parent child : NodeId) : Document :=
  if (d.node child).parent = some parent then d.detach child else d

def replaceChild (d : Document) (parent old new : NodeId) : Document :=
  if (d.node old).parent ≠ some parent ∨ old = new then d
  else
    (((d.detach new).modifyChildren parent (putInstead old new)).setParent old none).setParent new
      (some parent)

/-- Makes a text all that a node shows: an element loses its children to one new text. -/
def setText (d : Document) (id : NodeId) (text : String) : Document :=
  match (d.node id).content with
  | .text _ => d.modifyContent id fun _ => .text text
  | .element _ _ _ =>
    let children := (d.node id).children
    let d := d.modifyChildren id fun _ => []
    let d := children.foldl (fun d child => d.setParent child none) d
    let (child, d) := d.create (.text text)
    d.appendChild id child

def edit : Edit NodeId → Document → Document
  | .setAttribute id key value, d => d.modifyContent id (Content.mapAttributes (Pairs.set key value))
  | .removeAttribute id key, d => d.modifyContent id (Content.mapAttributes (Pairs.erase · key))
  | .setStyle id name value, d => d.modifyContent id (Content.mapStyle (Pairs.set name value))
  | .appendChild parent child, d => d.appendChild parent child
  | .insertAfter sibling child, d => d.insertAfter sibling child
  | .removeChild parent child, d => d.removeChild parent child
  | .replaceChild parent old new, d => d.replaceChild parent old new
  | .setText id text, d => d.setText id text
  | .listen id event handler, d =>
    d.modify id fun n => { n with listeners := n.listeners ++ [(event, handler)] }

def contentOf : Creation → Content
  | .element tag => .element tag [] []
  | .text content => .text content

instance : Host Document NodeId where
  defersSiblings d := d.defersSiblings
  create c d := d.create (contentOf c)
  edit := edit

end Document

end TreeCode
