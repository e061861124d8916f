import TreeCode.Draft

/-!
# Trees

A `Tree` is what programs are made from: texts, buttons, containers and groups. A group stands for
its children and adds nothing of its own. What is set on an element is kept in its `Attachments`
as instructions, already written; the first that cannot be written is remembered.
-/

namespace TreeCode

inductive Tag where
  | div | section | header | footer | article | aside | main | nav | span | p | ul | li
  deriving DecidableEq, Repr

namespace Tag

def all : List Tag :=
  [div, «section», header, footer, article, aside, main, nav, span, p, ul, li]

def name : Tag → String
  | div => "div"
  | «section» => "section"
  | header => "header"
  | footer => "footer"
  | article => "article"
  | aside => "aside"
  | main => "main"
  | nav => "nav"
  | span => "span"
  | p => "p"
  | ul => "ul"
  | li => "li"

def ofName? (name : String) : Option Tag := all.find? (·.name == name)

end Tag

/-- The instructions set on an element, and the first error met in setting them. -/
structure Attachments where
  attributes : Draft := {}
  listeners : Draft := {}
  fault : Option Error := none
  deriving DecidableEq, Repr

namespace Attachments

/-- Keeps an error unless there is one already. -/
def blame (a : Attachments) (e : Error) : Attachments :=
  { a with fault := a.fault.or (some e) }

def setAttribute (a : Attachments) (key value : String) : Attachments :=
  match Draft.emit (.setAttribute key value) a.attributes with
  | .ok _ attributes => { a with attributes }
  | .error e attributes => { a with attributes }.blame e

/-- Listens for an event with the callback that was registered, or with the error that registering
met. -/
def listen (a : Attachments) (event : String) : Except Error UInt8 → Attachments
  | .error e => a.blame e
  | .ok index =>
    match Draft.emit (.eventListener event index) a.listeners with
    | .ok _ listeners => { a with listeners }
    | .error e listeners => { a with listeners }.blame e

def check (a : Attachments) : Draft.Write Unit :=
  match a.fault with
  | some e => throw e
  | none => pure ()

end Attachments

/-- What programs are made from. -/
inductive Tree where
  | text (content : String)
  | button (label : String) (attachments : Attachments)
  | container (tag : Tag) (children : List Tree) (attachments : Attachments)
  | group (children : List Tree)

namespace Tree

def children : Tree → List Tree
  | text _ => []
  | button _ _ => []
  | container _ children _ => children
  | group children => children

mutual

/-- The elements and texts that a tree stands for: itself, or what the children of a group stand
for. -/
def flatten : Tree → List Tree
  | group children => flattenAll children
  | t => [t]

def flattenAll : List Tree → List Tree
  | [] => []
  | t :: rest => t.flatten ++ flattenAll rest

end

end Tree

end TreeCode
