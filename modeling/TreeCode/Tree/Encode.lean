import TreeCode.Tree

/-!
# Writing a tree

`Tree.emit` writes the program of a tree at the end of a draft, and `Tree.encode` gives that
program alone. An element is created, then come its attributes, then its children, each appended
once it is complete. A listener attaches to the node below the newest, so the listeners of an
element stand between its first child and the instruction that appends it; an element with
listeners and no children gets an empty text as its child.
-/

namespace TreeCode.Tree

open Draft (Write emit write)

def inOrder : List (Write Unit) → Write Unit
  | [] => pure ()
  | step :: rest => do
    step
    inOrder rest

/-- Writes the children of an element: each is followed by what stands between it and its
appending, which is `between` for the first and nothing for the others. -/
def appendEach (between : List UInt8) : List (Write Unit) → Write Unit
  | [] => pure ()
  | child :: rest => do
    child
    write between
    emit .appendChild
    inOrder (rest.map fun child => do child; emit .appendChild)

mutual

/-- How to write each element and text that a tree stands for. -/
def steps : Tree → List (Write Unit)
  | text content => [emit (.textNode content)]
  | button label attachments => [do
      attachments.check
      emit (.createElement "button")
      write attachments.attributes.bytes
      appendEach attachments.listeners.bytes [emit (.textNode label)]]
  | container tag children attachments => [do
      attachments.check
      emit (.createElement tag.name)
      write attachments.attributes.bytes
      match stepsAll children with
      | [] =>
        if attachments.listeners.bytes = [] then pure ()
        else appendEach attachments.listeners.bytes [emit (.textNode "")]
      | first :: rest => appendEach attachments.listeners.bytes (first :: rest)]
  | group children => stepsAll children

def stepsAll : List Tree → List (Write Unit)
  | [] => []
  | t :: rest => t.steps ++ stepsAll rest

end

def emit (t : Tree) : Write Unit := inOrder t.steps

def encode (t : Tree) : Except Error (List UInt8) :=
  match t.emit {} with
  | .ok _ draft => .ok draft.bytes
  | .error e _ => .error e

end TreeCode.Tree
