import TreeCode.Reactor
import TreeCode.Tree

/-!
# Sketches

A `Sketch` tells how a tree is made: its children first, then what is set on it, in order. Building
it registers the callback of each listener as it comes, all in one registry, so the numbers that the
tree holds depend on the order of the whole sketch.
-/

namespace TreeCode

inductive Decoration (κ : Type) where
  | attribute (key value : String)
  | listener (event : String) (callback : κ)

mutual

inductive Sketch (κ : Type) where
  | text (content : String)
  | button (label : String) (decorations : List (Decoration κ))
  | container (children : List (Sketch κ)) (changes : List (Change κ))
  | group (children : List (Sketch κ))

inductive Change (κ : Type) where
  | decorate (decoration : Decoration κ)
  | setTag (tag : Tag)
  | addChild (child : Sketch κ)

end

/-- A container whose children are built so far. -/
structure Workpiece where
  tag : Tag := .div
  children : List Tree := []
  attachments : Attachments := {}

variable {ε κ : Type} (id : RegistryId)

namespace Attachments

def decorate (a : Attachments) : Decoration κ → StateM (Reactor ε κ) Attachments
  | .attribute key value => return a.setAttribute key value
  | .listener event callback => do
    let result ← modifyGet (·.register id callback)
    return a.listen event result

def decorateAll (a : Attachments) : List (Decoration κ) → StateM (Reactor ε κ) Attachments
  | [] => return a
  | d :: rest => do
    let a ← a.decorate id d
    decorateAll a rest

end Attachments

namespace Sketch

mutual

def build : Sketch κ → StateM (Reactor ε κ) Tree
  | text content => return .text content
  | button label decorations => do
    let attachments ← Attachments.decorateAll id {} decorations
    return .button label attachments
  | container children changes => do
    let children ← buildAll children
    let w ← changeAll { children } changes
    return .container w.tag w.children w.attachments
  | group children => do
    let children ← buildAll children
    return .group children

def buildAll : List (Sketch κ) → StateM (Reactor ε κ) (List Tree)
  | [] => return []
  | s :: rest => do
    let t ← build s
    let ts ← buildAll rest
    return t :: ts

def change (w : Workpiece) : Change κ → StateM (Reactor ε κ) Workpiece
  | .decorate d => do
    let attachments ← w.attachments.decorate id d
    return { w with attachments }
  | .setTag tag => return { w with tag }
  | .addChild s => do
    let t ← build s
    return { w with children := w.children ++ [t] }

def changeAll (w : Workpiece) : List (Change κ) → StateM (Reactor ε κ) Workpiece
  | [] => return w
  | c :: rest => do
    let w ← change w c
    changeAll w rest

end

end Sketch

end TreeCode
