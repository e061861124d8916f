import TreeCode.Proofs.Tree.Outline
import TreeCode.Tree

/-!
# What trees show

`Tree.Shows` ties a tree to the outlines of the elements and texts that it stands for, along the
calls that made it. What was set on an element is not read off its bytes: `Attachments.Holds`
follows the calls that set it, and each listener keeps the number that registering its callback
answered.
-/

namespace TreeCode

/-- What has been set on an element, in order. -/
structure Ornaments where
  attributes : List (String × String) := []
  listeners : List (String × UInt8) := []

namespace Ornaments

def setAttribute (o : Ornaments) (key value : String) : Ornaments :=
  { o with attributes := o.attributes ++ [(key, value)] }

def listen (o : Ornaments) (event : String) (index : UInt8) : Ornaments :=
  { o with listeners := o.listeners ++ [(event, index)] }

end Ornaments

/-- Attachments made by calls, with what the calls have set. A listener whose callback is refused is
left out. -/
inductive Attachments.Holds : Attachments → Ornaments → Prop where
  | empty : Holds {} {}
  | setAttribute {a : Attachments} {o : Ornaments} (key value : String) : Holds a o →
      Holds (a.setAttribute key value) (o.setAttribute key value)
  | listen {a : Attachments} {o : Ornaments} (event : String) (index : UInt8) : Holds a o →
      Holds (a.listen event (.ok index)) (o.listen event index)
  | refuse {a : Attachments} {o : Ornaments} (event : String) (e : Error) : Holds a o →
      Holds (a.listen event (.error e)) o

/-- A container whose children are outlined. -/
structure Frame where
  tag : Tag := .div
  children : List Outline := []
  ornaments : Ornaments := {}

namespace Frame

/-- The children of a finished container: an empty text where there are listeners and no child. -/
def inside (f : Frame) : List Outline :=
  match f.children with
  | [] => if f.ornaments.listeners = [] then [] else [.text ""]
  | first :: rest => first :: rest

def outline (f : Frame) : Outline :=
  .element f.tag.name f.ornaments.attributes f.ornaments.listeners f.inside

end Frame

/-- The outline of a button, with its label inside. -/
def Ornaments.button (o : Ornaments) (label : String) : Outline :=
  .element "button" o.attributes o.listeners [.text label]

namespace Tree

mutual

/-- A tree shows the outlines of the elements and texts that it stands for. A group shows what its
children show. -/
inductive Shows : Tree → List Outline → Prop where
  | text (content : String) : Shows (.text content) [.text content]
  | button {a : Attachments} {o : Ornaments} (label : String) : a.Holds o →
      Shows (.button label a) [o.button label]
  | container {children : List Tree} {a : Attachments} {f : Frame} : ShowAll children f.children →
      a.Holds f.ornaments → Shows (.container f.tag children a) [f.outline]
  | group {children : List Tree} {os : List Outline} : ShowAll children os →
      Shows (.group children) os

inductive ShowAll : List Tree → List Outline → Prop where
  | nil : ShowAll [] []
  | cons {t : Tree} {rest : List Tree} {os others : List Outline} : Shows t os →
      ShowAll rest others → ShowAll (t :: rest) (os ++ others)

end

theorem showAll_append {ts : List Tree} {t : Tree} {os others : List Outline}
    (h : ShowAll ts os) (ht : t.Shows others) : ShowAll (ts ++ [t]) (os ++ others) := by
  induction ts generalizing os with
  | nil =>
    cases h
    have hone := ShowAll.cons ht .nil
    rwa [List.append_nil] at hone
  | cons first rest ih =>
    cases h with
    | cons hfirst hrest =>
      rw [List.append_assoc]
      exact .cons hfirst (ih hrest)

end Tree

end TreeCode
