import TreeCode.Proofs.Tree.Shape
import TreeCode.Tree.Sketch

/-!
# What sketches come to

`Sketch.outlines` are the outlines of the elements and texts that a sketch stands for. They are
read off the sketch alone: nothing of the tree that it builds is looked at. Building the tree and
outlining it go `Together`: they register the same callbacks in the same order, and the tree shows
the outlines (`shows_build`).
-/

namespace TreeCode

variable {ε κ : Type} (id : RegistryId)

namespace Ornaments

def decorate (o : Ornaments) : Decoration κ → StateM (Reactor ε κ) Ornaments
  | .attribute key value => return o.setAttribute key value
  | .listener event callback => do
    let result ← modifyGet (·.register id callback)
    match result with
    | .ok index => return o.listen event index
    | .error _ => return o

def decorateAll (o : Ornaments) : List (Decoration κ) → StateM (Reactor ε κ) Ornaments
  | [] => return o
  | d :: rest => do
    let o ← o.decorate id d
    decorateAll o rest

end Ornaments

namespace Sketch

mutual

/-- The outlines of the elements and texts that a sketch stands for: those of a group are those of
its children. -/
def outlines : Sketch κ → StateM (Reactor ε κ) (List Outline)
  | text content => return [.text content]
  | button label decorations => do
    let o ← Ornaments.decorateAll id {} decorations
    return [o.button label]
  | container children changes => do
    let children ← outlinesAll children
    let f ← outlineChanges { children } changes
    return [f.outline]
  | group children => outlinesAll children

def outlinesAll : List (Sketch κ) → StateM (Reactor ε κ) (List Outline)
  | [] => return []
  | s :: rest => do
    let os ← outlines s
    let others ← outlinesAll rest
    return os ++ others

def outlineChange (f : Frame) : Change κ → StateM (Reactor ε κ) Frame
  | .decorate d => do
    let ornaments ← f.ornaments.decorate id d
    return { f with ornaments }
  | .setTag tag => return { f with tag }
  | .addChild s => do
    let os ← outlines s
    return { f with children := f.children ++ os }

def outlineChanges (f : Frame) : List (Change κ) → StateM (Reactor ε κ) Frame
  | [] => return f
  | c :: rest => do
    let f ← outlineChange f c
    outlineChanges f rest

end

end Sketch

/-! ## Building and outlining -/

variable {α β γ δ : Type} {id}

/-- Two computations leave the same of a reactor, and their results are related. -/
def Together (R : α → β → Prop) (x : StateM (Reactor ε κ) α) (y : StateM (Reactor ε κ) β) : Prop :=
  ∀ r, R (x r).1 (y r).1 ∧ (x r).2 = (y r).2

namespace Together

variable {R : α → β → Prop} {S : γ → δ → Prop}

theorem pure {a : α} {b : β} (h : R a b) :
    Together (ε := ε) (κ := κ) R (Pure.pure a) (Pure.pure b) := fun _ => ⟨h, rfl⟩

theorem refl (x : StateM (Reactor ε κ) α) : Together Eq x x := fun _ => ⟨rfl, rfl⟩

theorem bind {x : StateM (Reactor ε κ) α} {y : StateM (Reactor ε κ) β}
    {f : α → StateM (Reactor ε κ) γ} {g : β → StateM (Reactor ε κ) δ} (h : Together R x y)
    (hfg : ∀ a b, R a b → Together S (f a) (g b)) : Together S (x >>= f) (y >>= g) := by
  intro r
  obtain ⟨hresult, hreactor⟩ := h r
  change S (f (x r).1 (x r).2).1 (g (y r).1 (y r).2).1 ∧
    (f (x r).1 (x r).2).2 = (g (y r).1 (y r).2).2
  rw [← hreactor]
  exact hfg _ _ hresult _

end Together

theorem together_decorate {a : Attachments} {o : Ornaments} (h : a.Holds o) (d : Decoration κ) :
    Together (ε := ε) Attachments.Holds (a.decorate id d) (o.decorate id d) := by
  cases d with
  | «attribute» key value => exact .pure (.setAttribute key value h)
  | listener event callback =>
    refine .bind (.refl _) ?_
    rintro result _ rfl
    cases result with
    | error e => exact .pure (.refuse event e h)
    | ok index => exact .pure (.listen event index h)

theorem together_decorateAll {a : Attachments} {o : Ornaments} (h : a.Holds o)
    (ds : List (Decoration κ)) :
    Together (ε := ε) Attachments.Holds (a.decorateAll id ds) (o.decorateAll id ds) := by
  induction ds generalizing a o with
  | nil => exact .pure h
  | cons d rest ih => exact .bind (together_decorate h d) fun _ _ h => ih h

/-- A container and its outline are changed alike. -/
structure Workpiece.Matches (w : Workpiece) (f : Frame) : Prop where
  tag : w.tag = f.tag
  children : Tree.ShowAll w.children f.children
  attachments : w.attachments.Holds f.ornaments

theorem Workpiece.Matches.shows {w : Workpiece} {f : Frame} (h : w.Matches f) :
    (Tree.container w.tag w.children w.attachments).Shows [f.outline] := by
  rw [h.tag]
  exact .container h.children h.attachments

namespace Sketch

mutual

theorem together_build : (s : Sketch κ) →
    Together (ε := ε) Tree.Shows (s.build id) (s.outlines id)
  | text content => .pure (.text content)
  | button label decorations =>
    .bind (together_decorateAll .empty decorations) fun _ _ h => .pure (.button label h)
  | container children changes =>
    .bind (together_buildAll children) fun _ _ hchildren =>
      .bind (together_changeAll ⟨rfl, hchildren, .empty⟩ changes) fun _ _ h => .pure h.shows
  | group children => by
    have h : Together (ε := ε) Tree.Shows (build id (group children))
        (outlinesAll id children >>= pure) :=
      .bind (together_buildAll children) fun _ _ h => .pure (.group h)
    rwa [bind_pure] at h

theorem together_buildAll : (ss : List (Sketch κ)) →
    Together (ε := ε) Tree.ShowAll (buildAll id ss) (outlinesAll id ss)
  | [] => .pure .nil
  | s :: rest =>
    .bind (together_build s) fun _ _ hfirst =>
      .bind (together_buildAll rest) fun _ _ hrest => .pure (.cons hfirst hrest)

theorem together_change {w : Workpiece} {f : Frame} (h : w.Matches f) : (c : Change κ) →
    Together (ε := ε) Workpiece.Matches (change id w c) (outlineChange id f c)
  | .decorate d =>
    .bind (together_decorate h.attachments d) fun _ _ ha => .pure ⟨h.tag, h.children, ha⟩
  | .setTag _ => .pure ⟨rfl, h.children, h.attachments⟩
  | .addChild s =>
    .bind (together_build s) fun _ _ ht =>
      .pure ⟨h.tag, Tree.showAll_append h.children ht, h.attachments⟩

theorem together_changeAll {w : Workpiece} {f : Frame} (h : w.Matches f) :
    (cs : List (Change κ)) →
    Together (ε := ε) Workpiece.Matches (changeAll id w cs) (outlineChanges id f cs)
  | [] => .pure h
  | c :: rest => .bind (together_change h c) fun _ _ h => together_changeAll h rest

end

/-- A sketch builds a tree that shows the outlines of the sketch, with the numbers that its
callbacks got. -/
theorem shows_build (s : Sketch κ) (r : Reactor ε κ) :
    (s.build id r).1.Shows (s.outlines id r).1 :=
  (together_build s r).1

end Sketch

end TreeCode
