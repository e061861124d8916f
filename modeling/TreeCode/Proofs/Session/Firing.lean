import TreeCode.Proofs.Document.Listeners
import TreeCode.Proofs.Reactor.Numbers
import TreeCode.Session

/-!
# Events that fire

An event that fires on a node of a document runs the handlers that calls have attached to the node
for it, in turn. Callbacks put their programs on the queue of the session, which is otherwise left
as it is. With what registering and running callbacks comes to, whatever their code does, this is
`callbacks_in_order`.
-/

namespace TreeCode

open Reactor (Occurrence)

namespace Session

variable {ε κ : Type} [Embedder ε κ] {s s' : Session Document} {id : NodeId} {event : String}
  {r r' : Reactor ε κ} {count : Nat}

theorem fire_eq_some_iff :
    s.fire id event r = some (count, s', r') ↔
      s.host.fire id event { r with queue := s.queue } = some (count, r') ∧
        s' = { s with queue := r'.queue } := by
  constructor
  · intro h
    obtain ⟨fired, hfired, h⟩ := Option.bind_eq_some_iff.mp h
    cases h
    exact ⟨hfired, rfl⟩
  · rintro ⟨h, rfl⟩
    rw [fire, h]
    rfl

/-- What callbacks put on the queue of a session they put behind what is on it. -/
theorem exists_queue_eq_of_fire (h : s.fire id event r = some (count, s', r')) :
    ∃ pushed, s' = { s with queue := s.queue ++ pushed } := by
  obtain ⟨hfire, rfl⟩ := fire_eq_some_iff.mp h
  obtain ⟨turns, hturns, -, -⟩ := Reactor.fire_eq_some_iff.mp hfire
  exact ⟨_, congrArg (fun queue => { s with queue }) hturns.grows.queue⟩

/-- **Callbacks in order.** The code of callbacks may be any, with a state of its own. Those who
register callbacks get the numbers that count on from the callbacks that the registry holds, in the
order of time, and a number stays with its callback for ever. There are never more than 256
callbacks in a registry: from then on a registration fails and changes nothing. Code that registers
and runs callbacks, be it a callback or their owner, comes to an end just when all that it starts
does, however deep callbacks run inside one another; the registries and the queue have then grown by
what the course of it tells. An event that fires on a node of a document runs the handlers that
calls have attached to the node for it, one after the other and each once. In its turn each runs the
callback that has its number in its registry by then, and is passed over if there is none; the
answer counts those that are not. Of a session, an event that fires changes the queue and no more.
-/
theorem callbacks_in_order :
    (∀ (r : Reactor ε κ) (registry : RegistryId) (callback : κ),
      r.Grows [.registered registry callback (r.register registry callback).1]
          (r.register registry callback).2 ∧
        ((r.registries registry).size = 256 →
          r.register registry callback = (.error .callbacksFull, r))) ∧
    (∀ (r r' : Reactor ε κ) (notice : Notice κ),
      (r.play notice = some r' ↔ ∃ course, r.Runs notice course r') ∧
      ∀ course, r.Runs notice course r' → r.Grows course r' ∧
        (∀ registry, (r.known course registry).length ≤ 256) ∧
        ∀ handler callback, r.callback? handler = some callback →
          r'.callback? handler = some callback) ∧
    (∀ (r r' : Reactor ε κ) (handler : Handler) (ran : Bool),
      r.invoke handler = some (ran, r') ↔
        ∃ t, r.Takes t r' ∧ t.handler = handler ∧ t.ran = ran) ∧
    (∀ (d : Document) (id : NodeId) (event : String) (r r' : Reactor ε κ),
      (∀ calls, d.MadeBy calls → d.handlers id event = Call.handlers calls id event) ∧
      (∀ count, d.fire id event r = some (count, r') ↔
        ∃ turns, r.Fires turns r' ∧ turns.map (·.handler) = d.handlers id event ∧
          turns.countP (·.ran) = count) ∧
      ∀ turns, r.Fires turns r' → r.Grows (turns.flatMap (·.course)) r' ∧
        ∀ before t after, turns = before ++ t :: after → t.ran?.map Prod.fst =
          (r.known (before.flatMap (·.course)) t.handler.registry)[t.handler.index.toNat]?) ∧
    ∀ (s s' : Session Document) (id : NodeId) (event : String) (r r' : Reactor ε κ) (count : Nat),
      s.fire id event r = some (count, s', r') ↔
        s.host.fire id event { r with queue := s.queue } = some (count, r') ∧
          s' = { s with queue := r'.queue } := by
  refine ⟨fun r registry callback => ⟨Reactor.grows_register rfl,
      fun h => Reactor.register_of_le (Nat.le_of_eq h.symm) callback⟩,
    fun r r' notice => ⟨Reactor.play_eq_some_iff, fun course h =>
      ⟨h.grows, h.grows.length_le, fun _ _ => h.grows.callback?_eq⟩⟩,
    fun r r' handler ran => Reactor.invoke_eq_some_iff,
    fun d id event r r' => ⟨fun calls h => h.handlers_eq id event,
      fun count => Reactor.fire_eq_some_iff, fun turns h => ⟨h.grows, fun _ _ _ => h.ran_eq⟩⟩,
    fun s s' id event r r' count => fire_eq_some_iff⟩

/-- Code that has its moves written down. Whichever callback runs makes the next of them. -/
structure Script (κ : Type) where
  moves : List (Move κ)

instance {κ : Type} : Embedder (Script κ) κ where
  next _ _ _ script :=
    match script.moves with
    | [] => (.finish, script)
    | move :: rest => (move, ⟨rest⟩)

/-- The first handler registers a callback and runs itself, which ends at once when it runs inside
itself, and then pushes a program. The new callback has the number of the second handler, so it runs
in the second turn. The third has the same number as the first, but in a registry that is empty; in
the last turn a callback is registered there. A registry of 256 callbacks takes no more. -/
theorem callbacks_in_order_given_away_late :
    let calls : List (Call NodeId) :=
      [.create (.element "p") 0, .edit (.listen 0 "click" ⟨0, 0⟩),
        .edit (.listen 0 "keydown" ⟨0, 5⟩), .edit (.listen 0 "click" ⟨0, 1⟩),
        .edit (.listen 0 "click" ⟨7, 0⟩), .edit (.listen 0 "click" ⟨0, 0⟩)]
    let moves : List (Move String) :=
      [.register 0 "late", .invoke ⟨0, 0⟩, .finish, .push [6, 1, 97], .finish, .finish,
        .register 7 "other", .finish]
    let inside : List (Occurrence String) :=
      [.registered 0 "late" (.ok 1), .began ⟨0, 0⟩ "first", .ended ⟨0, 0⟩, .pushed [6, 1, 97]]
    let turns : List (Reactor.Turn String) :=
      [⟨⟨0, 0⟩, some ("first", inside)⟩, ⟨⟨0, 1⟩, some ("late", [])⟩, ⟨⟨7, 0⟩, none⟩,
        ⟨⟨0, 0⟩, some ("first", [.registered 7 "other" (.ok 0)])⟩]
    let r : Reactor (Script String) String :=
      { registries := fun id => if id = 0 then ⟨["first"], by decide⟩ else {}, embedder := ⟨moves⟩ }
    let full : Reactor (Script String) String :=
      { registries := fun _ => ⟨List.replicate 256 "", Nat.le_of_eq List.length_replicate⟩,
        embedder := ⟨[]⟩ }
    ∃ (s s' : Session Document) (r' : Reactor (Script String) String),
      s.host.MadeBy calls ∧ s.queue = [[3]] ∧ s.fire 0 "click" r = some (3, s', r') ∧
      s' = { s with queue := [[3], [6, 1, 97]] } ∧
      (r'.registries 0).callbacks = ["first", "late"] ∧ (r'.registries 7).callbacks = ["other"] ∧
      ({ r with queue := [[3]] } : Reactor (Script String) String).Fires turns r' ∧
      some "late" = (r.known inside 0)[1]? ∧
      (full.registries 4).size = 256 ∧ full.register 4 "late" = (.error .callbacksFull, full) := by
  intro calls moves inside turns r full
  obtain ⟨hregister, -, -, hdocument, hsession⟩ := callbacks_in_order (ε := Script String)
  have hcreated := (Document.MadeBy.empty false).create (.element "p")
  have hheard := ((hcreated.edit (.listen 0 "click" ⟨0, 0⟩) (by decide)).edit
    (.listen 0 "keydown" ⟨0, 5⟩) (by decide)).edit (.listen 0 "click" ⟨0, 1⟩) (by decide)
  obtain ⟨d, hmade⟩ : ∃ d : Document, d.MadeBy calls :=
    ⟨_, (hheard.edit (.listen 0 "click" ⟨7, 0⟩) (by decide)).edit (.listen 0 "click" ⟨0, 0⟩)
      (by decide)⟩
  let s : Session Document := { host := d, queue := [[3]] }
  have hfires : ({ r with queue := [[3]] } : Reactor (Script String) String).Fires turns _ :=
    .turn (.run rfl (.register rfl rfl (.invoke rfl rfl (.finish rfl) (.push rfl (.finish rfl)))))
      (.turn (.run rfl (.finish rfl)) (.turn (.miss rfl)
        (.turn (.run rfl (.register rfl rfl (.finish rfl))) (.done _))))
  obtain ⟨hhandlers, hfired, hturns⟩ := hdocument d 0 "click" { r with queue := [[3]] } _
  obtain ⟨hgrows, hran⟩ := hturns turns hfires
  have hfire := (hfired 3).mpr ⟨turns, hfires, (hhandlers calls hmade).symm, by decide⟩
  have hfull := (hregister full 4 "late").2 List.length_replicate
  refine ⟨s, _, _, hmade, rfl, (hsession s _ 0 "click" r _ 3).mpr ⟨hfire, rfl⟩, ?_,
    hgrows.callbacks 0, hgrows.callbacks 7, hfires, ?_, List.length_replicate, hfull⟩
  · rw [hgrows.queue]
    rfl
  · exact rfl

end Session

end TreeCode
