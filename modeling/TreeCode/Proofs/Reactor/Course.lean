import TreeCode.Reactor

/-!
# What happens while callbacks run

The course of things is the list of the `Occurrence`s that running code brings about, in the order
of time and however deep callbacks run inside one another. `Runs` says which course the code takes
from a notice to its end, `Takes` what comes of one handler, and `Fires` what comes of several, one
after the other. They hold of just what ends (`play_eq_some_iff`, `invoke_eq_some_iff`,
`fire_eq_some_iff`).
-/

namespace TreeCode.Reactor

/-- One thing that happens to callbacks or to the queue. -/
inductive Occurrence (κ : Type) where
  /-- A callback is handed over to a registry, and this is the answer. -/
  | registered (id : RegistryId) (callback : κ) (answer : Except Error UInt8)
  /-- The handler that is to run has no callback. -/
  | missed (handler : Handler)
  | began (handler : Handler) (callback : κ)
  /-- The callback of a handler, the last that began and has not ended, ends. -/
  | ended (handler : Handler)
  | pushed (program : List UInt8)

/-- What comes of one handler: its callback, if there is one, with the course of things while that
runs. -/
structure Turn (κ : Type) where
  handler : Handler
  ran? : Option (κ × List (Occurrence κ))

namespace Turn

variable {κ : Type}

def ran (t : Turn κ) : Bool := t.ran?.isSome

def course (t : Turn κ) : List (Occurrence κ) :=
  match t.ran? with
  | none => [.missed t.handler]
  | some (callback, inside) => .began t.handler callback :: inside ++ [.ended t.handler]

end Turn

variable {ε κ : Type} [Embedder ε κ]

/-- From a notice at `r` the code goes on to its end at `r'`, and things take this course. -/
inductive Runs :
    (r : Reactor ε κ) → Notice κ → List (Occurrence κ) → (r' : Reactor ε κ) → Prop where
  | finish {r r' : Reactor ε κ} {notice : Notice κ} :
      r.next notice = (.finish, r') → Runs r notice [] r'
  | register {r s between r' : Reactor ε κ} {notice : Notice κ} {id : RegistryId} {callback : κ}
      {answer : Except Error UInt8} {course : List (Occurrence κ)} :
      r.next notice = (.register id callback, s) → s.register id callback = (answer, between) →
      Runs between (.registered answer) course r' →
      Runs r notice (.registered id callback answer :: course) r'
  | push {r s r' : Reactor ε κ} {notice : Notice κ} {program : List UInt8}
      {course : List (Occurrence κ)} : r.next notice = (.push program, s) →
      Runs (s.push program) .pushed course r' → Runs r notice (.pushed program :: course) r'
  | miss {r s r' : Reactor ε κ} {notice : Notice κ} {handler : Handler}
      {course : List (Occurrence κ)} : r.next notice = (.invoke handler, s) →
      s.callback? handler = none → Runs (s.miss handler.index) (.invoked false) course r' →
      Runs r notice (.missed handler :: course) r'
  | invoke {r s between r' : Reactor ε κ} {notice : Notice κ} {handler : Handler} {callback : κ}
      {inside course : List (Occurrence κ)} : r.next notice = (.invoke handler, s) →
      s.callback? handler = some callback → Runs s (.began callback) inside between →
      Runs between (.invoked true) course r' →
      Runs r notice (.began handler callback :: inside ++ .ended handler :: course) r'

/-- From `r` to `r'` a handler has its turn: its callback runs, or it is passed over for want of
one. -/
inductive Takes : (r : Reactor ε κ) → Turn κ → (r' : Reactor ε κ) → Prop where
  | miss {r : Reactor ε κ} {handler : Handler} : r.callback? handler = none →
      Takes r ⟨handler, none⟩ (r.miss handler.index)
  | run {r r' : Reactor ε κ} {handler : Handler} {callback : κ} {inside : List (Occurrence κ)} :
      r.callback? handler = some callback → Runs r (.began callback) inside r' →
      Takes r ⟨handler, some (callback, inside)⟩ r'

/-- From `r` to `r'` handlers have their turns in order. -/
inductive Fires : (r : Reactor ε κ) → List (Turn κ) → (r' : Reactor ε κ) → Prop where
  | done (r : Reactor ε κ) : Fires r [] r
  | turn {r between r' : Reactor ε κ} {t : Turn κ} {turns : List (Turn κ)} :
      Takes r t between → Fires between turns r' → Fires r (t :: turns) r'

variable {r s r' : Reactor ε κ} {notice : Notice κ} {handler : Handler} {callback : κ}

/-! ## One move -/

theorem play_finish (h : r.next notice = (.finish, s)) : r.play notice = some s := by
  rw [play, h]

theorem play_register {id : RegistryId} (h : r.next notice = (.register id callback, s)) :
    r.play notice = (s.register id callback).2.play (.registered (s.register id callback).1) := by
  rw [play, h]
  rfl

theorem play_push {program : List UInt8} (h : r.next notice = (.push program, s)) :
    r.play notice = (s.push program).play .pushed := by
  rw [play, h]
  rfl

theorem invoke_of_none (h : r.callback? handler = none) :
    r.invoke handler = some (false, r.miss handler.index) := by
  rw [invoke, h]

theorem invoke_of_some (h : r.callback? handler = some callback) :
    r.invoke handler = (r.play (.began callback)).map fun r' => (true, r') := by
  rw [invoke, h]
  change (r.play (.began callback)).bind (fun r' => some (true, r')) = _
  cases r.play (.began callback) <;> rfl

/-- The code is told how an `invoke` came out. -/
theorem play_invoke (h : r.next notice = (.invoke handler, s)) :
    r.play notice = (s.invoke handler).bind fun ran => ran.2.play (.invoked ran.1) := by
  rw [play, h]
  dsimp only
  cases hcallback : s.callback? handler with
  | none =>
    rw [invoke_of_none hcallback]
    rfl
  | some callback =>
    rw [invoke_of_some hcallback, Option.bind_map]
    rfl

/-! ## All that ends -/

theorem Runs.play_eq {course : List (Occurrence κ)} (h : Runs r notice course r') :
    r.play notice = some r' := by
  induction h with
  | finish hnext => exact play_finish hnext
  | register hnext hregister _ ih =>
    rw [play_register hnext, hregister]
    exact ih
  | push hnext _ ih => exact (play_push hnext).trans ih
  | miss hnext hnone _ ih =>
    rw [play_invoke hnext, invoke_of_none hnone]
    exact ih
  | invoke hnext hsome _ _ ihInside ihRest =>
    rw [play_invoke hnext, invoke_of_some hsome, ihInside]
    exact ihRest

theorem Takes.invoke_eq {t : Turn κ} (h : Takes r t r') :
    r.invoke t.handler = some (t.ran, r') := by
  cases h with
  | miss hnone => exact invoke_of_none hnone
  | run hsome hruns =>
    rw [invoke_of_some hsome, hruns.play_eq]
    rfl

theorem exists_runs (r : Reactor ε κ) (notice : Notice κ) (r' : Reactor ε κ) :
    r.play notice = some r' → ∃ course, Runs r notice course r' := by
  refine play.partial_correctness (fun r notice r' => ∃ course, Runs r notice course r') ?_
    r notice r'
  intro play ih r notice r' h
  rcases hnext : r.next notice with ⟨move, s⟩
  rw [hnext] at h
  cases move with
  | register id callback =>
    obtain ⟨course, hcourse⟩ := ih _ _ _ h
    exact ⟨_, .register hnext rfl hcourse⟩
  | invoke handler =>
    dsimp only at h
    cases hcallback : s.callback? handler with
    | none =>
      rw [hcallback] at h
      obtain ⟨course, hcourse⟩ := ih _ _ _ h
      exact ⟨_, .miss hnext hcallback hcourse⟩
    | some callback =>
      rw [hcallback] at h
      obtain ⟨between, hinside, hrest⟩ := Option.bind_eq_some_iff.mp h
      obtain ⟨inside, hruns⟩ := ih _ _ _ hinside
      obtain ⟨course, hcourse⟩ := ih _ _ _ hrest
      exact ⟨_, .invoke hnext hcallback hruns hcourse⟩
  | push program =>
    obtain ⟨course, hcourse⟩ := ih _ _ _ h
    exact ⟨_, .push hnext hcourse⟩
  | finish =>
    cases h
    exact ⟨[], .finish hnext⟩

theorem play_eq_some_iff : r.play notice = some r' ↔ ∃ course, Runs r notice course r' :=
  ⟨exists_runs r notice r', fun ⟨_, h⟩ => h.play_eq⟩

theorem invoke_eq_some_iff {ran : Bool} :
    r.invoke handler = some (ran, r') ↔ ∃ t, Takes r t r' ∧ t.handler = handler ∧ t.ran = ran := by
  constructor
  · intro h
    cases hcallback : r.callback? handler with
    | none =>
      cases (invoke_of_none hcallback).symm.trans h
      exact ⟨_, .miss hcallback, rfl, rfl⟩
    | some callback =>
      obtain ⟨between, hplay, hran⟩ :=
        Option.map_eq_some_iff.mp ((invoke_of_some hcallback).symm.trans h)
      cases hran
      obtain ⟨inside, hinside⟩ := play_eq_some_iff.mp hplay
      exact ⟨_, .run hcallback hinside, rfl, rfl⟩
  · rintro ⟨t, h, rfl, rfl⟩
    exact h.invoke_eq

/-- Handlers are run just as they have their turns, and those that had a callback are counted. -/
theorem fire_eq_some_iff {handlers : List Handler} {count : Nat} :
    r.fire handlers = some (count, r') ↔
      ∃ turns, Fires r turns r' ∧ turns.map (·.handler) = handlers ∧
        turns.countP (·.ran) = count := by
  induction handlers generalizing r count with
  | nil =>
    constructor
    · intro h
      cases h
      exact ⟨[], .done _, rfl, rfl⟩
    · rintro ⟨turns, h, hhandlers, rfl⟩
      cases List.map_eq_nil_iff.mp hhandlers
      cases h
      rfl
  | cons handler rest ih =>
    constructor
    · intro h
      obtain ⟨⟨ran, between⟩, hinvoke, h⟩ := Option.bind_eq_some_iff.mp h
      obtain ⟨⟨later, last⟩, hfire, h⟩ := Option.bind_eq_some_iff.mp h
      cases h
      obtain ⟨t, htakes, rfl, rfl⟩ := invoke_eq_some_iff.mp hinvoke
      obtain ⟨turns, hturns, rfl, rfl⟩ := ih.mp hfire
      refine ⟨t :: turns, .turn htakes hturns, rfl, ?_⟩
      rw [List.countP_cons]
      cases t.ran <;> rfl
    · rintro ⟨turns, h, hhandlers, rfl⟩
      cases h with
      | done => cases hhandlers
      | @turn _ between _ t turns htakes hturns =>
        obtain ⟨rfl, hrest⟩ := List.cons.inj hhandlers
        rw [fire, htakes.invoke_eq]
        simp only [Option.bind_eq_bind, Option.bind_some, ih.mpr ⟨_, hturns, hrest, rfl⟩,
          List.countP_cons]
        cases t.ran <;> rfl

end TreeCode.Reactor
