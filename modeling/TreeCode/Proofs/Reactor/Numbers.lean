import TreeCode.Proofs.Reactor.Course

/-!
# Numbers of callbacks

A registry gives its numbers in the order of time, and a callback keeps its number. Whatever code
runs, and however deep its callbacks run inside one another, it can do no more to a reactor than its
course tells (`Runs.grows`): the callbacks that were given numbers have come behind those that each
registry held, the programs that were pushed behind those on the queue, and at its time everything
was as it must be (`Grows`). Courses that follow one another make one (`Grows.append`).
-/

namespace TreeCode

namespace Registry

variable {κ : Type} {r r' : Registry κ} {index : UInt8} {callback : κ}

theorem register_of_lt (h : r.size < 256) (callback : κ) :
    ∃ index r', r.register callback = .ok (index, r') ∧ index.toNat = r.size ∧
      r'.callbacks = r.callbacks ++ [callback] := by
  have hroom : r.callbacks.length < 256 := h
  unfold register
  rw [dif_pos hroom]
  exact ⟨_, _, rfl, UInt8.toNat_ofNat_of_lt' h, rfl⟩

theorem register_of_le (h : 256 ≤ r.size) (callback : κ) :
    r.register callback = .error .callbacksFull := by
  have hfull : ¬ r.callbacks.length < 256 := Nat.not_lt.mpr h
  unfold register
  rw [dif_neg hfull]

end Registry

namespace Reactor

variable {ε κ : Type}

namespace Occurrence

/-- The callback that was given a number of a registry, if one was. -/
def numbered? (id : RegistryId) : Occurrence κ → Option κ
  | registered other callback (.ok _) => if other = id then some callback else none
  | _ => none

def numbered (id : RegistryId) (course : List (Occurrence κ)) : List κ :=
  course.filterMap (numbered? id)

def pushed? : Occurrence κ → Option (List UInt8)
  | pushed program => some program
  | _ => none

def programs (course : List (Occurrence κ)) : List (List UInt8) := course.filterMap pushed?

/-- The record of an occurrence, if it leaves one. -/
def record? : Occurrence κ → Option Record
  | registered _ _ (.ok index) =>
    some ⟨.trace, target, "registered callback #" ++ Nat.repr index.toNat⟩
  | missed handler => some ⟨.trace, target, "no callback at #" ++ Nat.repr handler.index.toNat⟩
  | _ => none

/-- What happens is as it must be when each registry has given numbers to just these callbacks, from
zero on. -/
def Fits (known : RegistryId → List κ) : Occurrence κ → Prop
  | registered id _ (.ok index) => index.toNat = (known id).length
  | registered id _ (.error e) => e = .callbacksFull ∧ (known id).length = 256
  | missed handler => (known handler.registry).length ≤ handler.index.toNat
  | began handler callback => (known handler.registry)[handler.index.toNat]? = some callback
  | ended _ => True
  | pushed _ => True

end Occurrence

open Occurrence (numbered programs)

/-- The callbacks of each registry after a course. -/
def known (r : Reactor ε κ) (course : List (Occurrence κ)) (id : RegistryId) : List κ :=
  (r.registries id).callbacks ++ numbered id course

/-- From `r` to `r'` the registries, the queue and the log have grown by what the course tells, and
all that happened was as it must be at its time. -/
structure Grows (r : Reactor ε κ) (course : List (Occurrence κ)) (r' : Reactor ε κ) : Prop where
  callbacks : ∀ id, (r'.registries id).callbacks = r.known course id
  queue : r'.queue = r.queue ++ programs course
  log : r'.log = r.log ++ course.filterMap Occurrence.record?
  fits : ∀ before occurrence after, course = before ++ occurrence :: after →
    occurrence.Fits (r.known before)

variable {r s r' : Reactor ε κ} {course later : List (Occurrence κ)} {occurrence : Occurrence κ}

theorem known_nil (r : Reactor ε κ) : r.known [] = fun id => (r.registries id).callbacks :=
  funext fun _ => List.append_nil _

namespace Grows

theorem nothing (hregistries : s.registries = r.registries) (hqueue : s.queue = r.queue)
    (hlog : s.log = r.log) : r.Grows [] s where
  callbacks id := by rw [hregistries, known_nil]
  queue := hqueue.trans (List.append_nil _).symm
  log := hlog.trans (List.append_nil _).symm
  fits _ _ _ h := by simp at h

theorem one (hcallbacks : ∀ id, (s.registries id).callbacks = r.known [occurrence] id)
    (hqueue : s.queue = r.queue ++ programs [occurrence])
    (hlog : s.log = r.log ++ occurrence.record?.toList)
    (hfits : occurrence.Fits fun id => (r.registries id).callbacks) : r.Grows [occurrence] s where
  callbacks := hcallbacks
  queue := hqueue
  log := by
    rw [hlog, List.filterMap_cons]
    cases occurrence.record? <;> rfl
  fits before o after h := by
    obtain ⟨rfl, rest⟩ : before = [] ∧ occurrence :: [] = o :: after := by
      cases before with
      | nil => exact ⟨rfl, h⟩
      | cons first before =>
        have hlength := congrArg List.length h
        simp at hlength
    obtain rfl : occurrence = o := (List.cons.inj rest).1
    rwa [known_nil]

theorem append (h : r.Grows course s) (h' : s.Grows later r') : r.Grows (course ++ later) r' := by
  have hknown (course' : List (Occurrence κ)) : s.known course' = r.known (course ++ course') := by
    funext id
    rw [known, h.callbacks, known, known, List.append_assoc, numbered, numbered, numbered,
      List.filterMap_append]
  refine ⟨fun id => ?_, ?_, ?_, fun before o after hsplit => ?_⟩
  · rw [h'.callbacks, hknown]
  · rw [h'.queue, h.queue, List.append_assoc, programs, programs, programs, List.filterMap_append]
  · rw [h'.log, h.log, List.append_assoc, List.filterMap_append]
  · rcases List.append_eq_append_iff.mp hsplit with ⟨front, rfl, hlater⟩ | ⟨back, rfl, hback⟩
    · exact hknown front ▸ h'.fits front o after hlater
    · cases back with
      | nil =>
        have hfits := h'.fits [] o after hback.symm
        rwa [hknown, List.append_nil, List.append_nil] at hfits
      | cons first back =>
        obtain ⟨rfl, -⟩ := List.cons.inj hback
        exact h.fits before o back rfl

/-- However many registrations there are, no more than 256 callbacks of a registry have numbers. -/
theorem length_le (h : r.Grows course r') (id : RegistryId) : (r.known course id).length ≤ 256 :=
  h.callbacks id ▸ (r'.registries id).length_le

theorem callback?_eq (h : r.Grows course r') {handler : Handler} {callback : κ}
    (hcallback : r.callback? handler = some callback) : r'.callback? handler = some callback := by
  obtain ⟨hlt, hget⟩ := List.getElem?_eq_some_iff.mp hcallback
  rw [callback?, Registry.get?, h.callbacks, known, List.getElem?_append_left hlt]
  exact hcallback

end Grows

/-! ## One thing -/

theorem register_of_lt {id : RegistryId} (h : (r.registries id).size < 256) (callback : κ) :
    ∃ index, (r.register id callback).1 = .ok index ∧
      ((r.register id callback).2.registries id).size = (r.registries id).size + 1 := by
  obtain ⟨index, registry, hregister, -, hcallbacks⟩ := Registry.register_of_lt h callback
  unfold register
  rw [hregister]
  refine ⟨index, rfl, ?_⟩
  change (if id = id then registry else _).size = _
  rw [if_pos rfl, Registry.size, hcallbacks, List.length_append]
  rfl

/-- When all numbers are given away, a registration fails and changes nothing. -/
theorem register_of_le {id : RegistryId} (h : 256 ≤ (r.registries id).size) (callback : κ) :
    r.register id callback = (.error .callbacksFull, r) := by
  unfold register
  rw [Registry.register_of_le h]

theorem grows_register {id : RegistryId} {callback : κ} {answer : Except Error UInt8}
    (h : r.register id callback = (answer, s)) : r.Grows [.registered id callback answer] s := by
  rcases Nat.lt_or_ge (r.registries id).size 256 with hroom | hfull
  · obtain ⟨index, registry, hregister, hindex, hcallbacks⟩ :=
      Registry.register_of_lt hroom callback
    have hregistered : r.register id callback = (.ok index,
        { r with
          registries := fun other => if other = id then registry else r.registries other }.trace
            ("registered callback #" ++ Nat.repr index.toNat)) := by
      unfold register
      rw [hregister]
    cases hregistered.symm.trans h
    refine .one (fun other => ?_) (List.append_nil _).symm rfl hindex
    change (if other = id then registry else r.registries other).callbacks =
      _ ++ [Occurrence.registered id callback (.ok index)].filterMap (Occurrence.numbered? other)
    rw [List.filterMap_cons, Occurrence.numbered?]
    by_cases hother : other = id
    · rw [if_pos hother, if_pos hother.symm, hother, hcallbacks]
      rfl
    · rw [if_neg hother, if_neg (Ne.symm hother)]
      exact (List.append_nil _).symm
  · cases (register_of_le hfull callback).symm.trans h
    exact .one (fun id => (List.append_nil _).symm) (List.append_nil _).symm
      (List.append_nil _).symm ⟨rfl, Nat.le_antisymm (r.registries id).length_le hfull⟩

theorem grows_push (r : Reactor ε κ) (program : List UInt8) :
    r.Grows [.pushed program] (r.push program) :=
  .one (fun _ => (List.append_nil _).symm) rfl (List.append_nil _).symm trivial

theorem grows_miss {handler : Handler} (h : r.callback? handler = none) :
    r.Grows [.missed handler] (r.miss handler.index) :=
  .one (fun _ => (List.append_nil _).symm) (List.append_nil _).symm rfl
    (List.getElem?_eq_none_iff.mp h)

theorem grows_began {handler : Handler} {callback : κ} (h : r.callback? handler = some callback) :
    r.Grows [.began handler callback] r :=
  .one (fun _ => (List.append_nil _).symm) (List.append_nil _).symm (List.append_nil _).symm h

theorem grows_ended (r : Reactor ε κ) (handler : Handler) : r.Grows [.ended handler] r :=
  .one (fun _ => (List.append_nil _).symm) (List.append_nil _).symm (List.append_nil _).symm trivial

/-! ## All that happens -/

variable [Embedder ε κ] {notice : Notice κ} {move : Move κ}

/-- To choose a move changes no more than the state of the code. -/
theorem grows_next (h : r.next notice = (move, s)) : r.Grows [] s := by
  cases h
  exact .nothing rfl rfl rfl

/-- Whatever code runs, it does to the reactor what its course tells. -/
theorem Runs.grows (h : Runs r notice course r') : r.Grows course r' := by
  induction h with
  | finish hnext => exact grows_next hnext
  | register hnext hregister _ ih =>
    exact (grows_next hnext).append ((grows_register hregister).append ih)
  | push hnext _ ih => exact (grows_next hnext).append ((grows_push _ _).append ih)
  | miss hnext hnone _ ih => exact (grows_next hnext).append ((grows_miss hnone).append ih)
  | invoke hnext hsome _ _ ihInside ihRest =>
    exact ((grows_next hnext).append ((grows_began hsome).append ihInside)).append
      ((grows_ended _ _).append ihRest)

theorem Takes.grows {t : Turn κ} (h : Takes r t r') : r.Grows t.course r' := by
  cases h with
  | miss hnone => exact grows_miss hnone
  | run hsome hinside =>
    exact ((grows_began hsome).append hinside.grows).append (grows_ended _ _)

theorem Fires.grows {turns : List (Turn κ)} (h : Fires r turns r') :
    r.Grows (turns.flatMap Turn.course) r' := by
  induction h with
  | done r => exact .nothing rfl rfl rfl
  | turn htakes _ ih => exact htakes.grows.append ih

/-- What runs in a turn is the callback that has the number by then, if there is one. -/
theorem Fires.ran_eq {turns before after : List (Turn κ)} {t : Turn κ} (h : Fires r turns r')
    (hsplit : turns = before ++ t :: after) :
    t.ran?.map Prod.fst =
      (r.known (before.flatMap Turn.course) t.handler.registry)[t.handler.index.toNat]? := by
  have hcourse : turns.flatMap Turn.course =
      before.flatMap Turn.course ++ (t.course ++ after.flatMap Turn.course) := by
    rw [hsplit, List.flatMap_append, List.flatMap_cons]
  obtain ⟨handler, ran?⟩ := t
  cases ran? with
  | none => exact (List.getElem?_eq_none (h.grows.fits _ _ _ hcourse)).symm
  | some ran => exact (h.grows.fits _ _ _ hcourse).symm

end Reactor

end TreeCode
