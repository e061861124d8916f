import TreeCode.Proofs.Machine.Conservation

/-!
# Putting siblings off

A machine that puts siblings off and one that does not, asked the same, keep in step: they answer
alike and differ in nothing but the insertions put off (`postponing`). What their hosts have in
common is a relation that grows with these (`Bears`), and whatever such a relation says at first it
says at the end of a run and after any requests but a flush (`abreast_runOn`, `abreast_serve`). On
hosts that keep their calls, one makes the calls of the other without the insertions, and a flush
makes those (`insertions_moved`).
-/

namespace TreeCode

variable {σ τ ν α : Type}

/-- What a machine that puts siblings off asks for where another asks for this. -/
def Demand.postponed : Demand ν → Demand ν
  | .edit (.insertAfter sibling child) => .defer sibling child
  | demand => demand

theorem Demand.Modest.postponed_eq {t : SlotTable ν} {demand : Demand ν} (h : demand.Modest t) :
    demand.postponed = demand := by
  cases demand with
  | create request => rfl
  | edit e => cases e <;> first | rfl | cases h.1
  | defer sibling child => rfl

namespace Machine

variable {m m' : Machine ν}

/-- The machine when it puts siblings off, and has put off these. -/
def postponing (m : Machine ν) (pairs : List (ν × ν)) : Machine ν :=
  { m with defersSiblings := true, deferred := pairs }

/-- The machine neither puts siblings off nor has put any off. -/
structure Prompt (m : Machine ν) : Prop where
  defersSiblings : m.defersSiblings = false
  deferred : m.deferred = []

theorem Prompt.of_eq_within (hm : m.Prompt) (h : m' = m'.within m) : m'.Prompt := by
  rw [h]
  exact ⟨hm.defersSiblings, hm.deferred⟩

theorem Prompt.relocate (hm : m.Prompt) (program : List UInt8) (place : Nat) :
    (m.relocate program place).Prompt := ⟨hm.defersSiblings, hm.deferred⟩

theorem Prompt.host_flush [Host σ ν] (hm : m.Prompt) (host : σ) : (m.flush host).host = host := by
  simp only [flush, hm.deferred]
  rfl

theorem within_postponing (h : m' = m'.within m) (pairs : List (ν × ν)) :
    m'.within (m.postponing pairs) = m'.postponing pairs := by
  rw [h]; rfl

theorem Blind.postponing {step : Step ν α} (h : Blind step) (m : Machine ν)
    (pairs : List (ν × ν)) :
    step (m.postponing pairs) =
      match step m with
      | .ok a m' => .ok a (m'.postponing pairs)
      | .error e m' => .error e (m'.postponing pairs) := by
  have hw := h m (m.postponing pairs) rfl
  change step (m.postponing pairs) = _ at hw
  rw [hw]
  cases hs : step m with
  | ok a m' => exact congrArg _ (within_postponing (h.local.eq_within_of_ok hs) pairs)
  | error e m' => exact congrArg _ (within_postponing (h.local.eq_within_of_error hs) pairs)

/-- An instruction that is blind to it asks for the same when siblings are put off. -/
theorem postponed_of_prepare {i : Instruction String} (hi : i ≠ .appendSibling) {demand : Demand ν}
    (h : prepare i m = .ok demand m') : demand.postponed = demand := by
  cases hc : consumes i with
  | false => exact ((reads_prepare hc).ok h).2.postponed_eq
  | true =>
    cases i with
    | appendChild =>
      rw [prepare_appendChild] at h
      split at h <;> cases h
      rfl
    | appendSibling => exact absurd rfl hi
    | _ => cases hc

/-- Putting siblings off changes a demand to insert one, and no other. -/
theorem prepare_postponing (i : Instruction String) (hm : m.Prompt)
    (pairs : List (ν × ν)) :
    prepare i (m.postponing pairs) =
      match prepare i m with
      | .ok demand m' => .ok demand.postponed (m'.postponing pairs)
      | .error e m' => .error e (m'.postponing pairs) := by
  by_cases hi : i = .appendSibling
  · subst hi
    rw [prepare_appendSibling, prepare_appendSibling, blind_consume.postponing m pairs]
    cases hc : consume m with
    | error e m' => rfl
    | ok pair m' =>
      simp only [(defersSiblings_of_consume hc).trans hm.defersSiblings]
      rfl
  · rw [(blind_prepare hi).postponing m pairs]
    cases hp : prepare i m with
    | error e m' => rfl
    | ok demand m' => simp only [postponed_of_prepare hi hp]

theorem Prompt.ne_defer (hm : m.Prompt) {i : Instruction String} {demand : Demand ν}
    (h : prepare i m = .ok demand m') (sibling child : ν) : demand ≠ .defer sibling child := by
  rintro rfl
  cases hi : consumes i with
  | false => exact ((reads_prepare hi).ok h).2
  | true =>
    obtain ⟨pair, -, hjoins⟩ := joins_of_prepare hi h
    cases hjoins with
    | defer hdefers =>
      rw [hm.defersSiblings] at hdefers
      cases hdefers

theorem Prompt.execute [Host σ ν] (hm : m.Prompt) (i : Instruction String) (host : σ) :
    (execute i m host).machine.Prompt := by
  unfold Machine.execute
  cases hp : prepare i m with
  | error e k => exact hm.of_eq_within ((local_prepare i).eq_within_of_error hp)
  | ok demand k =>
    have hk : k.Prompt := hm.of_eq_within ((local_prepare i).eq_within_of_ok hp)
    cases demand with
    | create request =>
      obtain ⟨operands, ha⟩ := exists_adopt_eq k (Host.create request host).1
      simp only [satisfy, ha]
      exact ⟨hk.defersSiblings, hk.deferred⟩
    | edit e => exact hk
    | defer sibling child => exact absurd rfl (hm.ne_defer hp sibling child)

theorem adopt_postponing (m : Machine ν) (pairs : List (ν × ν)) (node : ν) :
    (m.postponing pairs).adopt node = ((m.adopt node).1, (m.adopt node).2.postponing pairs) := by
  obtain ⟨operands, ha⟩ := exists_adopt_eq m node
  have hw := adopt_within m (m.postponing pairs) node
  rw [ha] at hw ⊢
  exact hw

end Machine

/-! ## Hosts in step -/

/-- What two hosts have in common, given the live nodes and the insertions that the second has not
been asked for yet, stays so when both are asked the same, but for insertions. -/
structure Bears [Host σ ν] [Host τ ν] (R : SlotTable ν → List (ν × ν) → σ → τ → Prop) : Prop where
  create : ∀ {t pairs a b} (request : Creation), R t pairs a b →
    (Host.create request b).1 = (Host.create request a).1 ∧
      R (t.insert (Host.create request a).1).2 pairs (Host.create request a).2
        (Host.create request b).2
  edit : ∀ {t pairs a b} {e : Edit ν}, R t pairs a b → e.joined? = none →
    (∀ node ∈ e.nodes, node ∈ t.nodes) → R t pairs (Host.edit e a) (Host.edit e b)
  append : ∀ {t t' pairs a b parent child}, R t pairs a b →
    t.consume? = some ((parent, child), t') →
    R t' pairs (Host.edit (.appendChild parent child) a) (Host.edit (.appendChild parent child) b)
  insert : ∀ {t t' pairs a b sibling child}, R t pairs a b →
    t.consume? = some ((sibling, child), t') →
    R t' (pairs ++ [(sibling, child)]) (Host.edit (.insertAfter sibling child) a) b

/-- The second of two outcomes is the first with siblings put off, and their hosts are in step. -/
structure Abreast (R : SlotTable ν → List (ν × ν) → σ → τ → Prop) (o : Outcome σ ν α)
    (o' : Outcome τ ν α) : Prop where
  result : o'.result = o.result
  prompt : o.machine.Prompt
  hosts : ∃ pairs, o'.machine = o.machine.postponing pairs ∧ R o.machine.table pairs o.host o'.host

theorem Abreast.map {β : Type} {R : SlotTable ν → List (ν × ν) → σ → τ → Prop}
    {o : Outcome σ ν α} {o' : Outcome τ ν α} (h : Abreast R o o') (f : α → β) :
    Abreast R (o.map f) (o'.map f) :=
  ⟨congrArg (Except.map f) h.result, h.prompt, h.hosts⟩

namespace Machine

variable {m m' : Machine ν} [Host σ ν] [Host τ ν] {R : SlotTable ν → List (ν × ν) → σ → τ → Prop}
  {pairs : List (ν × ν)} {a : σ} {b : τ}

theorem abreast_of_modest (hR : Bears R) (hm : m.Prompt)
    (h : R m.table pairs a b) {demand : Demand ν} (hd : demand.Modest m.table) :
    Abreast R (m.satisfy a demand) ((m.postponing pairs).satisfy b demand.postponed) := by
  rw [hd.postponed_eq]
  cases demand with
  | create request =>
    obtain ⟨hnode, hcreated⟩ := hR.create request h
    obtain ⟨operands, ha⟩ := exists_adopt_eq m (Host.create request a).1
    refine ⟨rfl, ?_, pairs, ?_, ?_⟩
    · simp only [satisfy, ha]
      exact ⟨hm.defersSiblings, hm.deferred⟩
    · simp only [satisfy, hnode, adopt_postponing]
    · simpa only [satisfy, ha, SlotTable.nodeTable_insert] using hcreated
  | edit e => exact ⟨rfl, hm, pairs, rfl, hR.edit h hd.1 hd.2⟩
  | defer sibling child => cases hd

theorem abreast_of_joins (hR : Bears R) (hm : m.Prompt) {t : SlotTable ν}
    (h : R t pairs a b) {demand : Demand ν} {pair : ν × ν} (hd : demand.Joins false pair)
    (hc : t.consume? = some (pair, m.table)) :
    Abreast R (m.satisfy a demand) ((m.postponing pairs).satisfy b demand.postponed) := by
  cases hd with
  | append => exact ⟨rfl, hm, pairs, rfl, hR.append h hc⟩
  | insert => exact ⟨rfl, hm, pairs ++ [pair], rfl, hR.insert h hc⟩
  | defer hdefers => cases hdefers

theorem abreast_execute (hR : Bears R) (i : Instruction String) (hm : m.Prompt)
    (h : R m.table pairs a b) : Abreast R (execute i m a) (execute i (m.postponing pairs) b) := by
  unfold execute
  rw [prepare_postponing i hm pairs]
  cases hp : prepare i m with
  | error e k =>
    have hk : k.Prompt := hm.of_eq_within ((local_prepare i).eq_within_of_error hp)
    exact ⟨rfl, hk, pairs, rfl, (prepare_error hp).1 ▸ h⟩
  | ok demand k =>
    have hk : k.Prompt := hm.of_eq_within ((local_prepare i).eq_within_of_ok hp)
    cases hi : consumes i with
    | false =>
      obtain ⟨htable, hmodest⟩ := (reads_prepare hi).ok hp
      rw [← htable] at h hmodest
      exact abreast_of_modest hR hk h hmodest
    | true =>
      obtain ⟨pair, hc, hjoins⟩ := joins_of_prepare hi hp
      exact abreast_of_joins hR hk h (hm.defersSiblings ▸ hjoins) hc

/-- A run keeps them in step, however it ends. -/
theorem abreast_runOn (hR : Bears R) (bytes : List UInt8) (m : Machine ν) (a : σ)
    (hm : m.Prompt) (b : τ) (pairs : List (ν × ν)) (h : R m.table pairs a b) :
    Abreast R (runOn bytes m a) (runOn bytes (m.postponing pairs) b) := by
  induction bytes, m, a using runOn_induction generalizing b pairs with
  | finished m a =>
    rw [runOn_nil, runOn_nil]
    exact ⟨rfl, hm, pairs, rfl, h⟩
  | failed bytes m a raw width e hr he =>
    have hx : Abreast R (execute raw.ofBytes (m.advance width) a)
        (execute raw.ofBytes ((m.postponing pairs).advance width) b) :=
      abreast_execute hR raw.ofBytes (m := m.advance width) (hm.relocate _ _) h
    rw [runOn_of_error hr he, runOn_of_error hr (hx.result.trans he)]
    exact ⟨rfl, hx.prompt, hx.hosts⟩
  | continued bytes m a raw width hr hok ih =>
    have hx : Abreast R (execute raw.ofBytes (m.advance width) a)
        (execute raw.ofBytes ((m.postponing pairs).advance width) b) :=
      abreast_execute hR raw.ofBytes (m := m.advance width) (hm.relocate _ _) h
    obtain ⟨later, hmachine, hlater⟩ := hx.hosts
    have hrest := ih hx.prompt _ later hlater
    rw [runOn_of_ok hr hok, runOn_of_ok hr (hx.result.trans hok), hmachine]
    exact ⟨hrest.result, hrest.prompt, hrest.hosts⟩
  | truncated bytes m a hne hr =>
    rw [runOn_of_truncated hne hr, runOn_of_truncated hne hr]
    exact ⟨rfl, hm, pairs, rfl, h⟩
  | unknown bytes m a byte hr =>
    rw [runOn_of_unknown hr, runOn_of_unknown hr]
    exact ⟨rfl, hm.relocate _ _, pairs, rfl, h⟩
  | undelimited bytes m a found hr =>
    rw [runOn_of_undelimited hr, runOn_of_undelimited hr]
    exact ⟨rfl, hm, pairs, rfl, h⟩

/-! ## Requests -/

omit [Host σ ν] [Host τ ν] in
theorem abreast_alone {step : Step ν α} (hs : Blind step) (ht : Reads step fun _ _ => True)
    (hm : m.Prompt) (h : R m.table pairs a b) :
    Abreast R (m.alone a step) ((m.postponing pairs).alone b step) := by
  unfold alone
  rw [hs.postponing m pairs]
  cases hk : step m with
  | ok answer k =>
    exact ⟨rfl, hm.of_eq_within (hs.local.eq_within_of_ok hk), pairs, rfl, (ht.ok hk).1 ▸ h⟩
  | error e k =>
    exact ⟨rfl, hm.of_eq_within (hs.local.eq_within_of_error hk), pairs, rfl, (ht.error hk).1 ▸ h⟩

theorem abreast_perform (hR : Bears R) (hm : m.Prompt) (h : R m.table pairs a b)
    {request : Request} (hrequest : request ≠ .flush) :
    Abreast R (m.perform a request) ((m.postponing pairs).perform b request) := by
  cases request with
  | feed bytes => exact ⟨rfl, hm.relocate _ _, pairs, rfl, h⟩
  | push value =>
    exact (abreast_alone (blind_onOperands _) (reads_onOperands (Operands.raises_push _))
      hm h).map _
  | pop => exact (abreast_alone blind_pop reads_pop hm h).map _
  | pushText text =>
    exact (abreast_alone (blind_onOperands _) (reads_onOperands (Operands.raises_pushText _))
      hm h).map _
  | run => exact (abreast_runOn hR m.remaining m a hm b pairs h).map _
  | flush => exact absurd rfl hrequest

/-- Requests keep them in step, if none is to flush, and are answered alike. -/
theorem abreast_serve (hR : Bears R) (requests : List Request) (hrequests : .flush ∉ requests)
    (m : Machine ν) (a : σ) (hm : m.Prompt) (b : τ) (pairs : List (ν × ν))
    (h : R m.table pairs a b) :
    (serve requests (m.postponing pairs) b).1 = (serve requests m a).1 ∧
      ∃ later, (serve requests (m.postponing pairs) b).2.1 =
          (serve requests m a).2.1.postponing later ∧
        R (serve requests m a).2.1.table later (serve requests m a).2.2
          (serve requests (m.postponing pairs) b).2.2 := by
  induction requests generalizing m a b pairs with
  | nil => exact ⟨rfl, pairs, rfl, h⟩
  | cons request rest ih =>
    have hfirst := abreast_perform hR hm h (List.ne_of_not_mem_cons hrequests).symm
    obtain ⟨next, hmachine, hnext⟩ := hfirst.hosts
    have := ih (List.not_mem_of_not_mem_cons hrequests) _ _ hfirst.prompt _ next hnext
    simp only [serve, hmachine, hfirst.result]
    exact this.imp_left (congrArg _)

/-! ## Hosts that keep their calls -/

omit [Host σ ν] [Host τ ν]

/-- The second host was asked what the first was, but for the insertions, and these were put off. -/
structure AskedLess (pairs : List (Nat × Nat)) (s t : Traced Numbering Nat) : Prop where
  created : t.host.created = s.host.created
  calls : t.calls = s.calls.filter (!·.isInsertion)
  insertions : pairs.map Call.insertion = s.calls.filter Call.isInsertion

theorem isInsertion_edit {e : Edit ν} (he : ∀ sibling child, e ≠ .insertAfter sibling child) :
    (Call.edit e).isInsertion = false := by
  cases e with
  | insertAfter sibling child => exact absurd rfl (he sibling child)
  | _ => rfl

theorem AskedLess.edit {pairs : List (Nat × Nat)} {s t : Traced Numbering Nat}
    (h : AskedLess pairs s t) {e : Edit Nat}
    (he : ∀ sibling child, e ≠ .insertAfter sibling child) :
    AskedLess pairs (Host.edit e s) (Host.edit e t) where
  created := h.created
  calls := by simp [h.calls, isInsertion_edit he]
  insertions := by simp [h.insertions, isInsertion_edit he]

theorem bears_askedLess : Bears fun _ => AskedLess where
  create {_ pairs s t} request h := by
    have hnode : (Host.create request t).1 = (Host.create request s).1 := h.created
    refine ⟨hnode, congrArg (· + 1) h.created, ?_, ?_⟩
    · simp [h.calls, hnode, Call.isInsertion]
    · simp [h.insertions, Call.isInsertion]
  edit h he _ := h.edit fun _ _ hi => by rw [hi] at he; cases he
  append h _ := h.edit fun _ _ hi => by cases hi
  insert h _ := by
    refine ⟨h.created, ?_, ?_⟩
    · simp [h.calls, Call.isInsertion]
    · rw [List.map_append, h.insertions, calls_edit, List.filter_append]
      rfl

/-- **Insertions move to the flush.** Two machines run the same programs and get the same requests,
none of them a flush. Their hosts keep their calls and number the nodes, and only the second puts
siblings off. Then both give the same answers, errors included, and after any of the requests they
stand at the same place, with the same live nodes and operand stack. The host of the second has got
the calls of the first without the insertions, of which as many wait. A flush then makes just these
in their order and answers how many; nothing waits after it, and one more flush does nothing. -/
theorem insertions_moved (program : List UInt8) (settings : Settings) (registry : RegistryId)
    {requests : List Request} (hrequests : .flush ∉ requests) :
    let served (defersSiblings : Bool) :=
      let traced : Traced Numbering Nat := ⟨{ defersSiblings }, []⟩
      serve requests (startOn traced program settings registry : Machine Nat) traced
    let m := (served false).2.1
    let s := (served false).2.2
    let m' := (served true).2.1
    let t := (served true).2.2
    let flushed := m'.flush t
    let again := flushed.machine.flush flushed.host
    ((served true).1 = (served false).1 ∧ m'.place = m.place ∧ m'.table = m.table ∧
        m'.operands = m.operands) ∧
      t.calls = s.calls.filter (!·.isInsertion) ∧
      m'.deferred.length = s.calls.countP Call.isInsertion ∧
      flushed.host.calls = t.calls ++ s.calls.filter Call.isInsertion ∧
      flushed.result = .ok (s.calls.countP Call.isInsertion) ∧ flushed.machine.deferred = [] ∧
      again.result = .ok 0 ∧ again.host = flushed.host := by
  intro served m s m' t flushed again
  obtain ⟨hanswers, later, hmachine, hless⟩ :
      (served true).1 = (served false).1 ∧
        ∃ later, m' = m.postponing later ∧ AskedLess later s t :=
    abreast_serve bears_askedLess requests hrequests
      (startOn (⟨{ defersSiblings := false }, []⟩ : Traced Numbering Nat) program settings registry)
      ⟨{ defersSiblings := false }, []⟩ ⟨rfl, rfl⟩ ⟨{ defersSiblings := true }, []⟩ []
      ⟨rfl, rfl, rfl⟩
  have hdeferred : m'.deferred = later := by rw [hmachine]; rfl
  have hlength : m'.deferred.length = s.calls.countP Call.isInsertion := by
    rw [hdeferred, List.countP_eq_length_filter, ← hless.insertions, List.length_map]
  refine ⟨⟨hanswers, ?_, ?_, ?_⟩, hless.calls, hlength, ?_, congrArg _ hlength, rfl, rfl, rfl⟩
  · rw [hmachine]; rfl
  · rw [hmachine]; rfl
  · rw [hmachine]; rfl
  · rw [← hless.insertions, ← hdeferred]
    exact calls_flush m'.deferred t

/-- A text is put beside another, an append then fails, and the run taken up again waits for more
bytes. The insertion comes with the flush. -/
theorem insertions_moved_past_an_error :
    let requests : List Request := [.feed [6, 1, 97, 6, 1, 98, 12, 3], .run, .feed [6, 1], .run]
    let served (defersSiblings : Bool) :=
      let traced : Traced Numbering Nat := ⟨{ defersSiblings }, []⟩
      serve requests (startOn traced [] {} 0 : Machine Nat) traced
    let flushed := (served true).2.1.flush (served true).2.2
    .flush ∉ requests ∧
      (served true).1 =
        [.ok .nothing, .error (.noPair none (some 0)), .ok .nothing, .ok (.ran .pending)] ∧
      (served true).2.2.calls = [.create (.text "a") 0, .create (.text "b") 1] ∧
      flushed.host.calls =
        [.create (.text "a") 0, .create (.text "b") 1, .edit (.insertAfter 0 1)] ∧
      flushed.result = .ok 1 := by
  intro requests served flushed
  have hrequests : .flush ∉ requests := by decide
  have hanswers : (served false).1 =
      [.ok .nothing, .error (.noPair none (some 0)), .ok .nothing, .ok (.ran .pending)] := by
    decide +kernel
  have hcalls : (served false).2.2.calls =
      [.create (.text "a") 0, .create (.text "b") 1, .edit (.insertAfter 0 1)] := by
    decide +kernel
  obtain ⟨⟨halike, -⟩, hless, -, hflushed, hcount, -⟩ := insertions_moved [] {} 0 hrequests
  rw [hcalls] at hless hflushed hcount
  rw [hless] at hflushed
  exact ⟨hrequests, halike.trans hanswers, hless, hflushed, hcount⟩

end Machine

end TreeCode
