import Mathlib.Data.List.Forall2
import TreeCode.Proofs.Machine.Mirroring
import TreeCode.Session

/-!
# Machines that share a document

The machines of a session work on one document, and each could as well be alone on an empty one
(`Session.machines_apart`). For each machine, the document that it would have made alone lies inside
the one that they share, and no node of that document has a name for two machines (`Apart`): a
machine reaches only nodes below its own, and edges lead only to these. The nodes it creates have
other numbers than if it were alone, but the same slots, and what is below them is the same
(`SameShape`).
-/

namespace TreeCode

variable {σ ν : Type}

namespace Document

/-- Two nodes, of two documents, hold the same and have the same listeners, and so do those below
them, child by child. -/
inductive SameShape (d d' : Document) : NodeId → NodeId → Prop where
  | node {id id' : NodeId} : (d.node id).content = (d'.node id').content →
      (d.node id).listeners = (d'.node id').listeners →
      List.Forall₂ (SameShape d d') (d.node id).children (d'.node id').children →
      SameShape d d' id id'

variable {a d : Document} {names order : List NodeId}

/-- A forest inside a document shows there what it shows itself. -/
theorem Inside.sameShape (h : Inside names a d) (hforest : a.Forest order) {id : NodeId}
    (hid : id < a.size) : SameShape d a (named names id) id := by
  induction hplace : order.idxOf id using Nat.strongRecOn generalizing id with
  | ind place ih =>
    subst hplace
    have hnode := h.node id hid
    refine .node (by rw [hnode, Node.content_rename]) (by rw [hnode, Node.listeners_rename]) ?_
    rw [hnode, Node.children_rename, List.forall₂_map_left_iff, List.forall₂_same]
    intro child hchild
    have hparent := (hforest.linked.parent_eq_some_iff child id).mpr hchild
    exact ih _ (hforest.before_of_parent child id hparent) ((h.bounded id).children child hchild)
      rfl

end Document

open Document (named Alongside Inside SameShape)

namespace Workshop

def own {n : Nat} (k : Fin n) (asked : List (Fin n × Request)) : List Request :=
  (asked.filter (·.1 = k)).map (·.2)

def turns {n : Nat} (asked : List (Fin n × Request)) : List Turn :=
  asked.map fun (k, request) => .ask k request

theorem own_cons_self {n : Nat} (k : Fin n) (request : Request) (rest : List (Fin n × Request)) :
    own k ((k, request) :: rest) = request :: own k rest := by
  rw [own, List.filter_cons_of_pos (by simp)]
  rfl

theorem own_cons_of_ne {n : Nat} {j k : Fin n} (h : k ≠ j) (request : Request)
    (rest : List (Fin n × Request)) : own k ((j, request) :: rest) = own k rest := by
  rw [own, List.filter_cons_of_neg (by simpa using h.symm)]
  rfl

variable [Host σ ν]

/-- What a machine answers in a turn, if it is asked. -/
def answer? (w : Workshop σ ν) (k : Nat) : Turn → Option (Except Error Answer)
  | .start _ _ _ _ => none
  | .ask machine request =>
    if machine = k then w.machines[k]?.map fun m => (m.perform w.host request).result else none

def answers (w : Workshop σ ν) (k : Nat) : List Turn → List (Except Error Answer)
  | [] => []
  | turn :: rest => (w.answer? k turn).toList ++ (w.take turn).answers k rest

variable {n : Nat} {w : Workshop Document NodeId} {names : Fin n → List NodeId}
  {alone : Fin n → Machine NodeId × Document}

/-- A machine on a document does what another does alone on its own, which lies inside the first. -/
structure Twin (names : List NodeId) (alone : Machine NodeId × Document) (m : Machine NodeId)
    (d : Document) : Prop where
  machine : m = alone.1.rename (named names)
  tends : alone.1.Tends alone.2
  inside : Inside names alone.2 d

/-- Each machine does what one does alone, and no two of the documents that these make have a node
in common. -/
structure Apart (names : Fin n → List NodeId) (alone : Fin n → Machine NodeId × Document)
    (w : Workshop Document NodeId) : Prop where
  twin : ∀ k : Fin n, ∃ m, w.machines[k.val]? = some m ∧ Twin (names k) (alone k) m w.host
  disjoint : ∀ j k, j ≠ k → (names j).Disjoint (names k)

theorem Twin.perform {m : Machine NodeId} {d : Document} {names : List NodeId}
    {alone : Machine NodeId × Document} (h : Twin names alone m d) (request : Request) :
    (m.perform d request).result = (alone.1.perform alone.2 request).result ∧
      ∃ names', Alongside names alone.2 d names' (alone.1.perform alone.2 request).host
          (m.perform d request).host ∧
        Twin names'
          ((alone.1.perform alone.2 request).machine, (alone.1.perform alone.2 request).host)
          (m.perform d request).machine (m.perform d request).host := by
  obtain ⟨rfl, htends, hinside⟩ := h
  obtain ⟨hresult, names', hlater, hmachine⟩ := Machine.mirrors_perform request htends hinside
  have htends' := Machine.perform_keeps (P := Machine.Tends)
    (fun _ _ _ _ hdeed htends => htends.deed hdeed) request _ _ htends
  exact ⟨hresult, names', hlater, hmachine, htends', hlater.inside⟩

namespace Apart

/-- One machine is asked: it answers as it does alone, and the others do not notice. -/
theorem ask (h : Apart names alone w) (j : Fin n) (request : Request) :
    let answered := (alone j).1.perform (alone j).2 request
    w.answer? j (.ask j request) = some answered.result ∧
      ∃ names', Apart names' (Function.update alone j (answered.machine, answered.host))
        (w.take (.ask j request)) := by
  intro answered
  obtain ⟨m, hm, htwin⟩ := h.twin j
  obtain ⟨hresult, names', hlater, htwin'⟩ := htwin.perform request
  have hapart (k : Fin n) (hk : k ≠ j) : names'.Disjoint (names k) := by
    obtain ⟨_, -, hother⟩ := h.twin k
    exact hlater.disjoint hother.inside (h.disjoint j k hk.symm)
  constructor
  · rw [answer?, if_pos rfl, hm]
    exact congrArg some hresult
  refine ⟨Function.update names j names', fun k => ?_, fun i k hik => ?_⟩
  · simp only [take, hm]
    by_cases hk : k = j
    · subst hk
      rw [Function.update_self, Function.update_self, List.getElem?_set_self', hm]
      exact ⟨_, rfl, htwin'⟩
    · obtain ⟨other, hother, htwin⟩ := h.twin k
      rw [Function.update_of_ne hk, Function.update_of_ne hk,
        List.getElem?_set_ne fun he => hk (Fin.ext he.symm)]
      exact ⟨other, hother, htwin.machine, htwin.tends,
        htwin.inside.of_alongside hlater (h.disjoint k j hk)⟩
  · by_cases hi : i = j
    · subst hi
      rw [Function.update_self, Function.update_of_ne hik.symm]
      exact hapart k hik.symm
    · by_cases hk : k = j
      · subst hk
        rw [Function.update_self, Function.update_of_ne hi]
        exact fun _ hmem hmem' => hapart i hi hmem' hmem
      · rw [Function.update_of_ne hi, Function.update_of_ne hk]
        exact h.disjoint i k hik

theorem after (h : Apart names alone w) (asked : List (Fin n × Request)) :
    (∀ k : Fin n, w.answers k (turns asked) =
        (Machine.serve (own k asked) (alone k).1 (alone k).2).1) ∧
      ∃ names', Apart names' (fun k => (Machine.serve (own k asked) (alone k).1 (alone k).2).2)
        (w.after (turns asked)) := by
  induction asked generalizing names alone w with
  | nil => exact ⟨fun _ => rfl, names, h⟩
  | cons next rest ih =>
    obtain ⟨j, request⟩ := next
    obtain ⟨hanswer, names', hnext⟩ := h.ask j request
    obtain ⟨hanswers, later, hlater⟩ := ih hnext
    -- The one that is asked has its own request behind it, the others have none.
    let answered := (alone j).1.perform (alone j).2 request
    let next := Function.update alone j (answered.machine, answered.host)
    have hserve (k : Fin n) :
        Machine.serve (own k ((j, request) :: rest)) (alone k).1 (alone k).2 =
          ((w.answer? k (.ask j request)).toList ++
              (Machine.serve (own k rest) (next k).1 (next k).2).1,
            (Machine.serve (own k rest) (next k).1 (next k).2).2) := by
      by_cases hk : k = j
      · subst hk
        rw [own_cons_self, hanswer, show next k = _ from Function.update_self ..]
        rfl
      · have hnone : w.answer? k (.ask j request) = none :=
          if_neg fun he => hk (Fin.ext he.symm)
        rw [own_cons_of_ne hk, hnone, show next k = _ from Function.update_of_ne hk ..]
        rfl
    refine ⟨fun k => ?_, later, ?_⟩
    · rw [hserve, ← hanswers]
      rfl
    · simp only [hserve]
      exact hlater

end Apart

end Workshop

namespace Session

open Workshop (own turns)

def workshop [Host σ ν] (s : Session σ) (programs : List (List UInt8)) : Workshop σ ν :=
  ⟨s.host, programs.map s.machine⟩

theorem apart_workshop (s : Session Document) (programs : List (List UInt8)) :
    let empty : Document := { defersSiblings := s.host.defersSiblings }
    Workshop.Apart (fun _ => [])
      (fun k : Fin programs.length =>
        (Machine.startOn empty programs[k] s.settings s.registry, empty))
      (s.workshop programs) := by
  intro empty
  refine ⟨fun k => ⟨s.machine programs[k], ?_, rfl, ?_, Document.inside_nil _ _⟩, ?_⟩
  · simp [workshop]
  · exact ⟨[], .empty _, .nil, List.forall_mem_nil _, List.forall_mem_nil _⟩
  · exact fun _ _ _ _ hmem => absurd hmem List.not_mem_nil

/-- **Machines that share a document do not meet.** Machines are made for some programs in one
session, and requests are made of them in any order. Then each answers, fails, and ends as it would
with only its own requests on an empty document: at the same place, with the same operands, with as
many nodes created and insertions put off, and with live nodes in the same slots. What is below
each of these nodes has the same shape in both documents, whatever the numbers of the nodes. -/
theorem machines_apart (s : Session Document) (programs : List (List UInt8))
    (asked : List (Fin programs.length × Request)) (k : Fin programs.length) :
    let w : Workshop Document NodeId := s.workshop programs
    let shared := w.after (turns asked)
    let empty : Document := { defersSiblings := s.host.defersSiblings }
    let served := Machine.serve (own k asked)
      (Machine.startOn empty programs[k] s.settings s.registry : Machine NodeId) empty
    let alone := served.2.1
    w.answers k (turns asked) = served.1 ∧
      ∃ m, shared.machines[k.val]? = some m ∧ m.program = alone.program ∧ m.place = alone.place ∧
        m.operands = alone.operands ∧
        m.table.live.map (·.1) = alone.table.live.map (·.1) ∧
        m.table.created = alone.table.created ∧ m.deferred.length = alone.deferred.length ∧
        List.Forall₂ (SameShape shared.host served.2.2) m.table.nodes alone.table.nodes := by
  intro w shared empty served alone
  obtain ⟨hanswers, names, hshared⟩ := (s.apart_workshop programs).after asked
  obtain ⟨m, hm, rfl, ⟨order, htended⟩, hinside⟩ := hshared.twin k
  refine ⟨hanswers k, _, hm, rfl, rfl, rfl, ?_, rfl, List.length_map .., ?_⟩
  · exact List.map_map ..
  · have hnodes : (alone.rename (named (names k))).table.nodes =
        alone.table.nodes.map (named (names k)) := by
      simp only [SlotTable.nodes, Machine.rename, SlotTable.rename, List.map_map]
      rfl
    rw [hnodes, List.forall₂_map_left_iff, List.forall₂_same]
    exact fun id hid => hinside.sameShape htended.forest (htended.free id hid).1

/-- The text of the second machine gets the number that the first has left. Alone, it is node 0. -/
example :
    let s : Session Document := { host := {} }
    let w : Workshop Document NodeId := s.workshop [[6, 1, 97], [6, 1, 98]]
    let shared := w.after (turns (n := 2) [(0, .run), (1, .run)])
    shared.machines.map (·.table.nodes) = [[0], [1]] := by decide +kernel

end Session

end TreeCode
