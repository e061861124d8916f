import Mathlib.Data.List.Nodup
import TreeCode.Proofs.Machine.Deeds

/-!
# Nodes are conserved

What holds of the calls of a machine on a host that keeps them. `Conserved` is what holds at every
moment: the nodes created are the live ones with the children of the joins made and put off, and no
call names a node that was not created before. `Since` is what has happened to a node since it was
live no more. Calls are only ever added, whatever the table of the machine is
(`Later.calls_grow`).
-/

namespace TreeCode

variable {σ ν : Type}

namespace Call

def created (calls : List (Call ν)) : List ν :=
  calls.filterMap fun
    | .create _ node => some node
    | .edit _ => none

def nodes : Call ν → List ν
  | .create _ _ => []
  | .edit e => e.nodes

def joined (calls : List (Call ν)) : List (ν × ν) :=
  calls.filterMap fun
    | .create _ _ => none
    | .edit e => e.joined?

def isAppend : Call ν → Bool
  | .edit (.appendChild _ _) => true
  | _ => false

def isInsertion : Call ν → Bool
  | .edit (.insertAfter _ _) => true
  | _ => false

def insertion (pair : ν × ν) : Call ν := .edit (.insertAfter pair.1 pair.2)

variable (calls more : List (Call ν)) (pairs : List (ν × ν))

@[simp] theorem created_append : created (calls ++ more) = created calls ++ created more :=
  List.filterMap_append

@[simp] theorem joined_append : joined (calls ++ more) = joined calls ++ joined more :=
  List.filterMap_append

theorem created_mono {calls more : List (Call ν)} (h : calls <+: more) :
    created calls <+: created more := h.filterMap _

@[simp] theorem created_create (request : Creation) (node : ν) :
    created [.create request node] = [node] := rfl

@[simp] theorem created_edit (e : Edit ν) : created [.edit e] = [] := rfl

@[simp] theorem joined_create (request : Creation) (node : ν) :
    joined [.create request node] = [] := rfl

theorem joined_edit (e : Edit ν) : joined [.edit e] = e.joined?.toList := by
  cases h : e.joined? <;> simp [joined, h]

@[simp] theorem created_insertions : created (pairs.map insertion) = [] := by
  induction pairs with
  | nil => rfl
  | cons pair rest ih => exact ih

@[simp] theorem joined_insertions : joined (pairs.map insertion) = pairs := by
  induction pairs with
  | nil => rfl
  | cons pair rest ih => exact congrArg (pair :: ·) ih

theorem length_joined :
    (joined calls).length = calls.countP isAppend + calls.countP isInsertion := by
  induction calls with
  | nil => rfl
  | cons call rest ih =>
    change (joined ([call] ++ rest)).length = _
    rw [joined_append, List.length_append, ih, List.countP_cons, List.countP_cons]
    rcases call with _ | e
    · simp [isAppend, isInsertion]
    · rw [joined_edit]
      cases e <;> simp [Edit.joined?, isAppend, isInsertion] <;> omega

end Call

/-- Each call names no nodes but those that earlier calls created. -/
def NamesCreated (calls : List (Call ν)) : Prop :=
  ∀ (i : Nat) (call : Call ν), calls[i]? = some call →
    ∀ node ∈ call.nodes, node ∈ Call.created (calls.take i)

theorem NamesCreated.append {calls more : List (Call ν)} (h : NamesCreated calls)
    (hmore : ∀ call ∈ more, ∀ node ∈ call.nodes, node ∈ Call.created calls) :
    NamesCreated (calls ++ more) := by
  intro i call hcall node hnode
  rcases Nat.lt_or_ge i calls.length with hi | hi
  · rw [List.getElem?_append_left hi] at hcall
    rw [List.take_append_of_le_length (Nat.le_of_lt hi)]
    exact h i call hcall node hnode
  · rw [List.getElem?_append_right hi] at hcall
    rw [List.take_append, List.take_of_length_le hi, Call.created_append]
    exact List.mem_append_left _ (hmore call (List.mem_of_getElem? hcall) node hnode)

namespace Machine

/-! ## Calls are added -/

section Calls

variable {T : Type → Type}

theorem calls_prefix_alone {α : Type} (m : Machine ν T) (t : Traced σ ν) (step : StepOn T ν α) :
    t.calls <+: (m.alone t step).host.calls := by
  unfold alone
  cases step m <;> exact List.prefix_rfl

variable [Host σ ν]

@[simp] theorem calls_create (request : Creation) (t : Traced σ ν) :
    (Host.create request t).2.calls = t.calls ++ [.create request (Host.create request t).1] := rfl

@[simp] theorem calls_edit (e : Edit ν) (t : Traced σ ν) :
    (Host.edit e t).calls = t.calls ++ [.edit e] := rfl

theorem calls_flush (pairs : List (ν × ν)) (t : Traced σ ν) :
    (pairs.foldl (fun host pair => Host.edit (.insertAfter pair.1 pair.2) host) t).calls =
      t.calls ++ pairs.map Call.insertion := by
  induction pairs generalizing t with
  | nil => simp
  | cons pair rest ih =>
    rw [List.foldl_cons, ih]
    exact List.append_assoc ..

theorem host_flush (pairs : List (ν × ν)) (t : Traced σ ν) :
    (pairs.foldl (fun host pair => Host.edit (.insertAfter pair.1 pair.2) host) t).host =
      pairs.foldl (fun host pair => Host.edit (.insertAfter pair.1 pair.2) host) t.host := by
  induction pairs generalizing t with
  | nil => rfl
  | cons pair rest ih => exact ih _

variable [NodeTable T]

theorem calls_prefix_execute (i : Instruction String) (m : Machine ν T) (t : Traced σ ν) :
    t.calls <+: (execute i m t).host.calls := by
  unfold execute
  cases prepare i m with
  | error e k => exact List.prefix_rfl
  | ok demand k =>
    cases demand with
    | create request => exact List.prefix_append _ _
    | edit e => exact List.prefix_append _ _
    | defer sibling child => exact List.prefix_rfl

theorem calls_prefix_runOn (bytes : List UInt8) (m : Machine ν T) (t : Traced σ ν) :
    t.calls <+: (runOn bytes m t).host.calls :=
  runOn_preserves (P := fun (_ : Machine ν T) (t' : Traced σ ν) => t.calls <+: t'.calls)
    (fun _ _ _ _ h => h) (fun i m t' h => h.trans (calls_prefix_execute i m t')) bytes m t
    List.prefix_rfl

theorem calls_prefix_of_complete {bytes : List UInt8} {raw : Instruction (List UInt8)}
    {width : Nat} (h : Instruction.read bytes = .complete raw width) (m : Machine ν T)
    (t : Traced σ ν) :
    (execute raw.ofBytes (m.advance width) t).host.calls <+: (runOn bytes m t).host.calls := by
  rw [runOn_of_complete h]
  cases hresult : (execute raw.ofBytes (m.advance width) t).result with
  | error e => simp only [hresult, List.prefix_rfl]
  | ok _ =>
    simp only [hresult]
    exact calls_prefix_runOn _ _ _

theorem calls_prefix_perform (m : Machine ν T) (t : Traced σ ν) (request : Request) :
    t.calls <+: (m.perform t request).host.calls := by
  cases request with
  | feed bytes => exact List.prefix_rfl
  | push value => exact calls_prefix_alone m t (push value)
  | pop => exact calls_prefix_alone m t pop
  | pushText text => exact calls_prefix_alone m t (pushText text)
  | run => exact calls_prefix_runOn m.remaining m t
  | flush =>
    change t.calls <+: (m.deferred.foldl _ t).calls
    rw [calls_flush]
    exact List.prefix_append _ _

theorem Next.calls_grow {before after : Machine ν T × Traced σ ν} (h : Next before after) :
    before.2.calls <+: after.2.calls := by
  cases h with
  | request m t request => exact calls_prefix_perform m t request
  | instruction t _ => exact calls_prefix_execute _ _ t

theorem Later.calls_grow {before after : Machine ν T × Traced σ ν} (h : Later before after) :
    before.2.calls <+: after.2.calls := by
  induction h with
  | refl => exact List.prefix_rfl
  | tail _ hnext ih => exact ih.trans hnext.calls_grow

end Calls

/-! ## Nodes are conserved -/

/-- What holds of the calls made when the machine has these live nodes and insertions put off. -/
structure Conserved (m : Machine ν) (calls : List (Call ν)) : Prop where
  created : m.table.created = (Call.created calls).length
  nodes : (Call.created calls).Perm
    (m.table.nodes ++ (Call.joined calls ++ m.deferred).map (·.2))
  targets : ∀ pair ∈ m.deferred, pair.1 ∈ Call.created calls
  named : NamesCreated calls
  apart : ∀ pair ∈ Call.joined calls ++ m.deferred, pair.1 ≠ pair.2

variable {m m' : Machine ν} {calls : List (Call ν)} {pair : ν × ν}

theorem conserved_start (program : List UInt8) (defersSiblings : Bool) (settings : Settings)
    (registry : RegistryId) :
    Conserved (start program defersSiblings settings registry : Machine ν) [] where
  created := rfl
  nodes := .refl _
  targets _ h := by cases h
  named _ _ h := by cases h
  apart _ h := by cases h

namespace Conserved

theorem mem_created (h : Conserved m calls) {node : ν} (hn : node ∈ m.table.nodes) :
    node ∈ Call.created calls :=
  h.nodes.mem_iff.mpr (List.mem_append_left _ hn)

theorem mem_created_of_deferred (h : Conserved m calls) (hp : pair ∈ m.deferred) :
    pair.2 ∈ Call.created calls :=
  h.nodes.mem_iff.mpr (List.mem_append_right _
    (List.mem_map_of_mem (List.mem_append_right _ hp)))

theorem not_mem_nodes (h : Conserved m calls) (hnodup : (Call.created calls).Nodup) {node : ν}
    (hn : node ∈ (Call.joined calls ++ m.deferred).map (·.2)) : node ∉ m.table.nodes :=
  fun hlive => (List.nodup_append'.mp (h.nodes.nodup_iff.mp hnodup)).2.2 hlive hn

theorem nodup_nodes (h : Conserved m calls) (hnodup : (Call.created calls).Nodup) :
    m.table.nodes.Nodup := (List.nodup_append.mp (h.nodes.nodup_iff.mp hnodup)).1

theorem nodup_children (h : Conserved m calls) (hnodup : (Call.created calls).Nodup) :
    ((Call.joined calls ++ m.deferred).map (·.2)).Nodup :=
  (List.nodup_append.mp (h.nodes.nodup_iff.mp hnodup)).2.1

theorem idle (h : Conserved m calls) (htable : m'.table = m.table)
    (hdeferred : m'.deferred = m.deferred) : Conserved m' calls where
  created := htable ▸ h.created
  nodes := by rw [htable, hdeferred]; exact h.nodes
  targets := by rw [hdeferred]; exact h.targets
  named := h.named
  apart := by rw [hdeferred]; exact h.apart

theorem create (h : Conserved m calls) {request : Creation} {node : ν}
    (htable : m'.table = (m.table.insert node).2) (hdeferred : m'.deferred = m.deferred) :
    Conserved m' (calls ++ [.create request node]) where
  created := by simp [htable, h.created]
  nodes := by
    simp only [htable, hdeferred, SlotTable.nodes_insert, Call.created_append, Call.created_create,
      Call.joined_append, Call.joined_create, List.append_nil, List.cons_append]
    exact (List.perm_append_singleton node _).trans (h.nodes.cons node)
  targets pair hp := by
    rw [Call.created_append]
    exact List.mem_append_left _ (h.targets pair (hdeferred ▸ hp))
  named := h.named.append fun call hcall node hnode => by
    rw [List.mem_singleton.mp hcall] at hnode
    cases hnode
  apart := by simpa [hdeferred] using h.apart

theorem edit (h : Conserved m calls) {e : Edit ν} (he : e.joined? = none)
    (hnodes : ∀ node ∈ e.nodes, node ∈ m.table.nodes) (htable : m'.table = m.table)
    (hdeferred : m'.deferred = m.deferred) : Conserved m' (calls ++ [.edit e]) where
  created := by simp [htable, h.created]
  nodes := by simpa [htable, hdeferred, Call.joined_edit, he] using h.nodes
  targets pair hp := by simpa using h.targets pair (hdeferred ▸ hp)
  named := h.named.append fun call hcall node hnode => by
    rw [List.mem_singleton.mp hcall] at hnode
    exact h.mem_created (hnodes node hnode)
  apart := by simpa [hdeferred, Call.joined_edit, he] using h.apart

theorem consumed_ne (h : Conserved m calls) (hnodup : (Call.created calls).Nodup)
    {t : SlotTable ν} (hc : m.table.consume? = some (pair, t)) : pair.1 ≠ pair.2 := by
  obtain ⟨⟨rest, hbefore, -⟩, -⟩ := SlotTable.nodes_of_consume? hc
  have hlive := h.nodup_nodes hnodup
  rw [hbefore] at hlive
  intro he
  exact (List.nodup_cons.mp hlive).1 (by rw [he]; exact List.mem_cons_self)

theorem join (h : Conserved m calls) (hnodup : (Call.created calls).Nodup) {e : Edit ν}
    (he : e.joined? = some pair) (hc : m.table.consume? = some (pair, m'.table))
    (hdeferred : m'.deferred = m.deferred) : Conserved m' (calls ++ [.edit e]) := by
  obtain ⟨⟨rest, hbefore, hafter⟩, hcreated⟩ := SlotTable.nodes_of_consume? hc
  have hne := h.consumed_ne hnodup hc
  refine ⟨?_, ?_, ?_, ?_, ?_⟩
  · simp [hcreated, h.created]
  · have hmoved : (Call.created calls).Perm
        (pair.2 :: ((pair.1 :: rest) ++ (Call.joined calls ++ m.deferred).map (·.2))) := by
      simpa [hbefore] using h.nodes
    simp only [Call.created_append, Call.created_edit, Call.joined_append, Call.joined_edit, he,
      hafter, hdeferred, List.append_nil, List.map_append]
    let front := (pair.1 :: rest) ++ (Call.joined calls).map (·.2)
    have hmiddle : (pair.2 :: (front ++ m.deferred.map (·.2))).Perm
        (front ++ pair.2 :: m.deferred.map (·.2)) := List.perm_middle.symm
    exact hmoved.trans (by simpa [front] using hmiddle)
  · intro p hp
    simpa using h.targets p (hdeferred ▸ hp)
  · refine h.named.append fun call hcall node hnode => ?_
    rw [List.mem_singleton.mp hcall] at hnode
    change node ∈ e.nodes at hnode
    rw [Edit.nodes_of_joined? he] at hnode
    refine h.mem_created ?_
    rw [hbefore]
    simp at hnode ⊢
    tauto
  · simp only [Call.joined_append, Call.joined_edit, he, hdeferred]
    intro p hp
    simp at hp
    rcases hp with hp | rfl | hp
    · exact h.apart p (List.mem_append_left _ hp)
    · exact hne
    · exact h.apart p (List.mem_append_right _ hp)

theorem putOff (h : Conserved m calls) (hnodup : (Call.created calls).Nodup)
    (hc : m.table.consume? = some (pair, m'.table))
    (hdeferred : m'.deferred = m.deferred ++ [pair]) :
    Conserved m' calls := by
  obtain ⟨⟨rest, hbefore, hafter⟩, hcreated⟩ := SlotTable.nodes_of_consume? hc
  have hne := h.consumed_ne hnodup hc
  refine ⟨?_, ?_, ?_, h.named, ?_⟩
  · rw [hcreated, h.created]
  · have hmoved : (Call.created calls).Perm
        (pair.2 :: ((pair.1 :: rest) ++ (Call.joined calls ++ m.deferred).map (·.2))) := by
      simpa [hbefore] using h.nodes
    simp only [hafter, hdeferred]
    refine hmoved.trans ?_
    simpa using (List.perm_append_singleton pair.2
      ((pair.1 :: rest) ++ (Call.joined calls ++ m.deferred).map (·.2))).symm
  · intro p hp
    rw [hdeferred] at hp
    rcases List.mem_append.mp hp with hp | hp
    · exact h.targets p hp
    · obtain rfl := List.mem_singleton.mp hp
      exact h.mem_created (by rw [hbefore]; simp)
  · intro p hp
    rw [hdeferred, ← List.append_assoc] at hp
    rcases List.mem_append.mp hp with hp | hp
    · exact h.apart p hp
    · rwa [List.mem_singleton.mp hp]

theorem flush (h : Conserved m calls) (htable : m'.table = m.table) (hdeferred : m'.deferred = []) :
    Conserved m' (calls ++ m.deferred.map Call.insertion) where
  created := by simp [htable, h.created]
  nodes := by simpa [htable, hdeferred] using h.nodes
  targets p hp := by rw [hdeferred] at hp; cases hp
  named := h.named.append fun call hcall node hnode => by
    obtain ⟨p, hp, rfl⟩ := List.mem_map.mp hcall
    rcases List.mem_pair.mp hnode with rfl | rfl
    · exact h.targets p hp
    · exact h.mem_created_of_deferred hp
  apart := by simpa [hdeferred] using h.apart

end Conserved

variable [Host σ ν] {t t' : Traced σ ν}

theorem Deed.untraced (h : Deed m m' t t') : Deed m m' t.host t'.host := by
  cases h with
  | idle htable hdeferred => exact .idle htable hdeferred
  | create request htable hdeferred => exact .create request htable hdeferred
  | edit he hnodes htable hdeferred => exact .edit he hnodes htable hdeferred
  | join he hc hdeferred => exact .join he hc hdeferred
  | putOff hc hdeferred => exact .putOff hc hdeferred
  | flush htable hdeferred =>
    rw [host_flush]
    exact .flush htable hdeferred

theorem Deed.calls_grow (h : Deed m m' t t') : t.calls <+: t'.calls := by
  cases h with
  | idle => exact List.prefix_rfl
  | create request => exact List.prefix_append _ _
  | edit => exact List.prefix_append _ _
  | join => exact List.prefix_append _ _
  | putOff => exact List.prefix_rfl
  | flush =>
    rw [calls_flush]
    exact List.prefix_append _ _

theorem Deed.nodup_created (h : Deed m m' t t') (hnodup : (Call.created t'.calls).Nodup) :
    (Call.created t.calls).Nodup :=
  hnodup.sublist (Call.created_mono h.calls_grow).sublist

/-- Nodes are conserved as long as the host gives each its own handle. -/
theorem Deed.conserved (h : Deed m m' t t') (hnodup : (Call.created t'.calls).Nodup)
    (hc : Conserved m t.calls) : Conserved m' t'.calls := by
  have hbefore := h.nodup_created hnodup
  cases h with
  | idle htable hdeferred => exact hc.idle htable hdeferred
  | create request htable hdeferred => exact hc.create htable hdeferred
  | edit he hnodes htable hdeferred => exact hc.edit he hnodes htable hdeferred
  | join he hconsume hdeferred => exact hc.join hbefore he hconsume hdeferred
  | putOff hconsume hdeferred => exact hc.putOff hbefore hconsume hdeferred
  | flush htable hdeferred =>
    rw [calls_flush]
    exact hc.flush htable hdeferred

/-- Nodes are conserved at every moment of a machine's life. -/
theorem conserved_of_later {host : σ} {program : List UInt8} {defersSiblings : Bool}
    {settings : Settings} {registry : RegistryId}
    (h : Later (start program defersSiblings settings registry, (⟨host, []⟩ : Traced σ ν)) (m, t))
    (hnodup : (Call.created t.calls).Nodup) : Conserved m t.calls :=
  later_keeps (P := fun m t => (Call.created t.calls).Nodup → Conserved m t.calls)
    (fun _ _ _ _ hdeed hc hn => hdeed.conserved hn (hc (hdeed.nodup_created hn))) h
    (fun _ => conserved_start ..) hnodup

/-! ## Nodes that are live no more -/

variable [DecidableEq ν]

def naming (node : ν) (calls : List (Call ν)) : List (Call ν) := calls.filter (node ∈ ·.nodes)

/-- Since the moment when the calls were `before` and the insertions `pairs` were put off, a node
that was created and not live has not been live, and of the insertions that name it none was lost,
made twice or overtaken by another, and no other call names it. -/
def Since (before : List (Call ν)) (pairs : List (ν × ν)) (node : ν) (m : Machine ν)
    (calls : List (Call ν)) : Prop :=
  node ∉ m.table.nodes ∧ ∃ more, calls = before ++ more ∧
    naming node (more ++ m.deferred.map Call.insertion) = naming node (pairs.map Call.insertion)

theorem naming_append (node : ν) (calls more : List (Call ν)) :
    naming node (calls ++ more) = naming node calls ++ naming node more := List.filter_append ..

theorem naming_of_not_mem {node : ν} {call : Call ν} (h : node ∉ call.nodes) :
    naming node [call] = [] := by
  simp [naming, h]

variable {node : ν} {before : List (Call ν)} {pairs : List (ν × ν)}

/-- A node that is not live stays so, and no deed but a flush names it. -/
theorem Deed.since (h : Deed m m' t t') (hcreated : node ∈ Call.created before)
    (hnodup : (Call.created t'.calls).Nodup) (hs : Since before pairs node m t.calls) :
    Since before pairs node m' t'.calls := by
  obtain ⟨hdead, more, hmore, hnaming⟩ := hs
  -- One more call, that does not name the node, before the insertions put off.
  have hcall {call : Call ν} (hn : node ∉ call.nodes) (hdeferred : m'.deferred = m.deferred) :
      ∃ more, t.calls ++ [call] = before ++ more ∧
        naming node (more ++ m'.deferred.map Call.insertion) =
          naming node (pairs.map Call.insertion) := by
    refine ⟨more ++ [call], by rw [hmore, List.append_assoc], ?_⟩
    rw [hdeferred, naming_append, naming_append, naming_of_not_mem hn, List.append_nil,
      ← naming_append, hnaming]
  cases h with
  | idle htable hdeferred => exact ⟨htable ▸ hdead, more, hmore, hdeferred ▸ hnaming⟩
  | create request htable hdeferred =>
    refine ⟨?_, hcall (List.not_mem_nil) hdeferred⟩
    rw [htable, SlotTable.nodes_insert, List.mem_cons]
    rintro (hnew | hlive)
    · have hnodup' : (Call.created before ++ (Call.created more ++ [node])).Nodup := by
        rwa [calls_create, ← hnew, hmore, List.append_assoc, Call.created_append,
          Call.created_append] at hnodup
      exact (List.nodup_append'.mp hnodup').2.2 hcreated (by simp)
    · exact hdead hlive
  | edit he hnodes htable hdeferred =>
    exact ⟨htable ▸ hdead, hcall (fun hn => hdead (hnodes node hn)) hdeferred⟩
  | join he hconsume hdeferred =>
    obtain ⟨⟨rest, hbefore, hafter⟩, -⟩ := SlotTable.nodes_of_consume? hconsume
    rw [hbefore] at hdead
    refine ⟨fun hlive => hdead (List.mem_cons_of_mem _ (hafter ▸ hlive)),
      hcall (fun hn => ?_) hdeferred⟩
    change node ∈ Edit.nodes _ at hn
    rw [Edit.nodes_of_joined? he] at hn
    simp at hn hdead
    tauto
  | putOff hconsume hdeferred =>
    rename_i pair
    obtain ⟨⟨rest, hbefore, hafter⟩, -⟩ := SlotTable.nodes_of_consume? hconsume
    rw [hbefore] at hdead
    refine ⟨fun hlive => hdead (List.mem_cons_of_mem _ (hafter ▸ hlive)), more, hmore, ?_⟩
    have hn : node ∉ (Call.insertion pair).nodes := by
      change node ∉ [pair.1, pair.2]
      simp at hdead ⊢
      tauto
    rw [hdeferred, List.map_append, ← List.append_assoc, naming_append, hnaming, List.map_singleton,
      naming_of_not_mem hn, List.append_nil]
  | flush htable hdeferred =>
    refine ⟨htable ▸ hdead, more ++ m.deferred.map Call.insertion, ?_, ?_⟩
    · rw [calls_flush, hmore, List.append_assoc]
    · rw [hdeferred]
      simpa using hnaming

theorem since_of_later {pairs : List (ν × ν)} (h : Later (m, t) (m', t'))
    (hcreated : node ∈ Call.created before) (hnodup : (Call.created t'.calls).Nodup)
    (hs : Since before pairs node m t.calls) : Since before pairs node m' t'.calls :=
  later_keeps (P := fun m t => (Call.created t.calls).Nodup → Since before pairs node m t.calls)
    (fun _ _ _ _ hdeed hs hn => hdeed.since hcreated hn (hs (hdeed.nodup_created hn))) h
    (fun _ => hs) hnodup

end Machine

end TreeCode
