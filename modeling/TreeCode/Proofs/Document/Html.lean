import TreeCode.Proofs.Document.Forest
import TreeCode.Proofs.Document.Inside
import TreeCode.Proofs.Markup.Merged

/-!
# What a document shows can be told from its HTML

`Shows` reads off the links of a document what nodes show, with all below them. Where no element on
the way down is below itself, a node shows one thing, and its HTML is written from that
(`Legible.exists_shows_iff`): the elements on a way down are all different, so there are no more of
them than the document has nodes, and the HTML comes to an end (`Legible.isSome_markupWithin`). The
HTML of two nodes is then the same just where they show the same, but for where one text ends and
the next begins (`html_unambiguous`).
-/

namespace TreeCode

/-- Elements whose tags can be told from others. -/
def Content.Plain : Content → Prop
  | .element tag attributes style => Markup.Plain tag attributes style
  | .text _ => True

instance (content : Content) : Decidable content.Plain :=
  match content with
  | .element tag attributes style => inferInstanceAs (Decidable (Markup.Plain tag attributes style))
  | .text _ => inferInstanceAs (Decidable True)

namespace Document

open Relation

variable {d d' : Document} {root root' id : NodeId} {ids : List NodeId} {m : Markup}
  {ms ms' : List Markup}

theorem Reachable.bounded (h : d.Reachable) (id : NodeId) : (d.node id).Bounded d.size := by
  -- Its nodes are there, under names, in some document: in what the same calls leave of any.
  have hinside : ∃ names d', Inside names d d' := by
    induction h with
    | empty defersSiblings => exact ⟨[], {}, inside_nil defersSiblings {}⟩
    | create request _ ih =>
      obtain ⟨names, d', hd⟩ := ih
      exact ⟨_, _, (hd.create (contentOf request)).inside⟩
    | edit request _ hr ih =>
      obtain ⟨names, d', hd⟩ := ih
      obtain ⟨names', hlater⟩ := hd.edit hr
      exact ⟨_, _, hlater.inside⟩
  obtain ⟨names, d', hd⟩ := hinside
  exact hd.bounded id

/-! ## What nodes show -/

/-- What nodes show, one after the other: a text shows itself, and an element what its children show
between its tags. The children of a text are not shown. -/
inductive Shows (d : Document) : List NodeId → List Markup → Prop where
  | nil : Shows d [] []
  | text {id : NodeId} {content : String} {ids : List NodeId} {ms : List Markup} :
      (d.node id).content = .text content → Shows d ids ms →
      Shows d (id :: ids) (.text content :: ms)
  | element {id : NodeId} {tag : String} {attributes style : Pairs} {ids : List NodeId}
      {children ms : List Markup} : (d.node id).content = .element tag attributes style →
      Shows d (d.node id).children children → Shows d ids ms →
      Shows d (id :: ids) (.element tag attributes style children :: ms)

theorem Shows.unique (h : d.Shows ids ms) (h' : d.Shows ids ms') : ms = ms' := by
  induction h generalizing ms' with
  | nil =>
    cases h'
    rfl
  | text hcontent _ ih =>
    cases h' with
    | text hcontent' hrest' =>
      cases hcontent.symm.trans hcontent'
      rw [ih hrest']
    | element hcontent' _ _ => cases hcontent.symm.trans hcontent'
  | element hcontent _ _ ihchildren ihrest =>
    cases h' with
    | text hcontent' _ => cases hcontent.symm.trans hcontent'
    | element hcontent' hchildren' hrest' =>
      cases hcontent.symm.trans hcontent'
      rw [ihchildren hchildren', ihrest hrest']

theorem Shows.cons (h : d.Shows [id] [m]) (hrest : d.Shows ids ms) :
    d.Shows (id :: ids) (m :: ms) := by
  cases h with
  | text hcontent _ => exact .text hcontent hrest
  | element hcontent hchildren _ => exact .element hcontent hchildren hrest

theorem shows_of_mapM {read : NodeId → Option Markup}
    (hread : ∀ id m, read id = some m → d.Shows [id] [m]) (h : ids.mapM read = some ms) :
    d.Shows ids ms := by
  induction ids generalizing ms with
  | nil =>
    cases h
    exact .nil
  | cons id ids ih =>
    rw [List.mapM_cons] at h
    obtain ⟨m, hm, h⟩ := Option.bind_eq_some_iff.mp h
    obtain ⟨rest, hrest, h⟩ := Option.bind_eq_some_iff.mp h
    cases h
    exact (hread id m hm).cons (ih hrest)

theorem shows_of_markupWithin {depth : Nat} (h : d.markupWithin depth id = some m) :
    d.Shows [id] [m] := by
  induction depth generalizing id m with
  | zero => cases h
  | succ depth ih =>
    unfold markupWithin at h
    split at h
    · rename_i hcontent
      cases h
      exact .text hcontent .nil
    · rename_i hcontent
      obtain ⟨children, hchildren, rfl⟩ := Option.map_eq_some_iff.mp h
      exact .element hcontent (shows_of_mapM (fun _ _ => ih) hchildren) .nil

/-! ## Below a node -/

/-- One node is an element and the other a child of it. -/
def Nests (d : Document) (p c : NodeId) : Prop :=
  (d.node p).content.tag?.isSome ∧ c ∈ (d.node p).children

/-- A node below which no element is below itself, and all tags can be told from one another. -/
structure Legible (d : Document) (root : NodeId) : Prop where
  reachable : d.Reachable
  lt_size : root < d.size
  acyclic : ∀ id, ReflTransGen d.Nests root id → ¬ TransGen d.Nests id id
  plain : ∀ id, ReflTransGen d.Nests root id → (d.node id).content.Plain

theorem Shows.allPlain (h : d.Shows ids ms)
    (hplain : ∀ root ∈ ids, ∀ id, ReflTransGen d.Nests root id → (d.node id).content.Plain) :
    Markup.AllPlain ms := by
  induction h with
  | nil => exact .nil
  | text hcontent _ ih =>
    obtain ⟨-, hrest⟩ := List.forall_mem_cons.mp hplain
    exact .text _ (ih hrest)
  | @element id _ _ _ _ _ _ hcontent _ _ ihchildren ihrest =>
    obtain ⟨hbelow, hrest⟩ := List.forall_mem_cons.mp hplain
    have hself := hbelow id .refl
    rw [hcontent] at hself
    refine .element hself (ihchildren fun child hchild id' hpath => ?_) (ihrest hrest)
    exact hbelow id' (.head ⟨by rw [hcontent]; rfl, hchild⟩ hpath)

namespace Legible

/-- The elements on the way down to a node are all different, and different from it. -/
theorem nodup_cons (h : d.Legible root) {above : List NodeId} (hroot : ReflTransGen d.Nests root id)
    (hnodup : above.Nodup) (habove : ∀ p ∈ above, TransGen d.Nests p id) : (id :: above).Nodup :=
  hnodup.cons fun hmem => h.acyclic id hroot (habove id hmem)

/-- A node is read if the depth that is left makes up for the elements on the way down to it. -/
theorem isSome_markupWithin (h : d.Legible root) {depth : Nat} {above : List NodeId}
    (hroot : ReflTransGen d.Nests root id) (hnodup : above.Nodup)
    (habove : ∀ p ∈ above, TransGen d.Nests p id) (hlt : ∀ p ∈ id :: above, p < d.size)
    (hdepth : d.size ≤ above.length + depth) : (d.markupWithin depth id).isSome := by
  induction depth generalizing id above with
  | zero =>
    have hlength := length_le_of_nodup (h.nodup_cons hroot hnodup habove) hlt
    exact absurd hdepth (Nat.not_le_of_lt hlength)
  | succ depth ih =>
    unfold markupWithin
    split
    · rfl
    · rename_i hcontent
      rw [Option.isSome_map]
      refine isSome_mapM fun child hchild => ?_
      have hnests : d.Nests id child := ⟨by rw [hcontent]; rfl, hchild⟩
      have hpaths : ∀ p ∈ id :: above, TransGen d.Nests p child :=
        List.forall_mem_cons.mpr ⟨.single hnests, fun p hp => (habove p hp).tail hnests⟩
      have hbound : child < d.size := (h.reachable.bounded id).children child hchild
      refine ih (hroot.tail hnests) (h.nodup_cons hroot hnodup habove) hpaths
        (List.forall_mem_cons.mpr ⟨hbound, hlt⟩) ?_
      rw [List.length_cons]
      omega

theorem isSome_markup? (h : d.Legible root) : (d.markup? root).isSome :=
  h.isSome_markupWithin .refl .nil (List.forall_mem_nil _) (by simpa using h.lt_size)
    (Nat.le_of_eq (Nat.zero_add _).symm)

theorem exists_shows_iff (h : d.Legible root) :
    ∃ m, (∀ ms, d.Shows [root] ms ↔ ms = [m]) ∧ Markup.AllPlain [m] ∧
      d.html? root = some (Markup.htmlAll [m]) := by
  obtain ⟨m, hm⟩ := Option.isSome_iff_exists.mp h.isSome_markup?
  have hshows : d.Shows [root] [m] := shows_of_markupWithin hm
  refine ⟨m, fun ms => ⟨fun hms => hms.unique hshows, fun hms => hms ▸ hshows⟩, ?_, ?_⟩
  · exact hshows.allPlain (by simpa using h.plain)
  · rw [html?, hm]
    simp [Markup.htmlAll]

end Legible

theorem lt_of_transGen_nests {p c : NodeId}
    (hlater : ∀ p < d.size, ∀ c ∈ (d.node p).children, p < c) (hpath : TransGen d.Nests p c) :
    p < c := by
  have hnests {p c : NodeId} (h : d.Nests p c) : p < c :=
    hlater p (lt_size_of_mem_children h.2) c h.2
  induction hpath with
  | single hlast => exact hnests hlast
  | tail _ hlast ih => exact ih.trans (hnests hlast)

/-- Where elements were made before what is put in them, none is below itself. -/
theorem legible_of_lt_children (h : d.Reachable) (hroot : root < d.size)
    (hlater : ∀ p < d.size, ∀ c ∈ (d.node p).children, p < c)
    (hplain : ∀ id < d.size, (d.node id).content.Plain) : d.Legible root where
  reachable := h
  lt_size := hroot
  acyclic id _ hcycle := Nat.lt_irrefl id (lt_of_transGen_nests hlater hcycle)
  plain id _ := by
    rcases Nat.lt_or_ge id d.size with hid | hid
    · exact hplain id hid
    · rw [node_of_size_le hid]
      trivial

/-- **HTML is unambiguous.** Each of two nodes below which no element is below itself, and all tags
can be told from one another, shows one thing. Their HTML is the same just where what they show is
the same once texts side by side are joined and empty ones dropped. -/
theorem html_unambiguous (h : d.Legible root) (h' : d'.Legible root') :
    ∃ m m' html html', (∀ ms, d.Shows [root] ms ↔ ms = [m]) ∧
      (∀ ms, d'.Shows [root'] ms ↔ ms = [m']) ∧
      d.html? root = some html ∧ d'.html? root' = some html' ∧
      (html = html' ↔ Markup.mergedAll [m] = Markup.mergedAll [m']) := by
  obtain ⟨m, hshows, hplain, hhtml⟩ := h.exists_shows_iff
  obtain ⟨m', hshows', hplain', hhtml'⟩ := h'.exists_shows_iff
  exact ⟨m, m', _, _, hshows, hshows', hhtml, hhtml', Markup.htmlAll_eq_iff hplain hplain'⟩

/-- A paragraph of three texts, one of them empty, and the same with one text. Texts and values hold
what looks like markup. -/
theorem html_unambiguous_split_text :
    let shown : Document := Host.edit (.setStyle 0 "color" "\"red\" & <b>")
      (Host.edit (.setAttribute 0 "title" "\"><i style=\"&quot;") (Host.create (.element "p")
        ({} : Document)).2)
    let split : Document := Host.edit (.appendChild 0 3) (Host.edit (.appendChild 0 2)
      (Host.edit (.appendChild 0 1) (Host.create (.text "&lt;br></p>") (Host.create (.text "")
        (Host.create (.text "a<b ") shown).2).2).2))
    let whole : Document := Host.edit (.appendChild 0 1)
      (Host.create (.text "a<b &lt;br></p>") shown).2
    split.Legible 0 ∧ whole.Legible 0 ∧ split.html? 0 = whole.html? 0 ∧ split.html? 0 =
      some ("<p title=\"&quot;&gt;&lt;i style=&quot;&amp;quot;\" style=\"color: " ++
        "&quot;red&quot; &amp; &lt;b&gt;;\">a&lt;b &amp;lt;br&gt;&lt;/p&gt;</p>") := by
  intro shown split whole
  have hshown : shown.Reachable :=
    .edit _ (.edit _ (.create _ (.empty false)) (by decide)) (by decide)
  have hsplit : split.Legible 0 := legible_of_lt_children
    (.edit _ (.edit _ (.edit _ (.create _ (.create _ (.create _ hshown))) (by decide +kernel))
      (by decide +kernel)) (by decide +kernel)) (by decide +kernel) (by decide +kernel)
    (by decide +kernel)
  have hwhole : whole.Legible 0 := legible_of_lt_children
    (.edit _ (.create _ hshown) (by decide +kernel)) (by decide +kernel) (by decide +kernel)
    (by decide +kernel)
  obtain ⟨m, m', html, html', hm, hm', hhtml, hhtml', hiff⟩ := html_unambiguous hsplit hwhole
  let held : Content := .element "p" [("title", "\"><i style=\"&quot;")]
    [("color", "\"red\" & <b>")]
  have hsplitNodes : (split.node 0).content = held ∧ (split.node 0).children = [1, 2, 3] ∧
      (split.node 1).content = .text "a<b " ∧ (split.node 2).content = .text "" ∧
      (split.node 3).content = .text "&lt;br></p>" := by decide +kernel
  have hwholeNodes : (whole.node 0).content = held ∧ (whole.node 0).children = [1] ∧
      (whole.node 1).content = .text "a<b &lt;br></p>" := by decide +kernel
  obtain ⟨hp, hchildren, ha, hempty, hb⟩ := hsplitNodes
  obtain ⟨hp', hchildren', hab⟩ := hwholeNodes
  have htexts : split.Shows (split.node 0).children [.text "a<b ", .text "", .text "&lt;br></p>"] :=
    hchildren ▸ .text ha (.text hempty (.text hb .nil))
  have htext : whole.Shows (whole.node 0).children [.text "a<b &lt;br></p>"] :=
    hchildren' ▸ .text hab .nil
  have hmerged : Markup.mergedAll [m] = Markup.mergedAll [m'] := by
    rw [← (hm _).mp (.element hp htexts .nil), ← (hm' _).mp (.element hp' htext .nil)]
    simp [Markup.mergedAll, Markup.putText]
  refine ⟨hsplit, hwhole, ?_, by decide +kernel⟩
  rw [hhtml, hhtml', hiff.mpr hmerged]

end Document

end TreeCode
