import TreeCode.Proofs.Markup.Tags

/-!
# What markup can be told from its written form

The written form does not show where one text ends and the next begins, nor that a text is empty.
`mergedAll` leaves out just that: it joins texts side by side and drops the empty ones. What is left
can be told from the written form (`htmlAll_eq_iff`), for it is a text and then either the end, that
is a closing tag or nothing, or an opening tag and what is between it and its closing tag.
-/

namespace TreeCode.Markup

open Text

variable {ms ms' : List Markup} {back back' : List Char}

/-! ## Merging texts -/

/-- Puts a text before markup. It joins a text that comes first, and an empty one is dropped. -/
def putText (content : String) : List Markup → List Markup
  | text next :: rest => text (content ++ next) :: rest
  | rest => if content = "" then rest else text content :: rest

/-- Markup with the texts side by side joined and the empty ones dropped, at every depth. -/
def mergedAll : List Markup → List Markup
  | [] => []
  | text content :: rest => putText content (mergedAll rest)
  | element tag attributes style children :: rest =>
    element tag attributes style (mergedAll children) :: mergedAll rest

inductive AllPlain : List Markup → Prop where
  | nil : AllPlain []
  | text {rest : List Markup} (content : String) : AllPlain rest → AllPlain (text content :: rest)
  | element {tag : String} {attributes style : Pairs} {children rest : List Markup} :
      Plain tag attributes style → AllPlain children → AllPlain rest →
      AllPlain (element tag attributes style children :: rest)

/-- What merging leaves: a text, which may be missing, and then the end, or an element and what
follows it. -/
inductive Merged : List Markup → Prop where
  | last (content : String) : Merged (putText content [])
  | element {tag : String} {attributes style : Pairs} {children rest : List Markup}
      (content : String) : Plain tag attributes style → Merged children → Merged rest →
      Merged (putText content (element tag attributes style children :: rest))

theorem putText_empty (ms : List Markup) : putText "" ms = ms := by
  unfold putText
  split
  · rw [String.empty_append]
  · rw [if_pos rfl]

theorem putText_append (content content' : String) (ms : List Markup) :
    putText (content ++ content') ms = putText content (putText content' ms) := by
  by_cases h : content' = ""
  · rw [h, String.append_empty, putText_empty]
  · cases ms with
    | nil => simp [putText, h]
    | cons m rest => cases m <;> simp [putText, h, String.append_assoc]

theorem AllPlain.merged (h : AllPlain ms) : Merged (mergedAll ms) := by
  induction h with
  | nil =>
    unfold mergedAll
    exact .last ""
  | @text rest content _ ih =>
    unfold mergedAll
    generalize mergedAll rest = merged at ih
    cases ih with
    | last content' =>
      rw [← putText_append]
      exact .last _
    | element content' hplain hchildren hrest =>
      rw [← putText_append]
      exact .element _ hplain hchildren hrest
  | element hplain _ _ hchildren hrest =>
    unfold mergedAll
    exact .element "" hplain hchildren hrest

/-! ## The written form of merged markup -/

theorem escape_append (s s' : String) : escape (s ++ s') = escape s ++ escape s' :=
  String.toList_injective (by simp)

theorem htmlAll_putText (content : String) (ms : List Markup) :
    htmlAll (putText content ms) = escape content ++ htmlAll ms := by
  unfold putText
  split
  · simp only [htmlAll, html, escape_append, String.append_assoc]
  · split
    · rename_i h
      subst h
      exact String.empty_append.symm
    · rfl

theorem htmlAll_mergedAll (ms : List Markup) : htmlAll (mergedAll ms) = htmlAll ms := by
  fun_induction mergedAll ms with
  | case1 => rfl
  | case2 content rest ih => rw [htmlAll_putText, ih, htmlAll, html]
  | case3 tag attributes style children rest hchildren hrest =>
    simp only [htmlAll, html, hchildren, hrest]

/-! ## Reading back -/

/-- Markup ends here: with the text, or at a closing tag. -/
def Closes (back : List Char) : Prop := back = [] ∨ ∃ rest, back = '<' :: '/' :: rest

variable {tag tag' : String} {attributes attributes' style style' : Pairs}
  {children children' rest rest' : List Markup}

theorem Closes.head (h : Closes back) :
    ∀ c ∈ ((htmlAll []).toList ++ back).head?, c = '<' ∨ c = '\"' := by
  rcases h with rfl | ⟨rest, rfl⟩ <;> simp [htmlAll]

theorem Plain.openTag_append_ne (h : Plain tag attributes style) (hback : Closes back)
    (rest : List Char) : (openTag tag attributes style).toList ++ rest ≠ back := by
  rintro rfl
  obtain ⟨hne, hword⟩ := h.tag
  have hletters : tag.toList ≠ [] := fun he => hne (String.toList_eq_nil_iff.mp he)
  obtain ⟨c, letters, hc⟩ := List.exists_cons_of_ne_nil hletters
  have hslash : c ≠ '/' := by
    rintro rfl
    exact absurd (hword '/' (hc ▸ List.mem_cons_self)) (by decide)
  rcases hback with hback | ⟨rest', hback⟩
  · simp [toList_openTag] at hback
  · simp [toList_openTag, hc, hslash] at hback

theorem toList_htmlAll_element (tag : String) (attributes style : Pairs)
    (children rest : List Markup) :
    (htmlAll (element tag attributes style children :: rest)).toList =
      (openTag tag attributes style).toList ++ ((htmlAll children).toList ++
        '<' :: '/' :: (tag.toList ++ '>' :: (htmlAll rest).toList)) := by
  simp [htmlAll, html]

theorem head_htmlAll_element (tag : String) (attributes style : Pairs)
    (children rest : List Markup) (back : List Char) :
    ∀ c ∈ ((htmlAll (element tag attributes style children :: rest)).toList ++ back).head?,
      c = '<' ∨ c = '\"' := by
  simp [toList_htmlAll_element, toList_openTag]

theorem htmlAll_putText_append_inj {content content' : String}
    (hhead : ∀ c ∈ ((htmlAll ms).toList ++ back).head?, c = '<' ∨ c = '\"')
    (hhead' : ∀ c ∈ ((htmlAll ms').toList ++ back').head?, c = '<' ∨ c = '\"')
    (heq : (htmlAll (putText content ms)).toList ++ back =
      (htmlAll (putText content' ms')).toList ++ back') :
    content = content' ∧ (htmlAll ms).toList ++ back = (htmlAll ms').toList ++ back' := by
  simp only [htmlAll_putText, String.toList_append, List.append_assoc] at heq
  exact escape_append_inj hhead hhead' heq

/-- **Merged markup is told from its written form**, up to where it is closed. -/
theorem Merged.htmlAll_append_inj (h : Merged ms) (h' : Merged ms') (hback : Closes back)
    (hback' : Closes back') (heq : (htmlAll ms).toList ++ back = (htmlAll ms').toList ++ back') :
    ms = ms' ∧ back = back' := by
  induction h generalizing ms' back back' with
  | last content =>
    cases h' with
    | last content' =>
      obtain ⟨rfl, hrest⟩ := htmlAll_putText_append_inj hback.head hback'.head heq
      exact ⟨rfl, hrest⟩
    | element content' hplain' _ _ =>
      obtain ⟨-, hrest⟩ :=
        htmlAll_putText_append_inj hback.head (head_htmlAll_element _ _ _ _ _ _) heq
      rw [toList_htmlAll_element, List.append_assoc] at hrest
      exact absurd hrest.symm (hplain'.openTag_append_ne hback _)
  | element content hplain _ _ ihchildren ihrest =>
    cases h' with
    | last content' =>
      obtain ⟨-, hrest⟩ :=
        htmlAll_putText_append_inj (head_htmlAll_element _ _ _ _ _ _) hback'.head heq
      rw [toList_htmlAll_element, List.append_assoc] at hrest
      exact absurd hrest (hplain.openTag_append_ne hback' _)
    | element content' hplain' hchildren' hrest' =>
      obtain ⟨rfl, htag⟩ := htmlAll_putText_append_inj (head_htmlAll_element _ _ _ _ _ _)
        (head_htmlAll_element _ _ _ _ _ _) heq
      simp only [toList_htmlAll_element, List.append_assoc, List.cons_append] at htag
      obtain ⟨rfl, rfl, rfl, hinside⟩ := hplain.openTag_append_inj hplain' htag
      -- What is between the tags is closed by the same tag, and goes on behind it.
      obtain ⟨rfl, hclosed⟩ := ihchildren hchildren' (.inr ⟨_, rfl⟩) (.inr ⟨_, rfl⟩) hinside
      simp only [List.cons.injEq, true_and, List.append_cancel_left_eq] at hclosed
      obtain ⟨rfl, hend⟩ := ihrest hrest' hback hback' hclosed
      exact ⟨rfl, hend⟩

/-- **The written form tells markup apart** but for where one text ends and the next begins. -/
theorem htmlAll_eq_iff (h : AllPlain ms) (h' : AllPlain ms') :
    htmlAll ms = htmlAll ms' ↔ mergedAll ms = mergedAll ms' := by
  constructor
  · intro heq
    rw [← htmlAll_mergedAll ms, ← htmlAll_mergedAll ms'] at heq
    exact (h.merged.htmlAll_append_inj h'.merged (.inl rfl) (.inl rfl) (by rw [heq])).1
  · intro heq
    rw [← htmlAll_mergedAll ms, heq, htmlAll_mergedAll]

end TreeCode.Markup
