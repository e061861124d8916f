import TreeCode.Document
import TreeCode.Proofs.Text.Delimited

/-!
# Tags can be read back

An escape starts with `&` and ends with the first `;` after it, and an escaped text holds no `<` and
no `"`. So no two texts are escaped alike, and an escaped text ends at the next tag or quote
(`escape_append_inj`). Where tags, keys and styles are such that one can tell where they end
(`Plain`), an opening tag can be told from any other and from what follows it
(`Plain.openTag_append_inj`).
-/

namespace TreeCode.Markup

open Text

variable {back back' : List Char}

/-! ## Escaped texts -/

/-- Takes one character off an escaped text. -/
def unescapeChar : List Char → Option (Char × List Char)
  | '&' :: 'a' :: 'm' :: 'p' :: ';' :: back => some ('&', back)
  | '&' :: 'l' :: 't' :: ';' :: back => some ('<', back)
  | '&' :: 'g' :: 't' :: ';' :: back => some ('>', back)
  | '&' :: 'q' :: 'u' :: 'o' :: 't' :: ';' :: back => some ('\"', back)
  | c :: back => some (c, back)
  | [] => none

theorem unescapeChar_escapeChar (c : Char) (back : List Char) :
    unescapeChar (escapeChar c ++ back) = some (c, back) := by
  unfold escapeChar
  split
  case h_1 | h_2 | h_3 | h_4 => rfl
  case h_5 =>
    rw [List.singleton_append]
    unfold unescapeChar
    split <;> simp_all

theorem prefixFree_escapeChar : PrefixFree escapeChar := .of_read unescapeChar_escapeChar

/-- Neither a tag nor a quote starts like an escaped character. -/
theorem escapeChar_append_ne (c : Char) {rest : List Char}
    (hback : ∀ x ∈ back.head?, x = '<' ∨ x = '\"') : escapeChar c ++ rest ≠ back := by
  rintro rfl
  unfold escapeChar at hback
  split at hback <;> simp_all

@[simp] theorem toList_escape (s : String) : (escape s).toList = s.toList.flatMap escapeChar :=
  String.toList_ofList

theorem escape_append_inj {s s' : String} (hback : ∀ x ∈ back.head?, x = '<' ∨ x = '\"')
    (hback' : ∀ x ∈ back'.head?, x = '<' ∨ x = '\"')
    (heq : (escape s).toList ++ back = (escape s').toList ++ back') : s = s' ∧ back = back' := by
  rw [toList_escape, toList_escape] at heq
  obtain ⟨hsame, hrest⟩ := prefixFree_escapeChar.flatMap_append_inj
    (fun c _ => escapeChar_append_ne c hback) (fun c _ => escapeChar_append_ne c hback') heq
  exact ⟨String.toList_injective hsame, hrest⟩

/-! ## Words -/

/-- A letter, a digit or a hyphen. -/
def wordChar (c : Char) : Bool := c.isAlphanum || c == '-'

def IsWord (s : String) : Prop := s ≠ "" ∧ ∀ c ∈ s.toList, wordChar c

instance (s : String) : Decidable (IsWord s) :=
  have : Decidable (∀ c ∈ s.toList, wordChar c) := List.decidableBAll (wordChar ·) s.toList
  inferInstanceAs (Decidable (s ≠ "" ∧ ∀ c ∈ s.toList, wordChar c))

theorem IsWord.append_inj {s s' : String} (h : IsWord s) (h' : IsWord s')
    (hback : ∀ c ∈ back.head?, wordChar c = false) (hback' : ∀ c ∈ back'.head?, wordChar c = false)
    (heq : s.toList ++ back = s'.toList ++ back') : s = s' ∧ back = back' := by
  obtain ⟨hsame, hrest⟩ := append_inj_of_all h.2 h'.2 hback hback' heq
  exact ⟨String.toList_injective hsame, hrest⟩

/-! ## Plain tags -/

/-- A style property of which neither the name nor the value holds what ends it. -/
def IsProperty (pair : String × String) : Prop := ':' ∉ pair.1.toList ∧ ';' ∉ pair.2.toList

instance (pair : String × String) : Decidable (IsProperty pair) :=
  inferInstanceAs (Decidable (':' ∉ pair.1.toList ∧ ';' ∉ pair.2.toList))

/-- Tags that can be told from one another: the tag and the keys are words, no attribute has the key
under which the style is written, and one can tell where the properties of the style end. -/
structure Plain (tag : String) (attributes style : Pairs) : Prop where
  tag : IsWord tag
  key : ∀ pair ∈ attributes, IsWord pair.1 ∧ pair.1 ≠ "style"
  property : ∀ pair ∈ style, IsProperty pair

instance (tag : String) (attributes style : Pairs) : Decidable (Plain tag attributes style) :=
  decidable_of_iff (IsWord tag ∧ (∀ pair ∈ attributes, IsWord pair.1 ∧ pair.1 ≠ "style") ∧
      ∀ pair ∈ style, IsProperty pair)
    ⟨fun ⟨htag, hkey, hproperty⟩ => ⟨htag, hkey, hproperty⟩, fun h => ⟨h.tag, h.key, h.property⟩⟩

/-! ## Attributes -/

theorem toList_attributeHtml (pair : String × String) :
    (attributeHtml pair).toList =
      ' ' :: (pair.1.toList ++ '=' :: '\"' :: ((escape pair.2).toList ++ ['\"'])) := by
  simp [attributeHtml]

theorem attributeHtml_append_inj {pair pair' : String × String} (h : IsWord pair.1)
    (h' : IsWord pair'.1)
    (heq : (attributeHtml pair).toList ++ back = (attributeHtml pair').toList ++ back') :
    pair = pair' ∧ back = back' := by
  simp only [toList_attributeHtml, List.cons_append, List.append_assoc, List.nil_append,
    List.cons.injEq, true_and] at heq
  obtain ⟨hkey, hrest⟩ := h.append_inj h' (by simp [wordChar]) (by simp [wordChar]) heq
  obtain ⟨hvalue, hend⟩ := escape_append_inj (by simp) (by simp)
    (List.tail_eq_of_cons_eq (List.tail_eq_of_cons_eq hrest))
  exact ⟨Prod.ext hkey hvalue, List.tail_eq_of_cons_eq hend⟩

/-! ## Style -/

/-- A property of the style before it is escaped. -/
def propertyText (pair : String × String) : List Char :=
  pair.1.toList ++ ':' :: ' ' :: (pair.2.toList ++ [';'])

/-- What sets off names and values needs no escape, so the style is escaped as one text. -/
theorem toList_join_propertyHtml (style : Pairs) :
    (String.join (style.map propertyHtml)).toList =
      (escape (String.ofList (style.flatMap propertyText))).toList := by
  have hproperty (pair : String × String) :
      (propertyHtml pair).toList = (propertyText pair).flatMap escapeChar := by
    have hset : escapeChar ':' = [':'] ∧ escapeChar ' ' = [' '] ∧ escapeChar ';' = [';'] :=
      ⟨rfl, rfl, rfl⟩
    simp [propertyHtml, propertyText, hset]
  simp only [String.toList_join, List.flatMap_map, toList_escape, String.toList_ofList,
    List.flatMap_assoc, hproperty]

theorem propertyText_append_inj {pair pair' : String × String} (h : IsProperty pair)
    (h' : IsProperty pair') (heq : propertyText pair ++ back = propertyText pair' ++ back') :
    pair = pair' ∧ back = back' := by
  have hbut {stop : Char} {s : String} (hs : stop ∉ s.toList) :
      ∀ c ∈ s.toList, (c != stop) = true := fun c hc => bne_iff_ne.mpr fun he => hs (he ▸ hc)
  simp only [propertyText, List.append_assoc, List.cons_append, List.nil_append] at heq
  obtain ⟨hname, hrest⟩ := append_inj_of_all (hbut h.1) (hbut h'.1) (by simp) (by simp) heq
  obtain ⟨hvalue, hend⟩ := append_inj_of_all (hbut h.2) (hbut h'.2) (by simp) (by simp)
    (List.tail_eq_of_cons_eq (List.tail_eq_of_cons_eq hrest))
  exact ⟨Prod.ext (String.toList_injective hname) (String.toList_injective hvalue),
    List.tail_eq_of_cons_eq hend⟩

theorem propertyText_append_ne_nil (pair : String × String) (rest : List Char) :
    propertyText pair ++ rest ≠ [] := by
  simp [propertyText]

theorem join_propertyHtml_append_inj {style style' : Pairs}
    (h : ∀ pair ∈ style, IsProperty pair) (h' : ∀ pair ∈ style', IsProperty pair)
    (heq : (String.join (style.map propertyHtml)).toList ++ '\"' :: back =
      (String.join (style'.map propertyHtml)).toList ++ '\"' :: back') :
    style = style' ∧ back = back' := by
  rw [toList_join_propertyHtml, toList_join_propertyHtml] at heq
  obtain ⟨htext, hrest⟩ := escape_append_inj (by simp) (by simp) heq
  obtain ⟨hstyle, -⟩ := flatMap_append_inj
    (fun pair hp pair' hp' _ _ => propertyText_append_inj (h pair hp) (h' pair' hp'))
    (fun pair _ rest => propertyText_append_ne_nil pair rest)
    (fun pair _ rest => propertyText_append_ne_nil pair rest)
    (congrArg (· ++ []) (String.ofList_injective htext))
  exact ⟨hstyle, List.tail_eq_of_cons_eq hrest⟩

theorem toList_styleHtml {style : Pairs} (h : style ≠ []) :
    (styleHtml style).toList = ' ' :: ("style".toList ++ '=' :: '\"' ::
      ((String.join (style.map propertyHtml)).toList ++ ['\"'])) := by
  simp [styleHtml, h]

theorem styleHtml_append_inj {style style' : Pairs}
    (h : ∀ pair ∈ style, IsProperty pair) (h' : ∀ pair ∈ style', IsProperty pair)
    (heq : (styleHtml style).toList ++ '>' :: back = (styleHtml style').toList ++ '>' :: back') :
    style = style' ∧ back = back' := by
  by_cases hs : style = [] <;> by_cases hs' : style' = []
  · subst hs hs'
    exact ⟨rfl, List.tail_eq_of_cons_eq heq⟩
  · rw [hs, toList_styleHtml hs'] at heq
    cases heq
  · rw [hs', toList_styleHtml hs] at heq
    cases heq
  · simp only [toList_styleHtml hs, toList_styleHtml hs', List.cons_append, List.append_assoc,
      List.nil_append, List.cons.injEq, true_and, List.append_cancel_left_eq] at heq
    obtain ⟨hstyle, hrest⟩ := join_propertyHtml_append_inj h h' heq
    exact ⟨hstyle, List.tail_eq_of_cons_eq hrest⟩

/-! ## Opening tags -/

/-- After the attributes comes no further attribute, for none has the key of the style. -/
theorem attributeHtml_append_ne {pair : String × String} (h : IsWord pair.1)
    (hne : pair.1 ≠ "style") (rest : List Char) (style : Pairs) :
    (attributeHtml pair).toList ++ rest ≠ (styleHtml style).toList ++ '>' :: back := by
  intro heq
  rw [toList_attributeHtml] at heq
  by_cases hs : style = []
  · rw [hs] at heq
    cases heq
  · simp only [toList_styleHtml hs, List.cons_append, List.append_assoc, List.cons.injEq,
      true_and] at heq
    have hstyle : IsWord "style" := by decide
    exact hne (h.append_inj hstyle (by simp [wordChar]) (by simp [wordChar]) heq).1

theorem toList_openTag (tag : String) (attributes style : Pairs) :
    (openTag tag attributes style).toList =
      '<' :: (tag.toList ++ (attributes.flatMap (fun pair => (attributeHtml pair).toList) ++
        ((styleHtml style).toList ++ ['>']))) := by
  simp [openTag, List.flatMap_map]

/-- The tag ends where its attributes begin, or its style, or where it is closed. -/
theorem wordChar_head_attributes (attributes style : Pairs) (back : List Char) :
    ∀ c ∈ (attributes.flatMap (fun pair => (attributeHtml pair).toList) ++
      ((styleHtml style).toList ++ '>' :: back)).head?, wordChar c = false := by
  cases attributes with
  | cons pair rest => simp [toList_attributeHtml, wordChar]
  | nil =>
    by_cases hs : style = []
    · simp [hs, styleHtml, wordChar]
    · simp [toList_styleHtml hs, wordChar]

variable {tag tag' : String} {attributes attributes' style style' : Pairs}

/-- **Opening tags are told apart**, and from what follows them. -/
theorem Plain.openTag_append_inj (h : Plain tag attributes style)
    (h' : Plain tag' attributes' style')
    (heq : (openTag tag attributes style).toList ++ back =
      (openTag tag' attributes' style').toList ++ back') :
    tag = tag' ∧ attributes = attributes' ∧ style = style' ∧ back = back' := by
  simp only [toList_openTag, List.cons_append, List.append_assoc, List.nil_append, List.cons.injEq,
    true_and] at heq
  obtain ⟨htag, hrest⟩ := h.tag.append_inj h'.tag (wordChar_head_attributes _ _ _)
    (wordChar_head_attributes _ _ _) heq
  obtain ⟨hattributes, hrest⟩ := flatMap_append_inj
    (fun pair hp pair' hp' _ _ => attributeHtml_append_inj (h.key pair hp).1 (h'.key pair' hp').1)
    (fun pair hp rest => attributeHtml_append_ne (h'.key pair hp).1 (h'.key pair hp).2 rest style)
    (fun pair hp rest => attributeHtml_append_ne (h.key pair hp).1 (h.key pair hp).2 rest style')
    hrest
  obtain ⟨hstyle, hend⟩ := styleHtml_append_inj h.property h'.property hrest
  exact ⟨htag, hattributes, hstyle, hend⟩

/-- An attribute under the key of the style could not be told from one. -/
example : openTag "p" [("style", "color: red;")] [] = openTag "p" [] [("color", "red")] := by decide

end TreeCode.Markup
