import TreeCode.Document.Pairs

/-!
# Named values after many settings

A `Setting` gives a name a value or takes it away. `Pairs.Records` says of pairs that they are what
settings leave: a name has the value of the last setting of it, and names stand in the order in
which each was first set since it was last taken away (`FirstSet`). One more setting keeps that
(`Records.apply`), so any number do (`Records.foldl`).
-/

namespace TreeCode.Pairs

/-- A name that is given a value, or taken away. -/
abbrev Setting := String × Option String

def apply (pairs : Pairs) : Setting → Pairs
  | (name, some value) => pairs.set name value
  | (name, none) => pairs.erase name

/-- The value of a name: that of the last setting of it, none if that took it away. -/
def valueOf (name : String) (settings : List Setting) : Option String :=
  (settings.filter (·.1 = name)).getLast?.bind (·.2)

def names (pairs : Pairs) : List String := pairs.map (·.1)

/-- A name was first set, since it was last taken away, by the setting at a place. -/
structure FirstSet (settings : List Setting) (name : String) (place : Nat) : Prop where
  set : ∃ value, settings[place]? = some (name, some value)
  kept : (name, none) ∉ settings.drop place
  fresh : valueOf name (settings.take place) = none

/-- The pairs are what settings leave. -/
structure Records (pairs : Pairs) (settings : List Setting) : Prop where
  nodup : pairs.names.Nodup
  value : ∀ name, pairs.get? name = valueOf name settings
  mem_names : ∀ name, name ∈ pairs.names ↔ ∃ place, FirstSet settings name place
  order : pairs.names.Pairwise fun name other => ∀ place later,
    FirstSet settings name place → FirstSet settings other later → place < later

variable {pairs : Pairs} {settings : List Setting} {s : Setting} {name other value : String}
  {place : Nat}

/-! ## One setting -/

theorem get?_cons (name value : String) (pairs : Pairs) (other : String) :
    get? ((name, value) :: pairs) other =
      if other = name then some value else pairs.get? other := by
  unfold get?
  by_cases h : other = name
  · simp [h]
  · rw [if_neg h, List.lookup_cons, beq_false_of_ne h]

theorem get?_set (pairs : Pairs) (name value other : String) :
    (pairs.set name value).get? other = if other = name then some value else pairs.get? other := by
  induction pairs with
  | nil => exact get?_cons name value [] other
  | cons pair rest ih =>
    obtain ⟨n, v⟩ := pair
    unfold set
    by_cases hn : n = name
    · subst hn
      rw [if_pos rfl, get?_cons, get?_cons]
      split <;> rfl
    · rw [if_neg hn, get?_cons, get?_cons, ih]
      by_cases h : other = n
      · simp [h, hn]
      · simp [h]

theorem get?_erase (pairs : Pairs) (name other : String) :
    (pairs.erase name).get? other = if other = name then none else pairs.get? other := by
  induction pairs with
  | nil => simp [erase, get?]
  | cons pair rest ih =>
    obtain ⟨n, v⟩ := pair
    have hcons : erase ((n, v) :: rest) name =
        if n = name then erase rest name else (n, v) :: erase rest name := by
      by_cases hn : n = name <;> simp [erase, hn]
    rw [hcons, get?_cons]
    by_cases hn : n = name
    · rw [if_pos hn, ih, hn]
      split <;> rfl
    · rw [if_neg hn, get?_cons, ih]
      by_cases h : other = n
      · simp [h, hn]
      · simp [h]

theorem get?_eq_none_iff : pairs.get? name = none ↔ name ∉ pairs.names := by
  induction pairs with
  | nil => simp [names, get?]
  | cons pair rest ih =>
    obtain ⟨n, v⟩ := pair
    rw [get?_cons, names, List.map_cons, List.mem_cons, not_or, ← names, ← ih]
    split <;> simp [*]

theorem names_set (pairs : Pairs) (name value : String) :
    (pairs.set name value).names =
      if name ∈ pairs.names then pairs.names else pairs.names ++ [name] := by
  induction pairs with
  | nil => rfl
  | cons pair rest ih =>
    obtain ⟨n, v⟩ := pair
    unfold set
    by_cases hn : n = name
    · simp [names, hn]
    · rw [if_neg hn]
      simp only [names, List.map_cons, List.mem_cons, Ne.symm hn, false_or] at ih ⊢
      rw [ih]
      by_cases hmem : name ∈ rest.map (·.1) <;> simp [hmem]

theorem names_erase (pairs : Pairs) (name : String) :
    (pairs.erase name).names = pairs.names.filter (· ≠ name) := by
  rw [names, names, List.filter_map]
  rfl

/-! ## One more setting -/

theorem valueOf_append (name : String) (settings : List Setting) (s : Setting) :
    valueOf name (settings ++ [s]) = if s.1 = name then s.2 else valueOf name settings := by
  unfold valueOf
  rw [List.filter_append]
  by_cases h : s.1 = name <;> simp [h]

theorem FirstSet.lt_length (h : FirstSet settings name place) : place < settings.length := by
  obtain ⟨value, hset⟩ := h.set
  exact (List.getElem?_eq_some_iff.mp hset).1

/-- A setting that is not the last is the first of its name as before, unless the last takes the
name away. -/
theorem firstSet_append_of_lt (h : place < settings.length) :
    FirstSet (settings ++ [s]) name place ↔
      FirstSet settings name place ∧ s ≠ (name, none) := by
  have hdrop : (settings ++ [s]).drop place = settings.drop place ++ [s] :=
    List.drop_append_of_le_length (Nat.le_of_lt h)
  have htake : (settings ++ [s]).take place = settings.take place :=
    List.take_append_of_le_length (Nat.le_of_lt h)
  constructor
  · rintro ⟨⟨value, hset⟩, hkept, hfresh⟩
    rw [List.getElem?_append_left h] at hset
    rw [hdrop, List.mem_append, not_or, List.mem_singleton] at hkept
    rw [htake] at hfresh
    exact ⟨⟨⟨value, hset⟩, hkept.1, hfresh⟩, Ne.symm hkept.2⟩
  · rintro ⟨⟨⟨value, hset⟩, hkept, hfresh⟩, hs⟩
    refine ⟨⟨value, by rwa [List.getElem?_append_left h]⟩, ?_, by rwa [htake]⟩
    rw [hdrop, List.mem_append, not_or, List.mem_singleton]
    exact ⟨hkept, Ne.symm hs⟩

theorem firstSet_append_length :
    FirstSet (settings ++ [s]) name settings.length ↔
      (∃ value, s = (name, some value)) ∧ valueOf name settings = none := by
  constructor
  · rintro ⟨⟨value, hset⟩, -, hfresh⟩
    rw [List.getElem?_concat_length] at hset
    rw [List.take_left] at hfresh
    exact ⟨⟨value, Option.some.inj hset⟩, hfresh⟩
  · rintro ⟨⟨value, rfl⟩, hfresh⟩
    exact ⟨⟨value, List.getElem?_concat_length⟩, by simp, by rwa [List.take_left]⟩

/-- A name is first set by a new setting if it has no value, and by the old ones unless the new one
takes it away. -/
theorem firstSet_append :
    FirstSet (settings ++ [s]) name place ↔
      (FirstSet settings name place ∧ s ≠ (name, none)) ∨
      (place = settings.length ∧ (∃ value, s = (name, some value)) ∧
        valueOf name settings = none) := by
  constructor
  · intro hfirst
    have hle : place < settings.length + 1 := by simpa using hfirst.lt_length
    rcases Nat.lt_succ_iff_lt_or_eq.mp hle with h | rfl
    · exact .inl ((firstSet_append_of_lt h).mp hfirst)
    · exact .inr ⟨rfl, firstSet_append_length.mp hfirst⟩
  · rintro (h | ⟨rfl, h⟩)
    · exact (firstSet_append_of_lt h.1.lt_length).mpr h
    · exact firstSet_append_length.mpr h

/-! ## Many settings -/

namespace Records

theorem empty : Records [] [] where
  nodup := .nil
  value _ := rfl
  mem_names name := by
    simp only [names, List.map_nil, List.not_mem_nil, false_iff, not_exists]
    intro place h
    exact Nat.not_lt_zero place h.lt_length
  order := .nil

theorem valueOf_eq_none_iff (h : pairs.Records settings) :
    valueOf name settings = none ↔ name ∉ pairs.names := by
  rw [← h.value, get?_eq_none_iff]

theorem erase (h : pairs.Records settings) (name : String) :
    (pairs.erase name).Records (settings ++ [(name, none)]) := by
  -- A removal is the first setting of no name, and ends that of the name it takes away.
  have hfirst (other : String) (place : Nat) :
      FirstSet (settings ++ [(name, none)]) other place ↔
        FirstSet settings other place ∧ other ≠ name := by
    simp [firstSet_append, eq_comm]
  refine ⟨?_, fun other => ?_, fun other => ?_, ?_⟩
  · rw [names_erase]
    exact h.nodup.filter _
  · rw [get?_erase, valueOf_append, h.value]
    simp only [eq_comm]
  · simp [names_erase, h.mem_names, hfirst]
  · rw [names_erase]
    refine (h.order.filter _).imp fun hlt place later hplace hlater => ?_
    exact hlt place later ((hfirst _ _).mp hplace).1 ((hfirst _ _).mp hlater).1

theorem set_of_mem (h : pairs.Records settings) (hname : name ∈ pairs.names) (value : String) :
    (pairs.set name value).Records (settings ++ [(name, some value)]) := by
  have hfirst (other : String) (place : Nat) :
      FirstSet (settings ++ [(name, some value)]) other place ↔
        FirstSet settings other place := by
    have hold : valueOf name settings ≠ none := fun hnone => h.valueOf_eq_none_iff.mp hnone hname
    rw [firstSet_append]
    constructor
    · rintro (⟨hfirst, -⟩ | ⟨-, ⟨_, heq⟩, hnone⟩)
      · exact hfirst
      · obtain rfl : name = other := congrArg Prod.fst heq
        exact absurd hnone hold
    · exact fun hfirst => .inl ⟨hfirst, nofun⟩
  have hnames : (pairs.set name value).names = pairs.names := by rw [names_set, if_pos hname]
  refine ⟨hnames ▸ h.nodup, fun other => ?_, fun other => ?_, ?_⟩
  · rw [get?_set, valueOf_append, h.value]
    simp only [eq_comm]
  · simp [hnames, h.mem_names, hfirst]
  · rw [hnames]
    exact h.order.imp fun hlt place later hplace hlater =>
      hlt place later ((hfirst _ _).mp hplace) ((hfirst _ _).mp hlater)

theorem set_of_not_mem (h : pairs.Records settings) (hname : name ∉ pairs.names) (value : String) :
    (pairs.set name value).Records (settings ++ [(name, some value)]) := by
  have hfirst (other : String) (place : Nat) :
      FirstSet (settings ++ [(name, some value)]) other place ↔
        FirstSet settings other place ∨ (place = settings.length ∧ other = name) := by
    have hnone : valueOf name settings = none := h.valueOf_eq_none_iff.mpr hname
    rw [firstSet_append]
    constructor
    · rintro (⟨hfirst, -⟩ | ⟨hlast, ⟨_, heq⟩, -⟩)
      · exact .inl hfirst
      · exact .inr ⟨hlast, (congrArg Prod.fst heq).symm⟩
    · rintro (hfirst | ⟨hlast, rfl⟩)
      · exact .inl ⟨hfirst, nofun⟩
      · exact .inr ⟨hlast, ⟨value, rfl⟩, hnone⟩
  have hnames : (pairs.set name value).names = pairs.names ++ [name] := by
    rw [names_set, if_neg hname]
  -- The old names were set by the old settings, so before the new one.
  have hold {other : String} {place : Nat} (hother : other ∈ pairs.names)
      (hplace : FirstSet (settings ++ [(name, some value)]) other place) :
      FirstSet settings other place := by
    rcases (hfirst other place).mp hplace with hplace | ⟨-, rfl⟩
    · exact hplace
    · exact absurd hother hname
  refine ⟨?_, fun other => ?_, fun other => ?_, ?_⟩
  · rw [hnames]
    refine List.nodup_append.mpr ⟨h.nodup, List.pairwise_singleton _ _, ?_⟩
    rintro other hother new hnew rfl
    exact hname (List.mem_singleton.mp hnew ▸ hother)
  · rw [get?_set, valueOf_append, h.value]
    simp only [eq_comm]
  · simp [hnames, h.mem_names, hfirst, exists_or]
  · rw [hnames]
    refine List.pairwise_append.mpr ⟨?_, List.pairwise_singleton _ _, ?_⟩
    · refine h.order.imp_of_mem fun hname hother hlt place later hplace hlater => ?_
      exact hlt place later (hold hname hplace) (hold hother hlater)
    · intro other hother new hnew place later hplace hlater
      obtain rfl := List.mem_singleton.mp hnew
      have hplace : place < settings.length := (hold hother hplace).lt_length
      rcases (hfirst new later).mp hlater with hlater | ⟨rfl, -⟩
      · exact absurd ((h.mem_names new).mpr ⟨later, hlater⟩) hname
      · exact hplace

theorem apply (h : pairs.Records settings) (s : Setting) :
    (pairs.apply s).Records (settings ++ [s]) := by
  obtain ⟨name, value⟩ := s
  cases value with
  | none => exact h.erase name
  | some value =>
    by_cases hname : name ∈ pairs.names
    · exact h.set_of_mem hname value
    · exact h.set_of_not_mem hname value

theorem foldl (h : pairs.Records settings) (more : List Setting) :
    (more.foldl Pairs.apply pairs).Records (settings ++ more) := by
  induction more generalizing pairs settings with
  | nil => rwa [List.append_nil]
  | cons s rest ih =>
    have hrest := ih (h.apply s)
    rwa [List.append_assoc] at hrest

end Records

end TreeCode.Pairs
