import TreeCode.CommandLine.Files

/-!
# A directory and its names

A path that leads to a name of a directory leads there whatever files the directory holds
(`LeadsTo`). That is all that it takes to write a file; to read one it has to be there too. A write
gives one name its bytes and leaves the others as they were (`lookup_put`), and by any path that leads
to that name the bytes are then read (`read_put`).
-/

namespace TreeCode.CommandLine.Directory

variable {d d' : Directory} {path name : String} {bytes : List UInt8}

/-- The path leads to a name, and does not ask for a directory. -/
structure LeadsTo (d : Directory) (path name : String) : Prop where
  target : d.target path = .ok (.member name)
  plain : asksForDirectory path = false

def Writable (d : Directory) (path : String) : Prop := ∃ name, d.LeadsTo path name

/-! ## Names -/

theorem lookup_cons (other name : String) (bytes : List UInt8) (d : Directory) :
    List.lookup other ((name, bytes) :: d) =
      if other = name then some bytes else List.lookup other d := by
  by_cases h : other = name
  · subst h
    simp
  · rw [if_neg h, List.lookup_cons, beq_false_of_ne h]

theorem lookup_put (d : Directory) (name : String) (bytes : List UInt8) (other : String) :
    List.lookup other (d.put name bytes) =
      if other = name then some bytes else List.lookup other d := by
  induction d with
  | nil => exact lookup_cons other name bytes []
  | cons entry rest ih =>
    obtain ⟨n, b⟩ := entry
    unfold put
    by_cases hn : n = name
    · subst hn
      rw [if_pos rfl, lookup_cons, lookup_cons]
      split <;> rfl
    · rw [if_neg hn, lookup_cons, lookup_cons, ih]
      by_cases h : other = n
      · subst h
        simp [hn]
      · simp [h]

/-! ## Paths -/

/-- A name leads to itself, unless it means a directory. -/
theorem leadsTo_name (hname : name.splitOn "/" = [name]) (hnot : name ∉ ["", ".", ".."])
    (hinside : name.startsWith "/" = false) (hplain : asksForDirectory name = false) :
    d.LeadsTo name name := by
  refine ⟨?_, hplain⟩
  simp only [List.mem_cons, List.not_mem_nil, or_false, not_or] at hnot
  obtain ⟨hempty, hdot, hdots⟩ := hnot
  simp [Directory.target, Directory.follow, hname, hempty, hdot, hdots, hinside]

/-- What names lead to does not depend on the files; only why they lead nowhere may. -/
theorem follow_of_ok {inside : Bool} {names : List String} {t : Target}
    (h : d.follow inside names = .ok t) : d'.follow inside names = .ok t := by
  induction names generalizing inside with
  | nil => exact h
  | cons n rest ih =>
    unfold follow at h ⊢
    by_cases hstay : n = "."
    · rw [if_pos hstay] at h ⊢
      exact ih h
    · rw [if_neg hstay] at h ⊢
      by_cases hup : n = ".."
      · rw [if_pos hup] at h ⊢
        exact ih h
      · rw [if_neg hup] at h ⊢
        by_cases hout : inside = false
        · rw [if_pos hout] at h
          cases h
        · rw [if_neg hout] at h ⊢
          by_cases hlast : rest = []
          · rwa [if_pos hlast] at h ⊢
          · rw [if_neg hlast] at h
            split at h <;> cases h

theorem LeadsTo.of_files (h : d.LeadsTo path name) : d'.LeadsTo path name where
  target := by
    have htarget := h.target
    unfold Directory.target at htarget ⊢
    by_cases hempty : path = ""
    · rw [if_pos hempty] at htarget
      cases htarget
    · rw [if_neg hempty] at htarget ⊢
      exact follow_of_ok htarget
  plain := h.plain

/-! ## Reading and writing -/

theorem read_eq_ok_iff :
    d.read path = .ok bytes ↔ ∃ name, d.LeadsTo path name ∧ List.lookup name d = some bytes := by
  unfold read
  constructor
  · intro h
    split at h
    · cases h
    · cases h
    · rename_i name htarget
      split at h
      · cases h
      · rename_i found hlookup
        split at h
        · cases h
        · rename_i hplain
          cases h
          exact ⟨name, ⟨htarget, Bool.eq_false_iff.mpr hplain⟩, hlookup⟩
  · rintro ⟨name, ⟨htarget, hplain⟩, hlookup⟩
    simp only [htarget, hlookup, hplain]
    rfl

theorem write_of_leadsTo (h : d.LeadsTo path name) (bytes : List UInt8) :
    d.write path bytes = .ok (d.put name bytes) := by
  unfold write
  simp only [h.target, h.plain]
  rfl

theorem exists_write_error (h : ¬ d.Writable path) (bytes : List UInt8) :
    ∃ fault, d.write path bytes = .error fault := by
  unfold write
  split
  · exact ⟨_, rfl⟩
  · exact ⟨_, rfl⟩
  · rename_i name htarget
    split
    · exact ⟨_, rfl⟩
    · rename_i hplain
      exact absurd ⟨name, htarget, Bool.eq_false_iff.mpr hplain⟩ h

theorem read_put (h : d.LeadsTo path name) (bytes : List UInt8) :
    (d.put name bytes).read path = .ok bytes :=
  read_eq_ok_iff.mpr ⟨name, h.of_files, by rw [lookup_put, if_pos rfl]⟩

end TreeCode.CommandLine.Directory
