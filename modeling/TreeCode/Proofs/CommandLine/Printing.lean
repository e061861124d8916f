import TreeCode.Proofs.CommandLine.Effects
import TreeCode.Proofs.Session.Fragments

/-!
# What a run prints

A program that is run from a file builds on an empty document. If it puts no node beside another, its
root is printed; otherwise the fragment is, and the root is a member of that only if a node was put
beside the root (`run_prints`). So a root that was created after the last insertion is not printed
(`root_not_printed`).
-/

namespace TreeCode.CommandLine

variable {d : Directory} {file : String} {program : List UInt8}

theorem stdout_call_run (environment : Environment) {root : Option NodeId}
    (hread : d.read file = .ok program)
    (hrun : (Session.run { host := ({} : Document) } program).1 = .ok root) :
    (call environment ["run", file] d).1.code = 0 ∧
      (call environment ["run", file] d).1.stdout =
        render (Session.run { host := ({} : Document) } program).2.1 root ++ "\n" := by
  have hspelled : Command.ofArguments? ["run", file] = some (.run file) := rfl
  obtain ⟨hcode, hstdout, -⟩ := call_of_some environment d hspelled
  rw [hcode, hstdout, Command.act_run, hread]
  simp only [hrun]
  exact ⟨rfl, trivial⟩

/-- **What a run prints.** A program in a file is run on an empty document, does not fail, and has a
root. If no node was put beside another, the root is printed. Otherwise the fragment is printed, which
is not empty then, and the root is a member of it just where some node was put beside the root. -/
theorem run_prints (environment : Environment) {root : NodeId} (hread : d.read file = .ok program)
    (hrun : (Session.run { host := ({} : Document) } program).1 = .ok (some root)) :
    let s : Session Document := { host := {} }
    let built := (s.run program).2.1.host
    let siblings := Call.siblings (s.calls program)
    let reply := (call environment ["run", file] d).1
    reply.code = 0 ∧
      (siblings = [] → ∃ html, built.html? root = some html ∧ reply.stdout = html ++ "\n") ∧
      (siblings ≠ [] → built.fragment ≠ [] ∧
        (∃ html, built.fragmentHtml? = some html ∧ reply.stdout = html ++ "\n") ∧
        (root ∈ built.fragment ↔ root ∈ siblings)) := by
  intro s built siblings reply
  obtain ⟨hcode, hstdout⟩ := stdout_call_run environment hread hrun
  obtain ⟨hroot, hfragment, live, hlive, hshown⟩ := Session.exists_of_run s rfl hrun
  refine ⟨hcode, fun hnil => ?_, fun hne => ?_⟩
  · obtain ⟨html, hhtml⟩ := Option.isSome_iff_exists.mp hroot
    refine ⟨html, hhtml, ?_⟩
    rw [hstdout, render, if_pos (hshown.eq_nil hnil), Option.bind_some, hhtml]
    rfl
  · obtain ⟨html, hhtml⟩ := Option.isSome_iff_exists.mp hfragment
    obtain ⟨id, hid, -⟩ := hshown.exists_mem hne
    have hsome : built.fragment ≠ [] := List.ne_nil_of_mem hid
    refine ⟨hsome, ⟨html, hhtml, ?_⟩, hshown.mem_iff root hlive⟩
    rw [hstdout, render, if_neg hsome, hhtml]
    rfl

/-- A list and a text are put beside a paragraph, and the list has got an item in between. -/
theorem run_prints_siblings :
    let program : List UInt8 :=
      [1, 1, 112, 1, 2, 117, 108, 1, 2, 108, 105, 3, 12, 6, 1, 97, 12]
    let files : Directory := [("p", program)]
    let s : Session Document := { host := {} }
    files.read "p" = .ok program ∧ (s.run program).1 = .ok (some 0) ∧
      Call.siblings (s.calls program) = [0, 0] ∧ 0 ∈ (s.run program).2.1.host.fragment ∧
      (call {} ["run", "p"] files).1.stdout = "<p></p>a<ul><li></li></ul>\n" := by
  intro program files s
  have hread : files.read "p" = .ok program :=
    Directory.read_eq_ok_iff.mpr ⟨"p", Directory.leadsTo_name
      (by simp +decide [String.splitOn, String.splitOnAux]) (by decide) (by decide +kernel)
      (by decide +kernel), rfl⟩
  have hrun : (s.run program).1 = .ok (some 0) := by decide +kernel
  have hsiblings : Call.siblings (s.calls program) = [0, 0] := by decide +kernel
  obtain ⟨-, -, hprinted⟩ := run_prints {} hread hrun
  obtain ⟨-, ⟨html, hhtml, hstdout⟩, hmem⟩ := hprinted (by rw [hsiblings]; simp)
  refine ⟨hread, hrun, hsiblings, hmem.mpr (by rw [hsiblings]; simp), ?_⟩
  have hhtml' : (s.run program).2.1.host.fragmentHtml? = some "<p></p>a<ul><li></li></ul>" := by
    decide +kernel
  cases hhtml.symm.trans hhtml'
  exact hstdout

/-- An element is put beside another, and a third is created after that. It is the root and is not
printed, neither alone nor with the others. -/
theorem root_not_printed :
    let program : List UInt8 := [1, 1, 97, 1, 1, 98, 12, 1, 1, 99]
    let files : Directory := [("p", program)]
    let s : Session Document := { host := {} }
    let built := (s.run program).2.1.host
    let stdout := (call {} ["run", "p"] files).1.stdout
    files.read "p" = .ok program ∧ (s.run program).1 = .ok (some 2) ∧
      stdout = "<a></a><b></b>\n" ∧
      ¬ ((∃ html, built.html? 2 = some html ∧ stdout = html ++ "\n") ∨
        ∃ html, built.fragmentHtml? = some html ∧ 2 ∈ built.fragment ∧ stdout = html ++ "\n") := by
  intro program files s built stdout
  have hread : files.read "p" = .ok program :=
    Directory.read_eq_ok_iff.mpr ⟨"p", Directory.leadsTo_name
      (by simp +decide [String.splitOn, String.splitOnAux]) (by decide) (by decide +kernel)
      (by decide +kernel), rfl⟩
  have hrun : (s.run program).1 = .ok (some 2) := by decide +kernel
  have hroot : built.html? 2 = some "<c></c>" := by decide +kernel
  have hfragment : built.fragment = [0, 1] := by decide +kernel
  have hstdout : stdout = "<a></a><b></b>\n" := by
    rw [show stdout = _ from (stdout_call_run {} hread hrun).2]
    decide +kernel
  refine ⟨hread, hrun, hstdout, ?_⟩
  rintro (⟨html, hhtml, hprinted⟩ | ⟨html, -, hmem, -⟩)
  · cases hhtml.symm.trans hroot
    rw [hstdout] at hprinted
    exact absurd hprinted (by decide)
  · rw [hfragment] at hmem
    exact absurd hmem (by decide)

end TreeCode.CommandLine
