import PugComponents.Proofs.Project.Passes

/- What a pass tells of itself. The totals are those of the batch, which holds one
   result for each place, and the reports are made template by template, with a look
   into the batch that could find nothing. They agree because discovery finds no place
   twice: the batch then is the list of the results (`entries_convert`), and every
   template gets the report of its own result (`deliver_reports`). -/
namespace PugComponents.Project

open Files
open Script (SnippetReader)
open Text

/-! ## The batch -/

/-- The result for a new place comes last. -/
theorem addEntry_new (new : BatchEntry) {entries : List BatchEntry}
    (h : ∀ e ∈ entries, Path.same e.path new.path = false) :
    addEntry new entries = entries ++ [new] := by
  induction entries with
  | nil => rfl
  | cons e rest ih =>
    obtain ⟨he, hrest⟩ := List.forall_mem_cons.mp h
    rw [addEntry, he, if_neg Bool.false_ne_true, ih hrest, List.cons_append]

/-- A batch of different paths holds the result of each, in their order. -/
theorem entries_convert {tree : FileTree} {reader : SnippetReader} {baseDirectory : Option String}
    {paths : List String} (h : paths.Pairwise fun a b => Path.components a ≠ Path.components b) :
    (Batch.convert tree reader baseDirectory paths).entries =
      paths.map fun path => ⟨path, convertAlone tree reader baseDirectory path⟩ := by
  induction paths using List.reverseRecOn with
  | nil => rfl
  | append_singleton paths path ih =>
    obtain ⟨hpaths, -, hnew⟩ := List.pairwise_append.mp h
    have hother : ∀ e ∈ (Batch.convert tree reader baseDirectory paths).entries,
        Path.same e.path path = false := by
      intro e he
      rw [ih hpaths] at he
      obtain ⟨known, hknown, rfl⟩ := List.mem_map.mp he
      exact beq_false_of_ne (hnew known hknown path (List.mem_singleton_self path))
    rw [Batch.convert_concat]
    show addEntry ⟨path, _⟩ _ = _
    rw [addEntry_new ⟨path, convertAlone tree reader baseDirectory path⟩ hother, ih hpaths, List.map_append]
    rfl

/-! ## The reports -/

namespace FileReport

/-- The report of a result. -/
def ofResult (path : String) (output : Option String) : Except ConvertError Converted → FileReport
  | .ok c => .converted path output c
  | .error e => .failed path e

/-- What the report says of the conversion, whether or not the module was written. -/
def unplaced (r : FileReport) : FileReport := { r with output := none }

@[simp]
theorem path_ofResult (path : String) (output : Option String) (result : Except ConvertError Converted) :
    (ofResult path output result).path = path := by
  cases result <;> rfl

theorem isNone_error_ofResult (path : String) (output : Option String)
    (result : Except ConvertError Converted) : (ofResult path output result).error.isNone = result.isOk := by
  cases result <;> rfl

end FileReport

/-- The number of warnings in reports. -/
def totalWarnings : List FileReport → Nat
  | [] => 0
  | r :: rest => r.warnings.length + totalWarnings rest

theorem totalWarnings_unplaced (reports : List FileReport) :
    totalWarnings (reports.map FileReport.unplaced) = totalWarnings reports := by
  induction reports with
  | nil => rfl
  | cons r rest ih => rw [List.map_cons, totalWarnings, totalWarnings, ih]; rfl

theorem totalWarnings_pos {reports : List FileReport} :
    0 < totalWarnings reports ↔ ∃ r ∈ reports, r.warnings ≠ [] := by
  induction reports with
  | nil => simp [totalWarnings]
  | cons r rest ih =>
    rw [totalWarnings, Nat.add_pos_iff_pos_or_pos, ih, List.length_pos_iff]
    simp

section

variable {tree : FileTree} {reader : SnippetReader} {baseDirectory : Option String} {paths : List String}
  {reports : List FileReport}

/-- A batch of different paths has as many failures as there are reports with an error. -/
theorem failureCount_convert (h : paths.Pairwise fun a b => Path.components a ≠ Path.components b)
    (hreports : reports.map FileReport.unplaced =
      paths.map fun path => .ofResult path none (convertAlone tree reader baseDirectory path)) :
    (Batch.convert tree reader baseDirectory paths).failureCount = reports.countP (·.error.isSome) := by
  have hresult : ∀ path, (FileReport.ofResult path none
      (convertAlone tree reader baseDirectory path)).error.isSome =
        !(convertAlone tree reader baseDirectory path).isOk := by
    intro path
    rw [← FileReport.isNone_error_ofResult path none, Option.not_isNone]
  calc (Batch.convert tree reader baseDirectory paths).failureCount
      = paths.countP fun path => !(convertAlone tree reader baseDirectory path).isOk := by
        rw [Batch.failureCount, entries_convert h, List.countP_map]
        rfl
    _ = (reports.map FileReport.unplaced).countP (·.error.isSome) := by
        rw [hreports, List.countP_map]
        exact List.countP_congr fun path _ => by simp [hresult]
    _ = reports.countP (·.error.isSome) := by
        rw [List.countP_map]
        rfl

/-- It has as many warnings as the reports together. -/
theorem warningCount_convert (h : paths.Pairwise fun a b => Path.components a ≠ Path.components b)
    (hreports : reports.map FileReport.unplaced =
      paths.map fun path => .ofResult path none (convertAlone tree reader baseDirectory path)) :
    (Batch.convert tree reader baseDirectory paths).warningCount = totalWarnings reports := by
  rw [← totalWarnings_unplaced, hreports, Batch.warningCount, entries_convert h, List.flatMap_map]
  clear h hreports
  -- A report has as many warnings as its result: they get their positions, and none is dropped.
  induction paths with
  | nil => rfl
  | cons path paths ih =>
    rw [List.map_cons, totalWarnings, List.flatMap_cons, List.length_append, ih]
    cases convertAlone tree reader baseDirectory path with
    | error e => rfl
    | ok c => simp [FileReport.ofResult, FileReport.converted]

end

/-- The module of a result, or nothing if there is none. -/
def codeOf : Except ConvertError Converted → String
  | .ok c => c.result.code
  | .error _ => ""

/-- What is printed for a result. -/
def printedFor (path : String) : Except ConvertError Converted → String
  | .ok c => "// " ++ path ++ "\n" ++ c.result.code ++ "\n"
  | .error _ => ""

section

variable {s : Settings} {batch : Batch} {templates : List TemplateFile} {tree after : FileTree}
  {reports : List FileReport} {printed : String} {results : String → Except ConvertError Converted}

/-- Every template gets the report of its result. -/
theorem deliver_reports (hfound : ∀ t ∈ templates, batch.get? t.path = some (results t.path))
    (h : deliver s batch tree templates = (after, .ok (reports, printed))) :
    reports.map FileReport.unplaced = templates.map fun t => .ofResult t.path none (results t.path) := by
  induction templates generalizing tree reports printed with
  | nil =>
    cases h
    rfl
  | cons t rest ih =>
    obtain ⟨hfirst, hrest⟩ := List.forall_mem_cons.mp hfound
    -- Whichever way the template goes, its report stands in front of the others.
    have hcons : ∀ (r : FileReport) (code : String) (next : FileTree),
        r.unplaced = .ofResult t.path none (results t.path) →
        (deliver s batch next rest).cons r code = (after, .ok (reports, printed)) →
        reports.map FileReport.unplaced =
          (t :: rest).map fun t => .ofResult t.path none (results t.path) := by
      intro r code next hr hdelivery
      obtain ⟨reports', printed', hnext, rfl⟩ := Delivery.cons_eq_ok hdelivery
      rw [List.map_cons, List.map_cons, hr, ih hrest hnext]
    unfold deliver at h
    rw [hfirst] at h
    cases hresult : results t.path with
    | error e =>
      rw [hresult] at h
      exact hcons _ _ _ (by rw [hresult]; rfl) h
    | ok c =>
      rw [hresult] at h
      simp only at h
      split at h
      · exact hcons _ _ _ (by rw [hresult]; rfl) h
      · split at h
        · cases h
        · exact hcons _ _ _ (by rw [hresult]; rfl) h

/-- A delivery that prints leaves the tree as it is. -/
theorem deliver_stdout (hstdout : s.stdout = true)
    (hfound : ∀ t ∈ templates, batch.get? t.path = some (results t.path)) :
    deliver s batch tree templates =
      (tree, .ok (templates.map fun t => .ofResult t.path none (results t.path),
        String.join (templates.map fun t => printedFor t.path (results t.path)))) := by
  induction templates with
  | nil => rfl
  | cons t rest ih =>
    obtain ⟨hfirst, hrest⟩ := List.forall_mem_cons.mp hfound
    unfold deliver
    rw [hfirst, ih hrest, List.map_cons, List.map_cons, String.join_cons]
    cases hresult : results t.path with
    | error e => rfl
    | ok c =>
      simp only [hstdout, if_true]
      rfl

end

/-- What is printed for all results is printed for those of the reports without an error. -/
theorem join_printedFor {reports : List FileReport} {results : String → Except ConvertError Converted}
    (h : ∀ r ∈ reports, r.unplaced = .ofResult r.path none (results r.path)) :
    String.join (reports.map fun r => printedFor r.path (results r.path)) =
      String.join ((reports.filter (·.error.isNone)).map fun r =>
        "// " ++ r.path ++ "\n" ++ codeOf (results r.path) ++ "\n") := by
  induction reports with
  | nil => rfl
  | cons r rest ih =>
    obtain ⟨hr, hrest⟩ := List.forall_mem_cons.mp h
    rw [List.map_cons, String.join_cons, ih hrest]
    cases hresult : results r.path with
    | ok c =>
      rw [hresult] at hr
      have hnone : r.error = none := (FileReport.mk.inj hr).2.2.2
      rw [List.filter_cons_of_pos (by rw [hnone]; rfl), List.map_cons, String.join_cons, hresult]
      rfl
    | error e =>
      rw [hresult] at hr
      have hsome : r.error = some e := (FileReport.mk.inj hr).2.2.2
      rw [List.filter_cons_of_neg (by simp [hsome])]
      exact String.empty_append

/-! ## Passes -/

theorem summary_runPass {tree after : FileTree} {reader : SnippetReader} {patterns : PatternReader}
    {s : Settings} {pass : Pass} {ignored : String → Bool}
    (h : runPass tree reader patterns s = (after, .ok pass))
    (hignored : patterns (s.ignore ++ standardIgnores) = .ok ignored) :
    pass.summary =
      ⟨(discover tree ignored s.paths).length,
        (Batch.convert tree reader s.baseDirectory
          ((discover tree ignored s.paths).map (·.path))).failureCount,
        (Batch.convert tree reader s.baseDirectory
          ((discover tree ignored s.paths).map (·.path))).warningCount,
        s.failOnWarnings⟩ := by
  have hresult := congrArg Prod.snd h
  simp only [runPass, hignored] at hresult
  revert hresult
  generalize (deliver s _ tree _).2 = result
  intro hresult
  cases result with
  | error e => cases hresult
  | ok delivered =>
    cases hresult
    rfl

/-- Every template that is found has its own result in the batch. -/
theorem get?_discovered (tree : FileTree) (reader : SnippetReader) (s : Settings)
    (ignored : String → Bool) :
    ∀ t ∈ discover tree ignored s.paths,
      (Batch.convert tree reader s.baseDirectory
          ((discover tree ignored s.paths).map (·.path))).get? t.path =
        some (convertAlone tree reader s.baseDirectory t.path) := by
  intro t ht
  exact Batch.get?_convert (discover_pairwise tree ignored s.paths) (List.mem_map_of_mem ht)

/-- A report says of its path what the conversion gives. -/
theorem unplaced_of_mem {paths : List String} {reports : List FileReport} {r : FileReport}
    {results : String → Except ConvertError Converted}
    (h : reports.map FileReport.unplaced = paths.map fun path => .ofResult path none (results path))
    (hr : r ∈ reports) : r.unplaced = .ofResult r.path none (results r.path) := by
  have hmem : r.unplaced ∈ reports.map FileReport.unplaced := List.mem_map_of_mem hr
  rw [h] at hmem
  obtain ⟨path, -, hpath⟩ := List.mem_map.mp hmem
  have hsame : path = r.path := by
    have hpaths := congrArg FileReport.path hpath
    rwa [FileReport.path_ofResult] at hpaths
  rw [← hpath, hsame]

/-- The verdict of a summary whose totals are those of reports. -/
theorem shouldFail_iff {summary : Summary} {reports : List FileReport}
    (hfailures : summary.failures = reports.countP (·.error.isSome))
    (hwarnings : summary.warnings = totalWarnings reports) :
    summary.shouldFail = true ↔ (∃ r ∈ reports, r.error.isSome = true) ∨
      (summary.failOnWarnings = true ∧ ∃ r ∈ reports, r.warnings ≠ []) := by
  have hfailed : summary.failures > 0 ↔ ∃ r ∈ reports, r.error.isSome = true := by
    rw [hfailures]
    exact List.countP_pos_iff
  have hwarned : summary.warnings > 0 ↔ ∃ r ∈ reports, r.warnings ≠ [] := by
    rw [hwarnings]
    exact totalWarnings_pos
  simp only [Summary.shouldFail, Bool.or_eq_true, Bool.and_eq_true, decide_eq_true_eq, hfailed, hwarned,
    and_comm]

/-- A pass that ends well has one report for each template, in the order of discovery, which says what
the conversion of the template gave. The totals and the verdict of its summary are those of the
reports. If it prints, nothing is written, and the modules of the reports without an error are
printed one after the other, each behind a line with its path. -/
theorem runPass_summary (tree after : FileTree) (reader : SnippetReader) (patterns : PatternReader)
    (s : Settings) (pass : Pass) (h : runPass tree reader patterns s = (after, .ok pass)) :
    (∃ ignored, patterns (s.ignore ++ standardIgnores) = .ok ignored ∧
      pass.reports.map (·.path) = (discover tree ignored s.paths).map (·.path)) ∧
    (∀ r ∈ pass.reports,
      r.unplaced = .ofResult r.path none (convertAlone tree reader s.baseDirectory r.path)) ∧
    pass.summary.files = pass.reports.length ∧
    pass.summary.failures = pass.reports.countP (·.error.isSome) ∧
    pass.summary.warnings = totalWarnings pass.reports ∧
    (pass.summary.shouldFail = true ↔
      (∃ r ∈ pass.reports, r.error.isSome = true) ∨
        (s.failOnWarnings = true ∧ ∃ r ∈ pass.reports, r.warnings ≠ [])) ∧
    (s.stdout = true → after = tree ∧
      pass.printed = String.join ((pass.reports.filter (·.error.isNone)).map fun r =>
        "// " ++ r.path ++ "\n" ++ codeOf (convertAlone tree reader s.baseDirectory r.path) ++
          "\n")) := by
  obtain ⟨ignored, hignored, hdeliver⟩ := runPass_eq_ok h
  have hsummary := summary_runPass h hignored
  have hfound := get?_discovered tree reader s ignored
  have hdistinct := discover_pairwise tree ignored s.paths
  have hreports : pass.reports.map FileReport.unplaced =
      ((discover tree ignored s.paths).map (·.path)).map fun path =>
        .ofResult path none (convertAlone tree reader s.baseDirectory path) := by
    rw [deliver_reports hfound hdeliver, List.map_map]
    rfl
  have hpaths : pass.reports.map (·.path) = (discover tree ignored s.paths).map (·.path) := by
    have h := congrArg (List.map FileReport.path) hreports
    simpa [Function.comp_def, FileReport.unplaced] using h
  have heach : ∀ r ∈ pass.reports,
      r.unplaced = .ofResult r.path none (convertAlone tree reader s.baseDirectory r.path) :=
    fun r hr => unplaced_of_mem hreports hr
  have hfailures : pass.summary.failures = pass.reports.countP (·.error.isSome) := by
    rw [hsummary, failureCount_convert hdistinct hreports]
  have hwarnings : pass.summary.warnings = totalWarnings pass.reports := by
    rw [hsummary, warningCount_convert hdistinct hreports]
  refine ⟨⟨ignored, hignored, hpaths⟩, heach, ?_, hfailures, hwarnings, ?_, ?_⟩
  · have hlength := congrArg List.length hpaths
    rw [List.length_map, List.length_map] at hlength
    rw [hsummary, hlength]
  · rw [shouldFail_iff hfailures hwarnings, hsummary]
  · intro hstdout
    have hprints := (deliver_stdout hstdout hfound).symm.trans hdeliver
    rw [Prod.mk.injEq, Except.ok.injEq, Prod.mk.injEq] at hprints
    obtain ⟨htree, -, hprinted⟩ := hprints
    refine ⟨htree.symm, ?_⟩
    have hmapped := congrArg (List.map fun path =>
      printedFor path (convertAlone tree reader s.baseDirectory path)) hpaths
    rw [List.map_map, List.map_map] at hmapped
    rw [← join_printedFor heach, ← hprinted]
    exact congrArg String.join hmapped.symm

/-- A template with a fault and one with a warning. -/
def mixedTree : FileTree :=
  .ofFiles ["work"] [(["a.pug"], .file (.text "p one\n+m\n")), (["b.pug"], .file (.text "p(\n"))]

/-- The faulty template is named twice. -/
def mixedSettings : Settings where
  workspace := "/work"
  paths := ["/work/b.pug", "/work/a.pug", "/work/./b.pug"]
  outDirectory := none
  extension := ".jsx"
  ignore := []
  baseDirectory := none
  stdout := true
  format := .human
  failOnWarnings := true
  watch := false

/-- Each template is reported once, the one that is converted is printed, and the run fails. -/
theorem mixed_summary :
    ∃ after pass, runPass mixedTree .standard excludedBy mixedSettings = (after, .ok pass) ∧
      mixedSettings.stdout = true ∧ after = mixedTree ∧
      pass.reports.map (fun r => (r.path, r.error.isSome, r.warnings.length)) =
        [("/work/b.pug", true, 0), ("/work/a.pug", false, 1)] ∧
      pass.summary.files = 2 ∧ pass.summary.failures = 1 ∧ pass.summary.warnings = 1 ∧
      pass.summary.shouldFail = true ∧
      pass.printed = "// /work/a.pug\nexport const A = () => \x7b\n  return <p>one</p>;\n\x7d;\n\n" := by
  have hrun : (runPass mixedTree .standard excludedBy mixedSettings).2.toOption.map
      (fun pass => pass.reports.map fun r => (r.path, r.error.isSome, r.warnings.length)) =
        some [("/work/b.pug", true, 0), ("/work/a.pug", false, 1)] := by
    decide +kernel
  have hcode : codeOf (convertAlone mixedTree .standard none "/work/a.pug") =
      "export const A = () => \x7b\n  return <p>one</p>;\n\x7d;\n" := by
    decide +kernel
  obtain ⟨pass, hpass, hreports⟩ := exists_eq_ok hrun
  have hok : runPass mixedTree .standard excludedBy mixedSettings =
      ((runPass mixedTree .standard excludedBy mixedSettings).1, .ok pass) := by
    rw [← hpass]
  obtain ⟨-, -, hfiles, hfailures, hwarnings, hverdict, hprints⟩ :=
    runPass_summary mixedTree _ .standard _ mixedSettings pass hok
  obtain ⟨htree, hprinted⟩ := hprints rfl
  obtain ⟨first, rest, hcons, hfirst, hrest⟩ := List.map_eq_cons_iff.mp hreports
  obtain ⟨second, more, hsecond, hlast, hmore⟩ := List.map_eq_cons_iff.mp hrest
  rw [List.map_eq_nil_iff.mp hmore] at hsecond
  rw [hsecond] at hcons
  simp only [Prod.mk.injEq] at hfirst hlast
  obtain ⟨-, hfailed, hquiet⟩ := hfirst
  obtain ⟨hpath, hfine, hwarned⟩ := hlast
  have hkept : [first, second].filter (·.error.isNone) = [second] := by
    rw [Option.isSome_eq_false_iff] at hfine
    simp [hfine, Option.isNone_eq_false_iff.mpr hfailed]
  refine ⟨_, pass, hok, rfl, htree, hreports, ?_, ?_, ?_, hverdict.mpr (.inl ?_), ?_⟩
  · rw [hfiles, hcons]
    rfl
  · simp [hfailures, hcons, hfailed, hfine]
  · simp [hwarnings, hcons, totalWarnings, hquiet, hwarned]
  · exact ⟨first, by simp [hcons], hfailed⟩
  · have hbase : mixedSettings.baseDirectory = none := rfl
    rw [hprinted, hcons, hkept, List.map_singleton, hpath, hbase, hcode]
    decide

end PugComponents.Project
