import Mathlib.Data.List.Pairwise
import PugComponents.Project.Pass
import PugComponents.Proofs.Files.Changes
import PugComponents.Proofs.Project.Batches

/- What a pass leaves in the file tree. The modules are written one after the
   other, and nothing keeps two of them apart: where several outputs lead to one
   file, the file holds the last of their modules, and a template that an output
   leads to is overwritten. That is all that can happen: a file that an output
   leads to holds the last module written there, and every other file stays as it
   was. -/
namespace PugComponents.Project

open Files
open Files.FileTree
open Script (SnippetReader)

/-! ## One module -/

/-- A module that is written is read at its path, and nothing else changes. -/
theorem writeModule_changes {tree tree' : FileTree} {path code : String}
    (h : writeModule tree path code = .ok tree') :
    ∃ place, Changes tree tree' [place] ∧ tree'.locate path = .ok place ∧
      tree'.at? place = some (.file (.text code)) := by
  have hready : ∀ ready, Changes tree ready [] → ready.write path code = .ok tree' →
      ∃ place, Changes tree tree' [place] ∧ tree'.locate path = .ok place ∧
        tree'.at? place = some (.file (.text code)) := by
    intro ready hchanges hwrite
    obtain ⟨place, hwritten, hlocate, hfile⟩ := write_changes hwrite
    exact ⟨place, hchanges.trans hwritten, hlocate, hfile⟩
  unfold writeModule at h
  split at h
  · rename_i parent _
    cases hmade : tree.makeDirectories parent with
    | error e => rw [hmade] at h; cases h
    | ok ready =>
      rw [hmade] at h
      exact hready ready (makeDirectoriesFrom_changes hmade) h
  · exact hready tree (.refl tree) h

/-- The module of the report was written to the place. -/
def FileReport.writtenAt (tree : FileTree) (place : Location) (r : FileReport) : Bool :=
  r.output.any fun path => (tree.locate path).toOption == some place

theorem writtenAt_iff {tree : FileTree} {place : Location} {r : FileReport} :
    r.writtenAt tree place = true ↔ ∃ path, r.output = some path ∧ tree.locate path = .ok place := by
  unfold FileReport.writtenAt
  cases r.output with
  | none => simp
  | some path =>
    cases hlocate : tree.locate path with
    | error e | ok other => simp [hlocate, Except.toOption]

/-! ## All modules -/

/-- What the delivery of templates does to a tree. -/
structure Delivered (batch : Batch) (templates : List TemplateFile) (tree after : FileTree)
    (reports : List FileReport) : Prop where
  /-- Only files that an output leads to are written. -/
  changes : ∃ written, Changes tree after written ∧
    ∀ place ∈ written, ∃ r ∈ reports, r.writtenAt after place = true
  /-- Every output leads to a file. -/
  located : ∀ r ∈ reports, ∀ path, r.output = some path → ∃ place, after.locate path = .ok place
  /-- A file that outputs lead to holds the last of their modules. -/
  last : ∀ {place : Location} {r : FileReport},
    reports.reverse.find? (·.writtenAt after place) = some r →
      ∃ c, batch.get? r.path = some (.ok c) ∧ after.at? place = some (.file (.text c.result.code))
  known : ∀ r ∈ reports, ∃ t ∈ templates, r.path = t.path

namespace Delivered

variable {batch : Batch} {t : TemplateFile} {templates : List TemplateFile} {tree after : FileTree}
  {reports : List FileReport} {r : FileReport}

theorem nil (batch : Batch) (tree : FileTree) : Delivered batch [] tree tree [] where
  changes := ⟨[], .refl tree, by simp⟩
  located := by simp
  last := by simp
  known := by simp

theorem skip (h : Delivered batch templates tree after reports) :
    Delivered batch (t :: templates) tree after reports where
  changes := h.changes
  located := h.located
  last := h.last
  known := by
    intro r hr
    obtain ⟨other, hother, hpath⟩ := h.known r hr
    exact ⟨other, List.mem_cons_of_mem _ hother, hpath⟩

/-- A report without an output stands in front. -/
theorem fail (h : Delivered batch templates tree after reports) (hpath : r.path = t.path)
    (hnone : r.output = none) : Delivered batch (t :: templates) tree after (r :: reports) where
  changes := by
    obtain ⟨written, hchanges, hwritten⟩ := h.changes
    refine ⟨written, hchanges, fun place hplace => ?_⟩
    obtain ⟨other, hother, hat⟩ := hwritten place hplace
    exact ⟨other, List.mem_cons_of_mem _ hother, hat⟩
  located := by
    intro other hother path houtput
    cases hother with
    | head => rw [hnone] at houtput; cases houtput
    | tail _ hother => exact h.located other hother path houtput
  last := by
    intro place other hfind
    have hfirst : r.writtenAt after place = false := by
      simp [FileReport.writtenAt, hnone]
    apply h.last
    simpa [List.find?_append, hfirst] using hfind
  known := by
    intro other hother
    cases hother with
    | head => exact ⟨t, List.mem_cons_self, hpath⟩
    | tail _ hother => exact h.skip.known other hother

/-- A module is written, and the others after it. -/
theorem write {ready : FileTree} {target : String} {c : Converted}
    (hwrite : writeModule tree target c.result.code = .ok ready)
    (h : Delivered batch templates ready after reports) (hpath : r.path = t.path)
    (houtput : r.output = some target) (hresult : batch.get? r.path = some (.ok c)) :
    Delivered batch (t :: templates) tree after (r :: reports) := by
  obtain ⟨place, hfirst, hlocate, hfile⟩ := writeModule_changes hwrite
  obtain ⟨written, hchanges, hwritten⟩ := h.changes
  have hafter : after.locate target = .ok place := hchanges.locate hlocate
  have hat : r.writtenAt after place = true := writtenAt_iff.mpr ⟨target, houtput, hafter⟩
  constructor
  case changes =>
    refine ⟨[place] ++ written, hfirst.trans hchanges, fun other hother => ?_⟩
    rcases List.mem_append.mp hother with hplace | hother
    · rw [List.mem_singleton.mp hplace]
      exact ⟨r, List.mem_cons_self, hat⟩
    · obtain ⟨report, hreport, hother⟩ := hwritten other hother
      exact ⟨report, List.mem_cons_of_mem _ hreport, hother⟩
  case located =>
    intro other hother path hpath
    cases hother with
    | head =>
      rw [houtput] at hpath
      cases hpath
      exact ⟨place, hafter⟩
    | tail _ hother => exact h.located other hother path hpath
  case last =>
    intro other report hfind
    rw [List.reverse_cons, List.find?_append] at hfind
    cases hlater : reports.reverse.find? (·.writtenAt after other) with
    | some later =>
      rw [hlater] at hfind
      cases hfind
      exact h.last hlater
    | none =>
      -- no later module goes to the place, so the file is as it was written
      rw [hlater, Option.none_or, List.find?_singleton] at hfind
      split at hfind
      · rename_i hother
        cases hfind
        obtain ⟨path, hpath, hotherPlace⟩ := writtenAt_iff.mp hother
        rw [houtput] at hpath
        cases hpath
        rw [hafter] at hotherPlace
        cases hotherPlace
        have hkept : place ∉ written := by
          intro hmem
          obtain ⟨later, hmem, hlaterAt⟩ := hwritten place hmem
          have hnone := List.find?_eq_none.mp hlater later (List.mem_reverse.mpr hmem)
          exact hnone hlaterAt
        obtain ⟨content, hcontent, hsame⟩ := hchanges.file hfile
        rw [hsame hkept] at hcontent
        exact ⟨c, hresult, hcontent⟩
      · cases hfind
  case known =>
    intro other hother
    cases hother with
    | head => exact ⟨t, List.mem_cons_self, hpath⟩
    | tail _ hother => exact h.skip.known other hother

end Delivered

theorem Delivery.cons_eq_ok {r : FileReport} {code printed : String} {d : Delivery} {after : FileTree}
    {reports : List FileReport} (h : d.cons r code = (after, .ok (reports, printed))) :
    ∃ reports' printed', d = (after, .ok (reports', printed')) ∧ reports = r :: reports' := by
  obtain ⟨tree, result⟩ := d
  cases result with
  | error e => cases h
  | ok result =>
    obtain ⟨reports', printed'⟩ := result
    cases h
    exact ⟨reports', printed', rfl, rfl⟩

/-- A delivery that ends well and prints nothing delivers its templates. -/
theorem deliver_delivered {s : Settings} {batch : Batch} (hstdout : s.stdout = false)
    {templates : List TemplateFile} {tree after : FileTree} {reports : List FileReport}
    {printed : String} (h : deliver s batch tree templates = (after, .ok (reports, printed))) :
    Delivered batch templates tree after reports := by
  induction templates generalizing tree reports printed with
  | nil =>
    cases h
    exact .nil batch _
  | cons t rest ih =>
    unfold deliver at h
    split at h
    · exact (ih h).skip
    · obtain ⟨reports', printed', hrest, rfl⟩ := Delivery.cons_eq_ok h
      exact (ih hrest).fail rfl rfl
    · rename_i c hresult
      rw [hstdout, if_neg (by simp)] at h
      simp only at h
      split at h
      · cases h
      · rename_i ready hwrite
        obtain ⟨reports', printed', hrest, rfl⟩ := Delivery.cons_eq_ok h
        exact (ih hrest).write hwrite rfl rfl hresult

/-! ## Passes -/

/-- In a batch of different paths each path has its own result. -/
theorem Batch.get?_convert {tree : FileTree} {reader : SnippetReader} {baseDirectory : Option String}
    {paths : List String}
    (hdistinct : paths.Pairwise fun a b => Path.components a ≠ Path.components b) {path : String}
    (hpath : path ∈ paths) :
    (Batch.convert tree reader baseDirectory paths).get? path =
      some (convertAlone tree reader baseDirectory path) := by
  have hlisted : ((Batch.convert tree reader baseDirectory paths).entries.map (·.path)).any
      (Path.same path) = true := by
    have hany : (distinctBy Path.same paths).any (Path.same path) = paths.any (Path.same path) :=
      any_distinctBy paths path
    rw [Batch.paths_convert, hany, List.any_eq_true]
    exact ⟨path, hpath, Path.same_iff.mpr rfl⟩
  obtain ⟨_, hmem, hsame⟩ := List.any_eq_true.mp hlisted
  obtain ⟨entry, hentry, rfl⟩ := List.mem_map.mp hmem
  unfold Batch.get?
  cases hfind : (Batch.convert tree reader baseDirectory paths).entries.find?
      fun e => Path.same e.path path with
  | none =>
    have hnone := List.find?_eq_none.mp hfind entry hentry
    rw [Path.same_comm] at hnone
    exact absurd hsame hnone
  | some e =>
    obtain ⟨last, hlast, hresult⟩ := Batch.result_of_mem_convert (List.mem_of_find?_eq_some hfind)
    have hfound : Path.same e.path path = true :=
      List.find?_some (p := fun e : BatchEntry => Path.same e.path path) hfind
    have hlastSame : Path.same e.path last = true := List.find?_some hlast
    rw [Path.same_iff] at hfound hlastSame
    -- the last spelling of the path is the only one
    have hlastPath : last = path := by
      by_contra hne
      have hlastMem : last ∈ paths := List.mem_reverse.mp (List.mem_of_find?_eq_some hlast)
      have : Std.Symm fun a b : String => Path.components a ≠ Path.components b :=
        ⟨fun _ _ h => h.symm⟩
      exact hdistinct.forall hlastMem hpath hne (hlastSame.symm.trans hfound)
    rw [Option.map_some, hresult, hlastPath]

/-- Different templates are found at different paths. -/
theorem discover_pairwise (tree : FileTree) (ignored : String → Bool) (paths : List String) :
    ((discover tree ignored paths).map (·.path)).Pairwise
      fun a b => Path.components a ≠ Path.components b := by
  rw [List.pairwise_map]
  unfold discover
  apply pairwise_distinctBy

theorem runPass_eq_ok {tree after : FileTree} {reader : SnippetReader} {patterns : PatternReader}
    {s : Settings} {pass : Pass} (h : runPass tree reader patterns s = (after, .ok pass)) :
    ∃ ignored, patterns (s.ignore ++ standardIgnores) = .ok ignored ∧
      deliver s (Batch.convert tree reader s.baseDirectory
          ((discover tree ignored s.paths).map (·.path))) tree (discover tree ignored s.paths) =
        (after, .ok (pass.reports, pass.printed)) := by
  unfold runPass at h
  split at h
  · cases h
  · rename_i ignored hignored
    refine ⟨ignored, hignored, ?_⟩
    simp only at h
    revert h
    generalize deliver s _ tree _ = delivery
    intro h
    obtain ⟨tree', result⟩ := delivery
    cases result with
    | error e => cases h
    | ok result =>
      obtain ⟨reports, printed⟩ := result
      cases h
      rfl

/-- **What a pass leaves behind.** For a pass that ends well and does not print: a report's output is
a file, which holds the module of the last report whose output leads to that file; and every file
that no output leads to, a template or any other, has the content that it had before. -/
theorem runPass_leaves_last_modules (tree after : FileTree) (reader : SnippetReader)
    (patterns : PatternReader) (s : Settings) (pass : Pass) (hstdout : s.stdout = false)
    (h : runPass tree reader patterns s = (after, .ok pass)) :
    (∀ r ∈ pass.reports, ∀ path, r.output = some path →
      ∃ place last c, after.locate path = .ok place ∧
        pass.reports.reverse.find? (·.writtenAt after place) = some last ∧
        convertAlone tree reader s.baseDirectory last.path = .ok c ∧
        after.read path = .ok c.result.code) ∧
    ∀ path place content, tree.locate path = .ok place → tree.at? place = some (.file content) →
      (∀ r ∈ pass.reports, r.writtenAt after place = false) →
        after.locate path = .ok place ∧ after.at? place = some (.file content) := by
  obtain ⟨ignored, -, hdeliver⟩ := runPass_eq_ok h
  have hdelivered := deliver_delivered hstdout hdeliver
  obtain ⟨written, hchanges, hwritten⟩ := hdelivered.changes
  constructor
  · intro r hr path houtput
    obtain ⟨place, hlocate⟩ := hdelivered.located r hr path houtput
    have hat : r.writtenAt after place = true := writtenAt_iff.mpr ⟨path, houtput, hlocate⟩
    cases hfind : pass.reports.reverse.find? (·.writtenAt after place) with
    | none =>
      have hnone := List.find?_eq_none.mp hfind r (List.mem_reverse.mpr hr)
      exact absurd hat hnone
    | some last =>
      obtain ⟨c, hresult, hfile⟩ := hdelivered.last hfind
      have hlast : last ∈ pass.reports := List.mem_reverse.mp (List.mem_of_find?_eq_some hfind)
      obtain ⟨t, ht, hpath⟩ := hdelivered.known last hlast
      rw [Batch.get?_convert (discover_pairwise tree ignored s.paths)
        (hpath ▸ List.mem_map_of_mem ht)] at hresult
      refine ⟨place, last, c, hlocate, hfind, Option.some.inj hresult, ?_⟩
      simp [FileTree.read, hlocate, hfile, bind, Except.bind]
  · intro path place content hlocate hfile hfree
    obtain ⟨content', hafter, hsame⟩ := hchanges.file hfile
    have hkept : place ∉ written := by
      intro hmem
      obtain ⟨r, hr, hat⟩ := hwritten place hmem
      rw [hfree r hr] at hat
      cases hat
    rw [hsame hkept] at hafter
    exact ⟨hchanges.locate hlocate, hafter⟩

/-- Two templates of the same name in two directories. -/
def twinTree : FileTree :=
  .ofFiles ["work"]
    [(["a", "x.pug"], .file (.text "p one\n")), (["b", "x.pug"], .file (.text "p two\n"))]

/-- The modules go to the directory of the second template and get its extension. -/
def twinSettings : Settings where
  workspace := "/work"
  paths := ["/work/a/x.pug", "/work/b/x.pug"]
  outDirectory := some "/work/b"
  extension := ".pug"
  ignore := []
  baseDirectory := none
  stdout := false
  format := .human
  failOnWarnings := false
  watch := false

/-- The module of a twin. -/
def twinCode (word : String) : String :=
  "export const X = () => \x7b\n  return <p>" ++ word ++ "</p>;\n\x7d;\n"

theorem exists_eq_ok {ε α β : Type} {x : Except ε α} {f : α → β} {b : β}
    (h : x.toOption.map f = some b) : ∃ a, x = .ok a ∧ f a = b := by
  cases x with
  | error e => cases h
  | ok a => exact ⟨a, rfl, Option.some.inj h⟩

/-- The pass over the twins reports both modules at the path of the second template. -/
theorem twin_reports : ∃ pass,
    runPass twinTree .standard excludedBy twinSettings =
        ((runPass twinTree .standard excludedBy twinSettings).1, .ok pass) ∧
      ∃ first second, pass.reports = [first, second] ∧
        (first.path = "/work/a/x.pug" ∧ first.output = some "/work/b/x.pug") ∧
        (second.path = "/work/b/x.pug" ∧ second.output = some "/work/b/x.pug") := by
  have hreports : (runPass twinTree .standard excludedBy twinSettings).2.toOption.map
      (fun pass => pass.reports.map fun r => (r.path, r.output)) =
        some [("/work/a/x.pug", some "/work/b/x.pug"), ("/work/b/x.pug", some "/work/b/x.pug")] := by
    decide +kernel
  obtain ⟨pass, hpass, hreports⟩ := exists_eq_ok hreports
  obtain ⟨first, rest, hcons, hfirst, hrest⟩ := List.map_eq_cons_iff.mp hreports
  obtain ⟨second, none, hrest, hsecond, hnone⟩ := List.map_eq_cons_iff.mp hrest
  rw [List.map_eq_nil_iff.mp hnone] at hrest
  rw [hrest] at hcons
  rw [Prod.mk.injEq] at hfirst hsecond
  refine ⟨pass, ?_, first, second, hcons, hfirst, hsecond⟩
  rw [← hpass]

/-- The last module is what the file holds, and the other template stays as it was. -/
theorem twinOutputs_hold_last_module :
    ∃ after pass, twinSettings.stdout = false ∧
      runPass twinTree .standard excludedBy twinSettings = (after, .ok pass) ∧
      (∃ c, convertAlone twinTree .standard none "/work/b/x.pug" = .ok c ∧
        after.read "/work/b/x.pug" = .ok c.result.code) ∧
      after.at? ["work", "a", "x.pug"] = some (.file (.text "p one\n")) := by
  obtain ⟨pass, hpass, first, second, hreports, ⟨-, hfirst⟩, hpath, hsecond⟩ := twin_reports
  obtain ⟨hmodules, hfiles⟩ := runPass_leaves_last_modules twinTree _ .standard _ twinSettings pass rfl hpass
  have hplace : ((runPass twinTree .standard excludedBy twinSettings).1.locate "/work/b/x.pug").toOption =
      some ["work", "b", "x.pug"] := by
    decide +kernel
  refine ⟨_, pass, rfl, hpass, ?_, ?_⟩
  · obtain ⟨place, last, c, hlocate, hlast, hcode, hread⟩ :=
      hmodules second (by simp [hreports]) _ hsecond
    have hwritten := writtenAt_iff.mpr ⟨_, hsecond, hlocate⟩
    rw [hreports] at hlast
    have hsame : second = last := by simpa [hwritten] using hlast
    rw [← hsame, hpath] at hcode
    exact ⟨c, hcode, hread⟩
  · refine (hfiles "/work/a/x.pug" ["work", "a", "x.pug"] (.text "p one\n") (by rfl) (by decide +kernel)
      ?_).2
    intro r hr
    have houtput : r.output = some "/work/b/x.pug" := by
      rw [hreports] at hr
      simp only [List.mem_cons, List.not_mem_nil, or_false] at hr
      rcases hr with rfl | rfl
      · exact hfirst
      · exact hsecond
    simp [FileReport.writtenAt, houtput, hplace]

/-- The module of the first template is lost, and so is the text of the second one. -/
theorem twinOutputs_lose_module_and_template :
    ∃ after pass, twinSettings.stdout = false ∧
      runPass twinTree .standard excludedBy twinSettings = (after, .ok pass) ∧
      (∃ r ∈ pass.reports, ∃ path c, r.output = some path ∧
        convertAlone twinTree .standard twinSettings.baseDirectory r.path = .ok c ∧
        after.read path ≠ .ok c.result.code) ∧
      ∃ ignored, excludedBy (twinSettings.ignore ++ standardIgnores) = .ok ignored ∧
        ∃ t ∈ discover twinTree ignored twinSettings.paths,
          twinTree.read t.path = .ok "p two\n" ∧ after.read t.path ≠ .ok "p two\n" := by
  obtain ⟨pass, hpass, first, second, hreports, ⟨hpath, houtput⟩, -, -⟩ := twin_reports
  have hread : ((runPass twinTree .standard excludedBy twinSettings).1.read "/work/b/x.pug").toOption =
      some (twinCode "two") := by
    decide +kernel
  have hne {text : String} (htext : text ≠ twinCode "two") :
      (runPass twinTree .standard excludedBy twinSettings).1.read "/work/b/x.pug" ≠ .ok text := by
    intro h
    rw [h] at hread
    exact htext (Option.some.inj hread)
  refine ⟨_, pass, rfl, hpass, ⟨first, by simp [hreports], ?_⟩, ?_⟩
  · have hcode : (convertAlone twinTree .standard none "/work/a/x.pug").toOption.map (·.result.code) =
        some (twinCode "one") := by
      decide +kernel
    obtain ⟨c, hc, hcode⟩ := exists_eq_ok hcode
    refine ⟨"/work/b/x.pug", c, houtput, by rw [hpath]; exact hc, hne ?_⟩
    rw [hcode]
    decide
  · have hfound : (excludedBy (twinSettings.ignore ++ standardIgnores)).toOption.map
        (fun ignored => discover twinTree ignored twinSettings.paths) =
          some [⟨"/work/a/x.pug", "x.pug"⟩, ⟨"/work/b/x.pug", "x.pug"⟩] := by
      decide +kernel
    obtain ⟨ignored, hignored, hfound⟩ := exists_eq_ok hfound
    refine ⟨ignored, hignored, ⟨"/work/b/x.pug", "x.pug"⟩, by simp [hfound], ?_, hne (by decide)⟩
    rfl

end PugComponents.Project
