import PugComponents.Project.Loading
import PugComponents.Proofs.Template.References

/- What loading does with the references of a template. It looks them up in the order
   of the source, at whatever depth they stand, and stops at the first that leads to
   no file; when there is none, each reference of the tree holds the path it leads to,
   and nothing else has changed (`resolveNodes_eq`). So a template is loaded exactly if
   it can be read, has no faults, and all its references lead to files
   (`loadFrom_resolves`). -/
namespace PugComponents.Project

open Files
open Template
open Text

namespace Lookup

variable (l : Lookup)

/-- The path that a reference of a tree leads to. -/
def target (r : Reference) : String := l.candidate r.file.path r.template

/-- The reference leads to a file. -/
def finds (r : Reference) : Bool := l.files.isFile (l.target r)

/-- What is reported of a reference that leads to no file. -/
def missing (r : Reference) : LoadError := .unresolved l.file r.file.path (l.target r) r.span

/-- The reference with the path it leads to. -/
def found (template : Bool) (file : FileReference) : FileReference :=
  { file with resolved := some (l.candidate file.path template) }

theorem found_path (template : Bool) (file : FileReference) : (l.found template file).path = file.path := rfl

/-- The outcome of looking references up one after another for the sake of a value. -/
def outcome {α : Type} (refs : List Reference) (value : α) : Except LoadError α :=
  match refs.find? fun r => !l.finds r with
  | none => .ok value
  | some r => .error (l.missing r)

section

variable {α β : Type} {l} {refs : List Reference}

/-- Of two lists of references the second is looked up only if the first leads to files. -/
theorem outcome_bind {more : List Reference} {a : α} {b : β} {next : α → Except LoadError β}
    (h : next a = l.outcome more b) : (l.outcome refs a >>= next) = l.outcome (refs ++ more) b := by
  unfold outcome at h ⊢
  rw [List.find?_append]
  cases refs.find? fun r => !l.finds r with
  | none => exact h
  | some r => rfl

theorem outcome_map (refs : List Reference) (a : α) (f : α → β) :
    (l.outcome refs a >>= fun a => Except.ok (f a)) = l.outcome refs (f a) := by
  have hnone : (l.outcome refs a >>= fun a => Except.ok (f a)) = l.outcome (refs ++ []) (f a) :=
    outcome_bind rfl
  rw [hnone, List.append_nil]

theorem outcome_eq_ok {a b : α} :
    l.outcome refs a = .ok b ↔ (∀ r ∈ refs, l.finds r = true) ∧ a = b := by
  unfold outcome
  split
  · rename_i hnone
    rw [List.find?_eq_none] at hnone
    simp_all
  · rename_i r hsome
    have hmem := List.mem_of_find?_eq_some hsome
    have hmissing := List.find?_some hsome
    simp only [reduceCtorEq, false_iff, not_and]
    intro hall
    simp [hall r hmem] at hmissing

/-- The first reference that leads to no file is the one reported. -/
theorem outcome_of_not_found (a : α) (h : ∃ r ∈ refs, l.finds r = false) :
    ∃ before r after, refs = before ++ r :: after ∧ (∀ other ∈ before, l.finds other = true) ∧
      l.finds r = false ∧ l.outcome refs a = .error (l.missing r) := by
  obtain ⟨bad, hbad, hfinds⟩ := h
  cases hfind : refs.find? fun r => !l.finds r with
  | none =>
    have hall := List.find?_eq_none.mp hfind bad hbad
    simp [hfinds] at hall
  | some r =>
    obtain ⟨hr, before, after, hrefs, hbefore⟩ := List.find?_eq_some_iff_append.mp hfind
    refine ⟨before, r, after, hrefs, ?_, ?_, ?_⟩
    · intro other hother
      simpa using hbefore other hother
    · simpa using hr
    · rw [outcome, hfind]

end

theorem resolve_eq (file : FileReference) (span : Span) (template : Bool) :
    l.resolve file span template = l.outcome [⟨file, template, span⟩] (l.found template file) := by
  unfold resolve outcome
  cases h : l.finds ⟨file, template, span⟩ with
  | true =>
    have hfile : l.files.isFile (l.candidate file.path template) = true := h
    simp [h, hfile, found]
  | false =>
    have hfile : l.files.isFile (l.candidate file.path template) = false := h
    simp [h, hfile, missing, target]

mutual

-- A node that refers to a file has nothing below it, and every other one refers to what is below.
theorem resolveNode_eq : (node : Node) → l.resolveNode node =
    l.outcome (references (.node node :: node.inner)) (node.mapFiles l.found)
  | .includeFile .. | .extendsFile .. | .rawInclude .. => by
    rw [resolveNode, resolve_eq]
    exact outcome_map ..
  | .conditional _ consequent alternates _ => by
    rw [resolveNode, resolveNodes_eq consequent, resolveAlternates_eq alternates]
    simp only [outcome_map]
    rw [references_cons, Node.inner, references_append]
    exact outcome_bind rfl
  | .caseOf _ branches _ => by
    rw [resolveNode, resolveBranches_eq branches]
    exact outcome_map ..
  | .code _ _ nodes _ | .group nodes _ | .namedBlock _ _ nodes _ | .each _ _ _ nodes _
  | .whileLoop _ nodes _ | .mixinDefinition _ _ nodes _ | .mixinCall _ _ _ _ nodes _
  | .tag _ _ _ nodes _ _ => by
    rw [resolveNode, resolveNodes_eq nodes]
    exact outcome_map ..
  | .text .. | .comment .. | .doctype .. | .mixinBlock .. | .interpolatedTag .. | .filter .. => rfl

/-- Looking up the references of nodes is looking up their list, and gives the nodes with what was
found. -/
theorem resolveNodes_eq : (nodes : List Node) →
    l.resolveNodes nodes = l.outcome (references (partsOf nodes)) (mapFilesOf l.found nodes)
  | [] => rfl
  | node :: rest => by
    have hparts : partsOf (node :: rest) = (.node node :: node.inner) ++ partsOf rest := rfl
    rw [resolveNodes, resolveNode_eq node, resolveNodes_eq rest, hparts, references_append]
    exact outcome_bind (outcome_map ..)

theorem resolveAlternates_eq : (alternates : List Alternate) →
    l.resolveAlternates alternates =
      l.outcome (references (alternateParts alternates)) (mapFilesOfAlternates l.found alternates)
  | [] => rfl
  | .orElse nodes _ :: rest | .orIf _ nodes _ :: rest => by
    rw [resolveAlternates, resolveNodes_eq nodes, resolveAlternates_eq rest, alternateParts,
      references_cons, references_append]
    exact outcome_bind (outcome_map ..)

theorem resolveBranches_eq : (branches : List Branch) →
    l.resolveBranches branches =
      l.outcome (references (branchParts branches)) (mapFilesOfBranches l.found branches)
  | [] => rfl
  | .bare .. :: rest => by
    rw [resolveBranches, resolveBranches_eq rest]
    exact outcome_map ..
  | .block _ nodes _ :: rest => by
    rw [resolveBranches, resolveNodes_eq nodes, resolveBranches_eq rest, branchParts, references_cons,
      references_append]
    exact outcome_bind (outcome_map ..)

end

end Lookup

section

variable {files : FileSystem} {path source : String} {baseDirectory : Option String}

/-- A template without faults is loaded as its references are looked up. -/
theorem loadFrom_eq (hread : files.read path = .ok source) (hfaults : (Document.parse source).2 = []) :
    loadFrom files path baseDirectory =
      (Lookup.ofFile files path baseDirectory).outcome (Document.parse source).1.references
        ⟨path, source,
          (Document.parse source).1.mapFiles (Lookup.ofFile files path baseDirectory).found⟩ := by
  unfold loadFrom
  simp only [hread, hfaults, List.isEmpty_nil, Bool.not_true, Bool.false_eq_true, if_false,
    Lookup.resolveNodes_eq]
  exact Lookup.outcome_map _ _ fun nodes =>
    (⟨path, source, { (Document.parse source).1 with nodes := nodes }⟩ : LoadedFile)

/-- What is loaded was read and has no faults. -/
theorem read_of_loadFrom {loaded : LoadedFile} (h : loadFrom files path baseDirectory = .ok loaded) :
    ∃ source, files.read path = .ok source ∧ (Document.parse source).2 = [] := by
  unfold loadFrom at h
  split at h
  · cases h
  · rename_i source hread
    refine ⟨source, hread, ?_⟩
    cases hfaults : (Document.parse source).2 with
    | nil => rfl
    | cons fault faults => simp [hfaults] at h

end

/-- A template is loaded exactly if it can be read, has no faults and refers only to files. Each of
its references then holds the path it leads to, and the document is otherwise the one that was read.
A template that refers to something else is reported with the first such reference. -/
theorem loadFrom_resolves (files : FileSystem) (path : String) (baseDirectory : Option String) :
    let l := Lookup.ofFile files path baseDirectory
    ((∃ loaded, loadFrom files path baseDirectory = .ok loaded) ↔
      ∃ source, files.read path = .ok source ∧ (Document.parse source).2 = [] ∧
        ∀ r ∈ (Document.parse source).1.references, files.isFile (l.target r) = true) ∧
    (∀ loaded, loadFrom files path baseDirectory = .ok loaded →
      loaded.path = path ∧ files.read path = .ok loaded.source ∧
      loaded.document.unresolved = (Document.parse loaded.source).1.unresolved ∧
      ∀ r ∈ loaded.document.references, r.file.resolved = some (l.target r)) ∧
    ∀ source, files.read path = .ok source → (Document.parse source).2 = [] →
      (∃ r ∈ (Document.parse source).1.references, files.isFile (l.target r) = false) →
      ∃ before r after, (Document.parse source).1.references = before ++ r :: after ∧
        (∀ other ∈ before, files.isFile (l.target other) = true) ∧
        (∀ other ∈ after, r.span.start ≤ other.span.start) ∧
        files.isFile (l.target r) = false ∧
        loadFrom files path baseDirectory =
          .error (.unresolved path r.file.path (l.target r) r.span) := by
  intro l
  refine ⟨⟨?_, ?_⟩, ?_, ?_⟩
  · rintro ⟨loaded, hloaded⟩
    obtain ⟨source, hread, hfaults⟩ := read_of_loadFrom hloaded
    rw [loadFrom_eq hread hfaults] at hloaded
    exact ⟨source, hread, hfaults, (Lookup.outcome_eq_ok.mp hloaded).1⟩
  · rintro ⟨source, hread, hfaults, hfound⟩
    exact ⟨_, (loadFrom_eq hread hfaults).trans (Lookup.outcome_eq_ok.mpr ⟨hfound, rfl⟩)⟩
  · intro loaded hloaded
    obtain ⟨source, hread, hfaults⟩ := read_of_loadFrom hloaded
    rw [loadFrom_eq hread hfaults] at hloaded
    obtain ⟨-, rfl⟩ := Lookup.outcome_eq_ok.mp hloaded
    refine ⟨rfl, hread, unresolved_mapFiles l.found_path _, ?_⟩
    intro r hr
    rw [Document.references_mapFiles] at hr
    obtain ⟨written, -, rfl⟩ := List.mem_map.mp hr
    rfl
  · intro source hread hfaults hmissing
    have hfinds : ∃ r ∈ (Document.parse source).1.references, l.finds r = false := hmissing
    obtain ⟨before, r, after, hsplit, hbefore, hr, houtcome⟩ := Lookup.outcome_of_not_found
      (⟨path, source, (Document.parse source).1.mapFiles l.found⟩ : LoadedFile) hfinds
    have hordered := references_ordered source
    rw [hsplit] at hordered
    have hafter := (List.pairwise_cons.mp (List.pairwise_append.mp hordered).2.1).1
    exact ⟨before, r, after, hsplit, hbefore, hafter, hr, (loadFrom_eq hread hfaults).trans houtcome⟩

/-- A template whose references lead to files, and one that refers to files from an alternate, from a
branch and from the block of a mixin call, of which only the first is there. -/
def pages : FileSystem where
  read
    | "site/page.pug" => .ok "if a\n  p\nelse\n  include nav\ninclude /a.css"
    | "site/lost.pug" =>
      .ok "if a\n  p\nelse\n  include nav\ncase b\n  when 1\n    include /lost\n+c\n  include x"
    | _ => .error .notFound
  isFile path := ["site/nav.pug", "base/a.css"].contains path

/-- The first template is loaded, and the second is reported with the second of its references. -/
theorem pages_resolved :
    (∃ loaded, loadFrom pages "site/page.pug" (some "base") = .ok loaded ∧
      ∀ r ∈ loaded.document.references,
        r.file.resolved = some ((Lookup.ofFile pages "site/page.pug" (some "base")).target r)) ∧
    ∃ before r after,
      (Document.parse
        "if a\n  p\nelse\n  include nav\ncase b\n  when 1\n    include /lost\n+c\n  include x").1.references =
          before ++ r :: after ∧
      (∀ other ∈ before,
        pages.isFile ((Lookup.ofFile pages "site/lost.pug" (some "base")).target other) = true) ∧
      (∀ other ∈ after, r.span.start ≤ other.span.start) ∧
      pages.isFile ((Lookup.ofFile pages "site/lost.pug" (some "base")).target r) = false ∧
      loadFrom pages "site/lost.pug" (some "base") =
        .error (.unresolved "site/lost.pug" r.file.path
          ((Lookup.ofFile pages "site/lost.pug" (some "base")).target r) r.span) := by
  constructor
  · obtain ⟨hloads, hloaded, -⟩ := loadFrom_resolves pages "site/page.pug" (some "base")
    obtain ⟨loaded, hpage⟩ := hloads.mpr ⟨_, rfl, by decide +kernel, by decide +kernel⟩
    exact ⟨loaded, hpage, (hloaded loaded hpage).2.2.2⟩
  · obtain ⟨-, -, hlost⟩ := loadFrom_resolves pages "site/lost.pug" (some "base")
    exact hlost _ rfl (by decide +kernel) (by decide +kernel)

end PugComponents.Project
