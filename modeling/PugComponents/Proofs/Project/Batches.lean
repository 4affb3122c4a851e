import PugComponents.Project.Batch
import PugComponents.Proofs.Distinct

/- Batches, one template after the other. `convert_concat` says what one more
   template does to a batch, and the lemmas below follow the entries and the
   registry through a whole list of paths. A template gives what it gives alone,
   since no conversion looks into the registry (`convertFile_run`). Main statement (`convert_independent`):
   the result for a path is the one that the path's last spelling has alone, and
   the registry is made of the templates that load, whatever else is in the
   batch and in whatever order it fails. -/
namespace PugComponents.Files.Path

theorem same_comm (a b : String) : same a b = same b a := BEq.comm

theorem same_iff {a b : String} : same a b = true ↔ components a = components b := beq_iff_eq

end PugComponents.Files.Path

namespace PugComponents.Project

open Files
open Link (FileContext Registry)
open Script (SnippetReader)

/-- The context of the template at a path, if it can be loaded. -/
def loadedContext? (tree : FileTree) (baseDirectory : Option String) (path : String) :
    Option FileContext :=
  match load tree path baseDirectory with
  | .ok loaded => some (.ofFile path loaded.document)
  | .error _ => none

/-- What a template gives alone: its conversion with a new registry. -/
def convertAlone (tree : FileTree) (reader : SnippetReader) (baseDirectory : Option String)
    (path : String) : Except ConvertError Converted :=
  ((convertFile tree reader baseDirectory path).run .empty).1

/-- Two contexts are of the same place. -/
def samePlace (a b : FileContext) : Bool := Path.same a.path b.path

/-! ## One more context -/

/-- A context is recorded at the end, unless its path is known. -/
theorem files_insert (registry : Registry) (c : FileContext) :
    (registry.insert c).files =
      registry.files ++ if registry.files.any (samePlace c) then [] else [c] := by
  have hknown : (registry.get? c.path).isSome = registry.files.any (samePlace c) := by
    rw [Registry.get?, List.isSome_find?]
    exact congrArg registry.files.any (funext fun x => Path.same_comm x.path c.path)
  rw [Registry.insert, hknown]
  split
  · rw [List.append_nil]
  · rfl

/-- Of contexts recorded one after the other a registry keeps the first for each place. -/
theorem files_insert_all (contexts : List FileContext) :
    (contexts.foldl Registry.insert .empty).files = distinctBy samePlace contexts := by
  induction contexts using List.reverseRecOn with
  | nil => rfl
  | append_singleton contexts c ih =>
    have hany : (distinctBy samePlace contexts).any (samePlace c) = contexts.any (samePlace c) :=
      any_distinctBy contexts c
    rw [List.foldl_append]
    show (Registry.insert _ c).files = _
    rw [files_insert, ih, hany]
    exact (distinctBy_concat contexts c).symm

/-! ## One more result -/

theorem addEntry_paths (new : BatchEntry) (entries : List BatchEntry) :
    (addEntry new entries).map (·.path) =
      entries.map (·.path) ++
        if (entries.map (·.path)).any (Path.same new.path) then [] else [new.path] := by
  induction entries with
  | nil => simp [addEntry]
  | cons e rest ih =>
    unfold addEntry
    rw [Path.same_comm]
    split
    · rename_i h
      simp [BatchEntry.replace, h]
    · rename_i h
      rw [Bool.not_eq_true] at h
      rw [List.map_cons, ih, List.map_cons, List.any_cons, h, Bool.false_or, List.cons_append]

/-- An entry after one more result has that result, or is an entry for another path from before. -/
theorem mem_addEntry {new e : BatchEntry} {entries : List BatchEntry}
    (hdistinct : (entries.map (·.path)).Pairwise fun a b => Path.components a ≠ Path.components b)
    (h : e ∈ addEntry new entries) :
    (e.result = new.result ∧ Path.same e.path new.path = true) ∨
      (e ∈ entries ∧ Path.same e.path new.path = false) := by
  induction entries with
  | nil =>
    obtain rfl := List.mem_singleton.mp h
    exact .inl ⟨rfl, Path.same_iff.mpr rfl⟩
  | cons first rest ih =>
    obtain ⟨hfirst, hrest⟩ := List.pairwise_cons.mp hdistinct
    unfold addEntry at h
    split at h
    · rename_i hsame
      cases h with
      | head => exact .inl ⟨rfl, hsame⟩
      | tail _ h =>
        -- the entries behind the replaced one are for other paths
        have hne := hfirst e.path (List.mem_map_of_mem h)
        rw [Path.same_iff.mp hsame] at hne
        exact .inr ⟨List.mem_cons_of_mem _ h, beq_false_of_ne hne.symm⟩
    · rename_i hsame
      cases h with
      | head => exact .inr ⟨List.mem_cons_self, by simpa using hsame⟩
      | tail _ h =>
        rcases ih hrest h with h | ⟨h, hother⟩
        · exact .inl h
        · exact .inr ⟨List.mem_cons_of_mem _ h, hother⟩

namespace Batch

variable {tree : FileTree} {reader : SnippetReader} {baseDirectory : Option String}

/-! ## One more template -/

/-- The registry has no part in what a template gives, and keeps the context of one that loads. -/
theorem convertFile_run (path : String) (registry : Registry) :
    (convertFile tree reader baseDirectory path).run registry =
      (convertAlone tree reader baseDirectory path,
        (loadedContext? tree baseDirectory path).toList.foldl Registry.insert registry) := by
  unfold convertAlone convertFile loadedContext?
  cases load tree path baseDirectory with
  | error e => rfl
  | ok loaded =>
    simp only [Component.transform]
    generalize Component.convert reader (some path) loaded.document = converted
    obtain ⟨journal, result⟩ := converted
    cases result <;> rfl

theorem convert_concat (paths : List String) (path : String) :
    convert tree reader baseDirectory (paths ++ [path]) =
      ⟨addEntry ⟨path, convertAlone tree reader baseDirectory path⟩
          (convert tree reader baseDirectory paths).entries,
        (loadedContext? tree baseDirectory path).toList.foldl Registry.insert
          (convert tree reader baseDirectory paths).registry⟩ := by
  rw [convert, List.foldl_append, List.foldl_cons, List.foldl_nil, ← convert, add, convertFile_run]

/-! ## Whole batches -/

/-- There is one entry for each place, in the order and spelling of the first mention. -/
theorem paths_convert (paths : List String) :
    (convert tree reader baseDirectory paths).entries.map (·.path) = distinctBy Path.same paths := by
  induction paths using List.reverseRecOn with
  | nil => rfl
  | append_singleton paths path ih =>
    rw [convert_concat, addEntry_paths, ih]
    have hany : (distinctBy Path.same paths).any (Path.same path) = paths.any (Path.same path) :=
      any_distinctBy paths path
    rw [hany]
    exact (distinctBy_concat paths path).symm

/-- The result of an entry is that of the last spelling of its path. -/
theorem result_of_mem_convert {paths : List String} {e : BatchEntry}
    (h : e ∈ (convert tree reader baseDirectory paths).entries) :
    ∃ last, paths.reverse.find? (Path.same e.path) = some last ∧
      e.result = convertAlone tree reader baseDirectory last := by
  induction paths using List.reverseRecOn with
  | nil => cases h
  | append_singleton paths path ih =>
    rw [convert_concat] at h
    have hdistinct : ((convert tree reader baseDirectory paths).entries.map (·.path)).Pairwise
        fun a b => Path.components a ≠ Path.components b := by
      rw [paths_convert]
      exact pairwise_distinctBy paths
    rw [List.reverse_concat, List.find?_cons]
    rcases mem_addEntry hdistinct h with ⟨hresult, hsame⟩ | ⟨hmem, hother⟩
    · exact ⟨path, by rw [hsame], hresult⟩
    · obtain ⟨last, hlast, hresult⟩ := ih hmem
      exact ⟨last, by rw [hother]; exact hlast, hresult⟩

/-- The registry keeps, for each place, the context of the first spelling that loads. -/
theorem registry_convert (paths : List String) :
    (convert tree reader baseDirectory paths).registry.files =
      distinctBy samePlace (paths.filterMap (loadedContext? tree baseDirectory)) := by
  have hrecorded : (convert tree reader baseDirectory paths).registry =
      (paths.filterMap (loadedContext? tree baseDirectory)).foldl Registry.insert .empty := by
    induction paths using List.reverseRecOn with
    | nil => rfl
    | append_singleton paths path ih =>
      rw [convert_concat, ih, List.filterMap_append, List.foldl_append]
      cases h : loadedContext? tree baseDirectory path <;> simp [h]
  rw [hrecorded, files_insert_all]

/-- Batch independence. A batch has one entry for each place, in the order and spelling of its first
mention, and the entry holds what the last spelling of the place gives alone. The registry holds, for
each place that loads under some spelling, the context of the first such spelling. -/
theorem convert_independent (tree : FileTree) (reader : SnippetReader)
    (baseDirectory : Option String) (paths : List String) :
    (convert tree reader baseDirectory paths).entries.map (·.path) = distinctBy Path.same paths ∧
    (∀ e ∈ (convert tree reader baseDirectory paths).entries,
      ∃ last, paths.reverse.find? (Path.same e.path) = some last ∧
        (convert tree reader baseDirectory [last]).entries = [⟨last, e.result⟩]) ∧
    (convert tree reader baseDirectory paths).registry.files =
      distinctBy samePlace (paths.filterMap (loadedContext? tree baseDirectory)) := by
  refine ⟨paths_convert paths, ?_, registry_convert paths⟩
  intro e he
  obtain ⟨last, hlast, hresult⟩ := result_of_mem_convert he
  exact ⟨last, hlast, by rw [hresult]; rfl⟩

end Batch

end PugComponents.Project
