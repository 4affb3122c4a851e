import PugComponents.Proofs.Project.Batches

/- One registry through many calls. A call records a context or transforms a document,
   and all that it does to the registry is to record at most one context
   (`Call.run_eq`). So a registry after any calls holds the contexts that were recorded
   first for their places, in that order (`runCalls_eq`, `files_insert_all`), and no
   call sees what the calls before it recorded. -/
namespace PugComponents.Project

open Component (Lower Module convert transform)
open Files
open Link (FileContext Registry)
open Script (SnippetReader)
open Template (Document)

/-- A call that may change a registry. -/
inductive Call
  | insert (context : FileContext)
  | transform (file : Option String) (d : Document)

namespace Call

/-- The context that a call records, also if it fails. -/
def recorded? : Call → Option FileContext
  | insert context => some context
  | transform (some path) d => some (.ofFile path d)
  | transform none _ => none

/-- Makes a call; only a transformation gives something back. -/
def run (reader : SnippetReader) : Call → StateM Registry (Option (Lower Module))
  | insert context => do
    modify fun registry => registry.insert context
    return none
  | transform file d => some <$> Component.transform reader file d

/-- What a call gives back does not depend on the registry. -/
def result? (reader : SnippetReader) : Call → Option (Lower Module)
  | insert _ => none
  | transform file d => some (convert reader file d)

/-- A call records its context and does nothing else to the registry. -/
theorem run_eq (reader : SnippetReader) (call : Call) (registry : Registry) :
    (call.run reader).run registry =
      (call.result? reader, call.recorded?.toList.foldl Registry.insert registry) := by
  cases call with
  | insert context => rfl
  | transform file d =>
    cases file with
    | none => rfl
    | some path => rfl

end Call

/-- Makes calls one after the other. -/
def runCalls (reader : SnippetReader) : List Call → StateM Registry (List (Option (Lower Module)))
  | [] => return []
  | call :: rest => do
    let result ← call.run reader
    let results ← runCalls reader rest
    return result :: results

/-- Calls record their contexts one after the other. -/
theorem runCalls_eq (reader : SnippetReader) (calls : List Call) (registry : Registry) :
    (runCalls reader calls).run registry =
      (calls.map (Call.result? reader), (calls.filterMap Call.recorded?).foldl Registry.insert registry) := by
  induction calls generalizing registry with
  | nil => rfl
  | cons call rest ih =>
    have hrun : (runCalls reader (call :: rest)).run registry =
        (((call.run reader).run registry).1 ::
            ((runCalls reader rest).run ((call.run reader).run registry).2).1,
          ((runCalls reader rest).run ((call.run reader).run registry).2).2) := rfl
    rw [hrun, Call.run_eq, ih]
    cases h : call.recorded? with
    | none => simp [h]
    | some context => simp [h]

/-! ## The registry -/

/-- What is known stays, and a new context is known from then on. -/
theorem get?_insert (registry : Registry) (c : FileContext) :
    (registry.insert c).get? c.path = some ((registry.get? c.path).getD c) := by
  cases hknown : registry.get? c.path with
  | some known =>
    rw [Registry.insert, hknown, Option.isSome_some, if_pos rfl, hknown]
    rfl
  | none =>
    rw [Registry.insert, hknown, Option.isSome_none, if_neg Bool.false_ne_true]
    unfold Registry.get? at hknown ⊢
    rw [List.find?_append, hknown, List.find?_singleton, if_pos (Path.same_iff.mpr rfl)]
    rfl

/-- Further contexts leave the files of a registry where they are. -/
theorem isPrefix_insert_all (contexts : List FileContext) (registry : Registry) :
    registry.files <+: (contexts.foldl Registry.insert registry).files := by
  induction contexts generalizing registry with
  | nil => exact List.prefix_rfl
  | cons c contexts ih =>
    have hstep : registry.files <+: (registry.insert c).files := by
      rw [files_insert]
      exact List.prefix_append _ _
    exact hstep.trans (ih (registry.insert c))

/-- A registry is written once, whatever calls are made on it. It lists the contexts that were recorded
first for their places, in that order, and finds them by their places; later calls only add to the
list. A transformation with a file is recorded, also if it fails, one without a file is not, and
neither gives something else than on a new registry. -/
theorem runCalls_write_once (reader : SnippetReader) (calls : List Call) :
    let recorded := calls.filterMap Call.recorded?
    let registry := ((runCalls reader calls).run .empty).2
    registry.files = distinctBy samePlace recorded ∧
    (∀ path, registry.get? path = recorded.find? fun c => Path.same c.path path) ∧
    registry.size = (recorded.map fun c => Path.components c.path).eraseDups.length ∧
    (∀ more, registry.files <+: ((runCalls reader (calls ++ more)).run .empty).2.files) ∧
    (∀ path d, ((transform reader (some path) d).run registry).2.get? path =
      some ((registry.get? path).getD (.ofFile path d))) ∧
    (∀ d, ((transform reader none d).run registry).2 = registry) ∧
    ((runCalls reader calls).run .empty).1 = calls.map fun call => ((call.run reader).run .empty).1 := by
  intro recorded registry
  have hregistry : registry = recorded.foldl Registry.insert .empty :=
    congrArg Prod.snd (runCalls_eq reader calls .empty)
  have hfiles : registry.files = distinctBy samePlace recorded := by
    rw [hregistry, files_insert_all]
  refine ⟨hfiles, ?_, ?_, ?_, ?_, fun d => rfl, ?_⟩
  · intro path
    rw [Registry.get?, hfiles]
    exact find?_distinctBy recorded (Path.components path)
  · calc registry.size
        = ((distinctBy samePlace recorded).map fun c => Path.components c.path).length := by
          rw [Registry.size, hfiles, List.length_map]
      _ = (distinct (recorded.map fun c => Path.components c.path)).length :=
          congrArg List.length (map_distinctBy recorded)
      _ = (recorded.map fun c => Path.components c.path).eraseDups.length := by
          rw [distinct_eq_eraseDups]
  · intro more
    rw [runCalls_eq, List.filterMap_append, List.foldl_append, ← hregistry]
    exact isPrefix_insert_all _ registry
  · exact fun path d => get?_insert registry (.ofFile path d)
  · rw [runCalls_eq]
    exact List.map_congr_left fun call _ => (congrArg Prod.fst (call.run_eq reader .empty)).symm

end PugComponents.Project
