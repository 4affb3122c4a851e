import Mathlib.Data.List.Induction
import PugComponents.Distinct

/- First occurrences, where two elements count as one if they have the same key.
   The main fact is `distinctBy_concat`: an element at the end of a list is kept
   if its key is new. -/
namespace PugComponents

variable {α κ : Type} [BEq κ] [LawfulBEq κ] {key : α → κ}

/-- An element at the end is kept if its key is neither seen before nor in the list. -/
theorem distinctFrom_concat (seen list : List α) (a : α) :
    distinctFrom (fun x y => key x == key y) seen (list ++ [a]) =
      distinctFrom (fun x y => key x == key y) seen list ++
        if (seen ++ list).any (fun x => key a == key x) then [] else [a] := by
  induction list generalizing seen with
  | nil => by_cases h : seen.any fun x => key a == key x <;> simp [distinctFrom, h]
  | cons b list ih =>
    simp only [List.cons_append, distinctFrom]
    split
    · rename_i hseen
      rw [ih]
      -- an element with the key of `b` is among the seen ones, so `b` adds no key
      have hb : key a = key b → seen.any (fun x => key a == key x) := by
        intro hab
        simpa [hab] using hseen
      congr 2
      by_cases hab : key a = key b
      · simp [hb hab]
      · simp [hab]
    · rw [ih]
      have hany : ((b :: seen) ++ list).any (fun x => key a == key x) =
          (seen ++ b :: list).any (fun x => key a == key x) := by
        simp [Bool.or_left_comm]
      rw [hany, List.cons_append]

theorem distinctBy_concat (list : List α) (a : α) :
    distinctBy (fun x y => key x == key y) (list ++ [a]) =
      distinctBy (fun x y => key x == key y) list ++
        if list.any (fun x => key a == key x) then [] else [a] := by
  exact distinctFrom_concat [] list a

/-- The first occurrences have the keys of the list. -/
theorem any_distinctBy (list : List α) (a : α) :
    (distinctBy (fun x y => key x == key y) list).any (fun x => key a == key x) =
      list.any fun x => key a == key x := by
  induction list using List.reverseRecOn with
  | nil => rfl
  | append_singleton list b ih =>
    rw [distinctBy_concat]
    split
    · rename_i hb
      rw [List.append_nil, ih, List.any_append]
      by_cases hab : key a = key b
      · simp only [hab, hb, Bool.true_or]
      · simp [hab]
    · rw [List.any_append, List.any_append, ih]

/-- No two first occurrences have the same key. -/
theorem pairwise_distinctBy (list : List α) :
    (distinctBy (fun x y => key x == key y) list).Pairwise fun x y => key x ≠ key y := by
  induction list using List.reverseRecOn with
  | nil => exact List.Pairwise.nil
  | append_singleton list b ih =>
    rw [distinctBy_concat]
    split
    · rwa [List.append_nil]
    · rename_i hb
      rw [← any_distinctBy] at hb
      refine List.pairwise_append.mpr ⟨ih, List.pairwise_singleton _ _, ?_⟩
      intro x hx y hy
      obtain rfl := List.mem_singleton.mp hy
      intro hxy
      exact hb (List.any_eq_true.mpr ⟨x, hx, by simp [hxy]⟩)

/-- A key leads to the same element in a list and in its first occurrences. -/
theorem find?_distinctBy (list : List α) (k : κ) :
    (distinctBy (fun x y => key x == key y) list).find? (fun x => key x == k) =
      list.find? fun x => key x == k := by
  induction list using List.reverseRecOn with
  | nil => rfl
  | append_singleton list b ih =>
    rw [distinctBy_concat, List.find?_append, List.find?_append, ih]
    split
    · -- an element before `b` has the key of `b`, so `b` is found by no key
      rename_i hany
      cases hfind : list.find? fun x => key x == k with
      | some x => rfl
      | none =>
        obtain ⟨x, hx, hbx⟩ := List.any_eq_true.mp hany
        have hxk := List.find?_eq_none.mp hfind x hx
        simp_all
    · rfl

theorem mem_distinct [BEq α] [LawfulBEq α] {list : List α} {a : α} :
    a ∈ distinct list ↔ a ∈ list := by
  have h : (distinct list).any (a == ·) = list.any (a == ·) :=
    @any_distinctBy α α _ _ id list a
  simpa using congrArg (· = true) h

theorem distinct_concat [BEq α] [LawfulBEq α] (list : List α) (a : α) :
    distinct (list ++ [a]) = distinct list ++ if a ∈ list then [] else [a] := by
  have h : distinct (list ++ [a]) = distinct list ++ if list.any (a == ·) then [] else [a] :=
    @distinctBy_concat α α _ _ id list a
  simpa using h

/-- The keys of the first occurrences are the different keys of the list. -/
theorem map_distinctBy (list : List α) :
    (distinctBy (fun x y => key x == key y) list).map key = distinct (list.map key) := by
  induction list using List.reverseRecOn with
  | nil => rfl
  | append_singleton list b ih =>
    have hany : (list.any fun x => key b == key x) = true ↔ key b ∈ list.map key := by
      simp only [List.any_eq_true, beq_iff_eq, List.mem_map, @eq_comm κ (key b)]
    rw [distinctBy_concat, List.map_append, ih, List.map_append, List.map_singleton, distinct_concat]
    simp only [hany]
    split <;> rfl

theorem nodup_distinct [BEq α] [LawfulBEq α] (list : List α) : (distinct list).Nodup :=
  @pairwise_distinctBy α α _ _ id list

/-- What comes later in a list does not change the first occurrences before it. -/
theorem distinct_isPrefix_append [BEq α] [LawfulBEq α] (list more : List α) :
    distinct list <+: distinct (list ++ more) := by
  induction more using List.reverseRecOn with
  | nil => simp
  | append_singleton more a ih =>
    rw [← List.append_assoc, distinct_concat]
    exact ih.trans (List.prefix_append _ _)

/-- The first occurrences are what is left when duplicates are erased. -/
theorem distinct_eq_eraseDups [BEq α] [LawfulBEq α] (list : List α) : distinct list = list.eraseDups := by
  induction list using List.reverseRecOn with
  | nil => rfl
  | append_singleton list a ih =>
    rw [distinct_concat, List.eraseDups_append, ih]
    by_cases h : a ∈ list
    · simp [h, List.removeAll]
    · simp [h, List.removeAll, List.eraseDups_cons]

end PugComponents
