import PugComponents.Proofs.Text.Respacing

/- Trimmed text: text that is not empty and that trimming leaves as it is. It starts and
   ends with characters that are no white space (`Trimmed.head`, `Trimmed.last`), and so
   does what has it at its end (`Trimmed.cons_append`). -/
namespace PugComponents.Text

variable {c : Char}

theorem trimStart_of_head (h : isWhiteSpace c = false) (cs : List Char) :
    trimStart (c :: cs) = c :: cs :=
  List.dropWhile_cons_of_neg (by simp [h])

/-- Text that is not empty and has no white space at its ends. -/
structure Trimmed (cs : List Char) : Prop where
  ne_nil : cs ≠ []
  trim_eq : trim cs = cs

theorem length_trimStart_le (cs : List Char) : (trimStart cs).length ≤ cs.length :=
  (List.dropWhile_suffix _).length_le

theorem length_trimEnd_le (cs : List Char) : (trimEnd cs).length ≤ cs.length := by
  have h := length_trimStart_le cs.reverse
  rwa [List.length_reverse, ← List.length_reverse] at h

variable {cs : List Char}

theorem Trimmed.head (h : Trimmed cs) : ∃ c rest, cs = c :: rest ∧ isWhiteSpace c = false := by
  obtain ⟨hne, htrim⟩ := h
  cases cs with
  | nil => exact absurd rfl hne
  | cons c rest =>
    refine ⟨c, rest, rfl, ?_⟩
    cases hc : isWhiteSpace c with
    | false => rfl
    | true =>
      -- White space at the front would be dropped.
      have hstart : trimStart (c :: rest) = trimStart rest := List.dropWhile_cons_of_pos hc
      have hlength := congrArg List.length htrim
      have hend := length_trimEnd_le (trimStart rest)
      have hrest := length_trimStart_le rest
      rw [trim, hstart, List.length_cons] at hlength
      omega

theorem Trimmed.last (h : Trimmed cs) : ∃ front c, cs = front ++ [c] ∧ isWhiteSpace c = false := by
  obtain ⟨first, rest, hcs, hfirst⟩ := h.head
  have hstart : trimStart cs = cs := hcs ▸ trimStart_of_head hfirst rest
  have htrim : trimEnd cs = cs := by
    rw [← hstart]
    exact h.trim_eq.trans hstart.symm
  rcases List.eq_nil_or_concat cs with hnil | ⟨front, c, rfl⟩
  · exact absurd hnil h.ne_nil
  · rw [List.concat_eq_append] at htrim ⊢
    refine ⟨front, c, rfl, ?_⟩
    cases hc : isWhiteSpace c with
    | false => rfl
    | true =>
      have hend : trimEnd (front ++ [c]) = trimEnd front :=
        Respacing.trimEnd_append_blank front (by simp [isBlank, hc])
      have hlength := congrArg List.length htrim
      have hfront := length_trimEnd_le front
      rw [hend, List.length_append, List.length_singleton] at hlength
      omega

/-- Text with other text at its front, which starts with no white space. -/
theorem Trimmed.cons_append (h : Trimmed cs) (hc : isWhiteSpace c = false) (front : List Char) :
    Trimmed (c :: (front ++ cs)) := by
  obtain ⟨before, last, rfl, hlast⟩ := h.last
  refine ⟨List.cons_ne_nil _ _, ?_⟩
  rw [trim, trimStart_of_head hc, ← List.append_assoc, ← List.cons_append, Respacing.trimEnd_concat _ hlast]

theorem trimEnd_append_cons (front : List Char) (hc : isWhiteSpace c = false) (more : List Char) :
    trimEnd (front ++ c :: more) = front ++ c :: trimEnd more := by
  have hkept : List.dropWhile isWhiteSpace (c :: front.reverse) = c :: front.reverse :=
    List.dropWhile_cons_of_neg (by simp [hc])
  unfold trimEnd
  rw [List.reverse_append, List.reverse_cons, List.append_assoc, List.singleton_append,
    List.dropWhile_append, hkept]
  split
  · rename_i hnone
    rw [List.isEmpty_iff.mp hnone]
    simp
  · simp

/-- White space in front of it does not count. -/
theorem Trimmed.trim_space (h : Trimmed cs) : trim (' ' :: cs) = cs := h.trim_eq

end PugComponents.Text
