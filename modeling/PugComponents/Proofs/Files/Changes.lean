import PugComponents.Files.Tree

/- How a file tree changes. Making directories and writing files takes nothing
   away: a directory stays a directory, a file stays a file, and only the files
   that are written get another content. `Changes t t' places` says so of a tree
   `t` that became `t'`. A path that leads somewhere therefore leads to the same
   place for good (`Changes.locate`), and a file that was written is read back at
   its path (`write_changes`). -/
namespace PugComponents.Files.FileTree

/-! ## One entry -/

variable {place : Location}

theorem lookup_replace_of_ne (entries : List (Location × Entry)) {other : Location}
    (h : other ≠ place) (entry : Entry) :
    (entries.map fun e => if e.1 == place then (place, entry) else e).lookup other =
      entries.lookup other := by
  induction entries with
  | nil => rfl
  | cons e rest ih =>
    obtain ⟨key, value⟩ := e
    rw [List.map_cons]
    by_cases hkey : key = place
    · subst hkey
      have hother : (other == key) = false := beq_false_of_ne h
      simp only [beq_self_eq_true, if_true, List.lookup_cons, hother]
      exact ih
    · rw [if_neg (by simpa using hkey), List.lookup_cons, List.lookup_cons, ih]

theorem lookup_replace_self {entries : List (Location × Entry)}
    (h : (entries.lookup place).isSome = true) (entry : Entry) :
    (entries.map fun e => if e.1 == place then (place, entry) else e).lookup place = some entry := by
  induction entries with
  | nil => cases h
  | cons e rest ih =>
    obtain ⟨key, value⟩ := e
    rw [List.map_cons]
    by_cases hkey : key = place
    · subst hkey
      simp
    · have hplace : (place == key) = false := beq_false_of_ne (Ne.symm hkey)
      rw [List.lookup_cons, hplace] at h
      rw [if_neg (by simpa using hkey), List.lookup_cons, hplace]
      exact ih h

/-- An entry that is put somewhere stands there, and the others stay as they are. -/
theorem at?_set (t : FileTree) (hplace : place ≠ []) (entry : Entry) (other : Location) :
    (t.set place entry).at? other = if other = place then some entry else t.at? other := by
  by_cases hroot : other = []
  · subst hroot
    rw [if_neg (Ne.symm hplace)]
    rfl
  have hat (t : FileTree) : t.at? other = t.entries.lookup other := by
    unfold at?
    rw [if_neg (by simpa using hroot)]
  rw [hat, hat]
  unfold set
  by_cases hthere : (t.entries.lookup place).isSome = true
  · rw [if_pos hthere]
    split
    · rename_i heq
      subst heq
      exact lookup_replace_self hthere entry
    · rename_i hne
      exact lookup_replace_of_ne t.entries hne entry
  · rw [if_neg hthere]
    rw [Bool.not_eq_true, Option.isSome_eq_false_iff, Option.isNone_iff_eq_none] at hthere
    split
    · rename_i heq
      subst heq
      simp [List.lookup_append, hthere]
    · rename_i hne
      have hother : (other == place) = false := beq_false_of_ne hne
      simp [List.lookup_append, List.lookup_cons, hother]

@[simp]
theorem set_workingDirectory (t : FileTree) (place : Location) (entry : Entry) :
    (t.set place entry).workingDirectory = t.workingDirectory := by
  unfold set
  split <;> rfl

/-! ## Changes -/

/-- Directories stay, files stay files, and a file that is not among the written places keeps its
content. -/
structure Changes (t t' : FileTree) (written : List Location) : Prop where
  workingDirectory : t'.workingDirectory = t.workingDirectory
  directory : ∀ {place : Location}, t.at? place = some .directory → t'.at? place = some .directory
  file : ∀ {place : Location} {content : Content}, t.at? place = some (.file content) →
    ∃ after, t'.at? place = some (.file after) ∧ (place ∉ written → after = content)

namespace Changes

variable {t t' t'' : FileTree} {written more : List Location}

theorem refl (t : FileTree) : Changes t t [] :=
  ⟨rfl, fun h => h, fun {_ content} h => ⟨content, h, fun _ => rfl⟩⟩

theorem trans (h : Changes t t' written) (h' : Changes t' t'' more) :
    Changes t t'' (written ++ more) where
  workingDirectory := h'.workingDirectory.trans h.workingDirectory
  directory := fun hplace => h'.directory (h.directory hplace)
  file := by
    intro place content hplace
    obtain ⟨middle, hmiddle, hkept⟩ := h.file hplace
    obtain ⟨after, hafter, hkept'⟩ := h'.file hmiddle
    refine ⟨after, hafter, fun hnot => ?_⟩
    rw [List.mem_append, not_or] at hnot
    exact (hkept' hnot.2).trans (hkept hnot.1)

/-- What stands somewhere does not go away. -/
theorem isSome (h : Changes t t' written) (hplace : (t.at? place).isSome = true) :
    (t'.at? place).isSome = true := by
  cases hentry : t.at? place with
  | none => rw [hentry] at hplace; cases hplace
  | some entry =>
    cases entry with
    | directory => rw [h.directory hentry]; rfl
    | file content =>
      obtain ⟨after, hafter, -⟩ := h.file hentry
      rw [hafter]
      rfl

/-- Segments that lead to a place lead there still. -/
theorem walk (h : Changes t t' written) {target : Location} {segments : List String}
    (hwalk : t.walk place segments = .ok target) : t'.walk place segments = .ok target := by
  induction segments generalizing place with
  | nil => exact hwalk
  | cons segment rest ih =>
    unfold FileTree.walk at hwalk
    split at hwalk
    · cases hwalk
    · cases hwalk
    · rename_i hplace
      unfold FileTree.walk
      rw [h.directory hplace]
      simp only
      split at hwalk
      · rename_i hidle
        rw [if_pos hidle]
        exact ih hwalk
      · rename_i hidle
        rw [if_neg hidle]
        split at hwalk
        · rename_i hup
          rw [if_pos hup]
          exact ih hwalk
        · rename_i hup
          rw [if_neg hup]
          split at hwalk
          · rename_i hthere
            rw [if_pos (h.isSome hthere)]
            exact ih hwalk
          · cases hwalk

theorem start (h : Changes t t' written) (path : String) : t'.start path = t.start path := by
  unfold FileTree.start
  rw [h.workingDirectory]

/-- A path that leads to a place leads there still. -/
theorem locate (h : Changes t t' written) {path : String} (hlocate : t.locate path = .ok place) :
    t'.locate path = .ok place := by
  unfold FileTree.locate at *
  split at hlocate
  · cases hlocate
  · rename_i hpath
    rw [if_neg hpath, h.start]
    exact h.walk hlocate

/-- A directory that is made where nothing stands changes nothing else. -/
theorem set_directory (hplace : place ≠ []) (hfree : t.at? place = none) :
    Changes t (t.set place .directory) [] := by
  have hother {other : Location} {entry : Entry} (hentry : t.at? other = some entry) :
      (t.set place .directory).at? other = some entry := by
    have hne : other ≠ place := by
      rintro rfl
      rw [hfree] at hentry
      cases hentry
    rw [at?_set t hplace, if_neg hne, hentry]
  exact ⟨set_workingDirectory t place _, hother, fun {_ content} hentry =>
    ⟨content, hother hentry, fun _ => rfl⟩⟩

/-- A file that is written where no directory stands changes nothing else. -/
theorem set_file (hplace : place ≠ []) (hfree : t.at? place ≠ some .directory) (content : Content) :
    Changes t (t.set place (.file content)) [place] where
  workingDirectory := set_workingDirectory t place _
  directory := by
    intro other hother
    have hne : other ≠ place := by
      rintro rfl
      exact hfree hother
    rw [at?_set t hplace, if_neg hne, hother]
  file := by
    intro other old hother
    rw [at?_set t hplace]
    by_cases hne : other = place
    · rw [if_pos hne]
      exact ⟨content, rfl, fun hnot => absurd hne (by simpa using hnot)⟩
    · rw [if_neg hne]
      exact ⟨old, hother, fun _ => rfl⟩

end Changes

/-! ## Directories -/

variable {t t' : FileTree} {path : String}

theorem makeDirectory_changes (h : t.makeDirectory path = .ok t') : Changes t t' [] := by
  unfold makeDirectory at h
  cases hparent : t.parentOf path with
  | error e => rw [hparent] at h; cases h
  | ok parent =>
    obtain ⟨place, name⟩ := parent
    simp only [hparent, bind, Except.bind] at h
    split at h
    · cases h
    · rename_i hfree
      cases h
      simp only [Bool.or_eq_true, not_or, Bool.not_eq_true, Option.isSome_eq_false_iff,
        Option.isNone_iff_eq_none] at hfree
      exact .set_directory (by simp) hfree.2

theorem ensureDirectory_changes (h : t.ensureDirectory path = .ok t') : Changes t t' [] := by
  unfold ensureDirectory at h
  split at h
  · rename_i hmade
    cases h
    exact makeDirectory_changes hmade
  · split at h
    · cases h
      exact .refl t
    · cases h

theorem makeDirectoriesFrom_changes {n : Nat} (h : makeDirectoriesFrom n t path = .ok t') :
    Changes t t' [] := by
  induction n generalizing t t' path with
  | zero => cases h
  | succ n ih =>
    unfold makeDirectoriesFrom at h
    split at h
    · cases h
      exact .refl t
    · split at h
      · -- the directory above is missing and is made first
        split at h
        · cases h
        · rename_i parent _
          cases habove : makeDirectoriesFrom n t parent with
          | error e => rw [habove] at h; cases h
          | ok above =>
            rw [habove] at h
            exact (ih habove).trans (ensureDirectory_changes h)
      · exact ensureDirectory_changes h

/-! ## Files -/

theorem walk_append (t : FileTree) (place : Location) (front back : List String) :
    t.walk place (front ++ back) = (t.walk place front).bind fun middle => t.walk middle back := by
  induction front generalizing place with
  | nil => rfl
  | cons segment rest ih =>
    rw [List.cons_append, walk, walk]
    split
    · rfl
    · rfl
    · split
      · exact ih _
      · split
        · exact ih _
        · split
          · exact ih _
          · rfl

/-- The directory of a path and the last segment, which is no empty one. -/
theorem parentOf_eq_ok {name : String} (h : t.parentOf path = .ok (place, name))
    (hlast : (Path.segments path).getLast? = some name) :
    ∃ front, Path.segments path = front ++ [name] ∧ name ≠ "" ∧
      t.walk (t.start path) front = .ok place ∧ t.at? place = some .directory := by
  obtain ⟨front, hsegments⟩ := List.getLast?_eq_some_iff.mp hlast
  unfold parentOf at h
  rw [hsegments, List.reverse_append] at h
  simp only [List.reverse_cons, List.reverse_nil, List.nil_append, List.singleton_append,
    List.dropWhile_cons] at h
  split at h
  · cases h
  · rename_i last before hdrop
    cases hwalk : t.walk (t.start path) before.reverse with
    | error e => rw [hwalk] at h; cases h
    | ok middle =>
      simp only [hwalk, bind, Except.bind] at h
      split at h
      · rename_i hdirectory
        cases h
        split at hdrop
        · rename_i hempty
          -- a name that is kept is not empty
          have hne := List.head?_dropWhile_not (· == "") front.reverse
          rw [hdrop] at hne
          rw [beq_iff_eq.mp hempty] at hne
          simp at hne
        · rename_i hne
          injection hdrop with _ hbefore
          subst hbefore
          rw [List.reverse_reverse] at hwalk
          exact ⟨front, hsegments, by simpa using hne, hwalk, hdirectory⟩
      · cases h
      · cases h

/-- A path leads to what its last segment names in the directory that the others lead to. -/
theorem locate_name {front : List String} {name : String}
    (hsegments : Path.segments path = front ++ [name])
    (hname : name ≠ "" ∧ name ≠ "." ∧ name ≠ "..") (hwalk : t.walk (t.start path) front = .ok place)
    (hdirectory : t.at? place = some .directory) (hthere : (t.at? (place ++ [name])).isSome = true) :
    t.locate path = .ok (place ++ [name]) := by
  obtain ⟨hempty, hdot, hdots⟩ := hname
  have hpath : path ≠ "" := by
    rintro rfl
    have hlast := congrArg List.getLast? hsegments
    rw [show Path.segments "" = [""] from rfl, List.getLast?_concat] at hlast
    exact hempty (Option.some.inj hlast).symm
  have hidle : Path.isIdle name = false := by
    simp [Path.isIdle, hempty, hdot]
  unfold locate
  rw [if_neg (by simpa using hpath), hsegments, walk_append, hwalk]
  show t.walk place [name] = _
  simp [walk, hdirectory, hidle, hdots, hthere]

/-- A file that is written is read at its path, and nothing else changes. -/
theorem write_changes {text : String} (h : t.write path text = .ok t') :
    ∃ place, Changes t t' [place] ∧ t'.locate path = .ok place ∧
      t'.at? place = some (.file (.text text)) := by
  unfold write at h
  cases hparent : t.parentOf path with
  | error e => rw [hparent] at h; cases h
  | ok parent =>
    obtain ⟨place, name⟩ := parent
    simp only [hparent, bind, Except.bind] at h
    split at h
    · cases h
    · rename_i hname
      simp only [Bool.or_eq_true, not_or, bne_iff_ne, ne_eq, Decidable.not_not, beq_iff_eq] at hname
      obtain ⟨⟨hlast, hdot⟩, hdots⟩ := hname
      obtain ⟨front, hsegments, hempty, hwalk, hdirectory⟩ := parentOf_eq_ok hparent hlast
      have hplace : place ++ [name] ≠ [] := by simp
      split at h
      · cases h
      · rename_i hfree
        cases h
        have hchanges : Changes t (t.set (place ++ [name]) (.file (.text text))) [place ++ [name]] :=
          .set_file hplace hfree (.text text)
        have hfile := at?_set t hplace (.file (.text text)) (place ++ [name])
        rw [if_pos rfl] at hfile
        refine ⟨place ++ [name], hchanges, ?_, hfile⟩
        apply locate_name hsegments ⟨hempty, hdot, hdots⟩
        · rw [hchanges.start]
          exact hchanges.walk hwalk
        · exact hchanges.directory hdirectory
        · rw [hfile]
          rfl

end PugComponents.Files.FileTree
