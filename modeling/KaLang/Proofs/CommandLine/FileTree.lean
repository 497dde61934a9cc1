import KaLang.CommandLine.FileTree
import KaLang.Proofs.Text.Parts

/-!
What a write does to a tree of files. It makes no directory and removes none, so every path leads
where it led before (`place?_of_write`); the file at the place that is written holds the text, and
what is at every other place stays as it is (`read_of_write`, `isFile_of_write`). A place that is
written is named by the last part of its path, so the path's ending is that of the name
(`ends_of_place?`).
-/

namespace KaLang.FileTree

variable {tree written : FileTree} {place other : Place} {path text : String}

/-! ### Entries -/

theorem lookup_cons (first : Place × FileEntry) (more : List (Place × FileEntry)) (other : Place) :
    (first :: more).lookup other = if other = first.1 then some first.2 else more.lookup other := by
  by_cases hfirst : other = first.1
  · rw [List.lookup_cons, beq_iff_eq.mpr hfirst, if_pos hfirst]
  · rw [List.lookup_cons, beq_eq_false_iff_ne.mpr hfirst, if_neg hfirst]

theorem lookup_put (entries : List (Place × FileEntry)) (place other : Place) (entry : FileEntry) :
    (put entries place entry).lookup other =
      if other = place then some entry else entries.lookup other := by
  induction entries with
  | nil => exact lookup_cons (place, entry) [] other
  | cons first more ih =>
    by_cases hplace : first.1 = place
    · rw [put, if_pos hplace, lookup_cons, lookup_cons, hplace]
      split_ifs <;> rfl
    · rw [put, if_neg hplace, lookup_cons, lookup_cons, ih]
      by_cases hfirst : other = first.1
      · rw [if_pos hfirst, if_neg (hfirst ▸ hplace), if_pos hfirst]
      · rw [if_neg hfirst, if_neg hfirst]

theorem mem_places_put {entries : List (Place × FileEntry)} {entry : FileEntry} :
    other ∈ (put entries place entry).map Prod.fst ↔
      other = place ∨ other ∈ entries.map Prod.fst := by
  induction entries with
  | nil => simp [put]
  | cons first more ih =>
    by_cases hfirst : first.1 = place
    · simp [put, hfirst]
    · simp only [put, if_neg hfirst, List.map_cons, List.mem_cons, ih]
      exact or_left_comm

theorem isDirectory_iff : tree.isDirectory place = true ↔
    place = [] ∨ tree.entry? place = some .directory ∨
      ∃ below ∈ tree.entries.map Prod.fst, place <+: below ∧ place ≠ below := by
  simp [isDirectory, or_assoc]

/-! ### Following a path -/

/-- Whether every place on the way to a place is a directory. -/
def Reaches (tree : FileTree) (place : Place) : Prop :=
  ∀ above, above <+: place → above ≠ place → tree.isDirectory above = true

theorem reaches_nil (tree : FileTree) : tree.Reaches [] :=
  fun _ habove hne => absurd (List.prefix_nil.mp habove) hne

theorem Reaches.concat (hreach : tree.Reaches place) (hplace : tree.isDirectory place = true)
    (name : String) : tree.Reaches (place ++ [name]) := by
  intro above habove hne
  rcases List.prefix_concat_iff.mp habove with rfl | habove
  · exact absurd rfl hne
  · by_cases hsame : above = place
    · exact hsame ▸ hplace
    · exact hreach above habove hsame

/-- The directory that a place is in has the way to the place before it, and is on it. -/
theorem Reaches.dropLast (hreach : tree.Reaches place) :
    tree.Reaches place.dropLast ∧ (place ≠ [] → tree.isDirectory place.dropLast = true) := by
  have hprefix : place.dropLast <+: place := List.dropLast_prefix place
  have hshort (hsome : place ≠ []) : place.dropLast ≠ place := by
    intro hsame
    have hlength := congrArg List.length hsame
    have hpos := List.length_pos_iff.mpr hsome
    rw [List.length_dropLast] at hlength
    omega
  refine ⟨fun above habove hne => hreach above (habove.trans hprefix) ?_,
    fun hsome => hreach _ hprefix (hshort hsome)⟩
  rintro rfl
  exact hne (habove.eq_of_length_le hprefix.length_le)

/-- Whether a part of a path leads to a directory that has been passed, and names nothing. -/
def Passes (part : String) : Prop := part = "" ∨ part = "." ∨ part = ".."

/-- One part of a path leads to a directory that has been passed, or to what the part names. -/
theorem follow_one (hreach : tree.Reaches place) {part : String}
    (hfollow : tree.follow place [part] = some other) :
    tree.Reaches other ∧
      (Passes part ∧ tree.isDirectory other = true ∨ ¬Passes part ∧ other = place ++ [part]) := by
  by_cases hplace : tree.isDirectory place = true
  · by_cases hsame : part = "" ∨ part = "."
    · have hother : place = other := by simpa [follow, hplace, hsame] using hfollow
      exact hother ▸ ⟨hreach, .inl ⟨by unfold Passes; tauto, hplace⟩⟩
    · by_cases hback : part = ".."
      · by_cases hroot : place = []
        · simp [follow, hback, hroot] at hfollow
        · have hother : place.dropLast = other := by
            simpa [follow, hplace, hback, hroot] using hfollow
          obtain ⟨habove, hdirectory⟩ := hreach.dropLast
          exact hother ▸ ⟨habove, .inl ⟨.inr (.inr hback), hdirectory hroot⟩⟩
      · have hother : isName part = true ∧ place ++ [part] = other := by
          simpa [follow, hplace, hsame, hback] using hfollow
        obtain ⟨-, rfl⟩ := hother
        exact ⟨hreach.concat hplace part, .inr ⟨by unfold Passes; tauto, rfl⟩⟩
  · simp [follow, hplace] at hfollow

/-- Parts are followed one after the other. -/
theorem follow_cons (tree : FileTree) (place : Place) (part : String) (more : List String) :
    tree.follow place (part :: more) =
      (tree.follow place [part]).bind fun next => tree.follow next more := by
  simp only [follow]
  split_ifs <;> rfl

theorem follow_append (tree : FileTree) (place : Place) (parts more : List String) :
    tree.follow place (parts ++ more) =
      (tree.follow place parts).bind fun next => tree.follow next more := by
  induction parts generalizing place with
  | nil => rfl
  | cons part parts ih =>
    rw [List.cons_append, follow_cons, follow_cons tree place part parts, Option.bind_assoc]
    exact Option.bind_congr fun next _ => ih next

theorem reaches_of_follow {parts : List String} (hreach : tree.Reaches place)
    (hfollow : tree.follow place parts = some other) : tree.Reaches other := by
  induction parts generalizing place with
  | nil => exact Option.some.inj hfollow ▸ hreach
  | cons part parts ih =>
    rw [follow_cons] at hfollow
    obtain ⟨next, hnext, hfollow⟩ := Option.bind_eq_some_iff.mp hfollow
    exact ih (follow_one hreach hnext).1 hfollow

theorem reaches_of_place? (hplace : tree.place? path = some place) : tree.Reaches place := by
  by_cases hroot : path.toList.head? = some '/'
  · simp [place?, hroot] at hplace
  · rw [place?, if_neg hroot] at hplace
    exact reaches_of_follow (reaches_nil tree) hplace

/-- Only the directories decide where a path leads. -/
theorem place?_congr (hdirectory : ∀ place, written.isDirectory place = tree.isDirectory place)
    (path : String) : written.place? path = tree.place? path := by
  have hfollow (parts : List String) (place : Place) :
      written.follow place parts = tree.follow place parts := by
    induction parts generalizing place with
    | nil => rfl
    | cons part parts ih => simp only [follow, hdirectory, ih]
  rw [place?, place?, hfollow]

/-- The last part of a path leads to a directory, or is the name of what is at the place. -/
theorem place?_cases {folders : List String} {last : String}
    (hparts : parts path = folders ++ [last]) (hplace : tree.place? path = some place) :
    Passes last ∧ tree.isDirectory place = true ∨
      ¬Passes last ∧ ∃ folder, place = folder ++ [last] := by
  by_cases hroot : path.toList.head? = some '/'
  · simp [place?, hroot] at hplace
  · rw [place?, if_neg hroot, hparts, follow_append] at hplace
    obtain ⟨folder, hfolder, hlast⟩ := Option.bind_eq_some_iff.mp hplace
    have hreach := reaches_of_follow (reaches_nil tree) hfolder
    exact (follow_one hreach hlast).2.imp_right (And.imp_right fun heq => ⟨folder, heq⟩)

/-- An ending that holds no slash is the end of a path's last part. -/
theorem exists_parts_append {ending : String} (hending : '/' ∉ ending.toList) (ahead : String) :
    ∃ (folders : List String) (start : String),
      parts (ahead ++ ending) = folders ++ [start ++ ending] := by
  obtain ⟨folders, last, hparts⟩ := exists_splitAtEach_append hending ahead.toList
  refine ⟨folders.map String.ofList, String.ofList last, ?_⟩
  simp [parts, hparts]

/-- Three characters and more are the end of no part that names nothing. -/
theorem not_passes_append {ending : String} (hlength : 2 < ending.length) (start : String) :
    ¬Passes (start ++ ending) := by
  have hlong : 2 < (start ++ ending).length := by
    rw [String.length_append]
    omega
  rintro (h | h | h) <;> rw [h] at hlong <;> contradiction

/-- Three characters and more that hold no slash end the name of what is at a place where they end
    its path. -/
theorem ends_of_place? {ahead ending : String} (hslash : '/' ∉ ending.toList)
    (hlength : 2 < ending.length) (hplace : tree.place? (ahead ++ ending) = some place) :
    ∃ folder start, place = folder ++ [start ++ ending] := by
  obtain ⟨folders, start, hparts⟩ := exists_parts_append hslash ahead
  rcases place?_cases hparts hplace with ⟨hpasses, -⟩ | ⟨-, folder, hfolder⟩
  · exact absurd hpasses (not_passes_append hlength start)
  · exact ⟨folder, start, hfolder⟩

/-! ### Writing -/

theorem write_eq_some_iff : tree.write path text = some written ↔
    ∃ place, tree.place? path = some place ∧ tree.isDirectory place = false ∧
      written = ⟨put tree.entries place (.file (some text))⟩ := by
  cases hplace : tree.place? path with
  | none => simp [write, hplace]
  | some place =>
    by_cases hdirectory : tree.isDirectory place = true
    · simp [write, hplace, hdirectory]
    · simp only [write, hplace, if_neg hdirectory, Option.some.injEq, exists_eq_left',
        Bool.not_eq_true] at hdirectory ⊢
      simp only [hdirectory, true_and, eq_comm]

/-- What is at a place when something has been put into the tree. -/
theorem entry?_put (tree : FileTree) (place other : Place) (entry : FileEntry) :
    FileTree.entry? ⟨put tree.entries place entry⟩ other =
      if other = place then some entry else tree.entry? other :=
  lookup_put tree.entries place other entry

/-- A write makes no directory and removes none. -/
theorem isDirectory_of_write (hwrite : tree.write path text = some written) (other : Place) :
    written.isDirectory other = tree.isDirectory other := by
  obtain ⟨place, hplace, hfree, rfl⟩ := write_eq_some_iff.mp hwrite
  have hreach := reaches_of_place? hplace
  rw [Bool.eq_iff_iff, isDirectory_iff, isDirectory_iff, entry?_put]
  constructor
  · rintro (hroot | hlisted | ⟨below, hbelow, habove⟩)
    · exact .inl hroot
    · by_cases hsame : other = place
      · simp [hsame] at hlisted
      · exact .inr (.inl (by simpa [hsame] using hlisted))
    · rcases mem_places_put.mp hbelow with rfl | hbelow
      · exact isDirectory_iff.mp (hreach other habove.1 habove.2)
      · exact .inr (.inr ⟨below, hbelow, habove⟩)
  · intro hold
    have hne : other ≠ place := by
      rintro rfl
      simp [isDirectory_iff.mpr hold] at hfree
    rcases hold with hroot | hlisted | ⟨below, hbelow, habove⟩
    · exact .inl hroot
    · exact .inr (.inl (by rwa [if_neg hne]))
    · exact .inr (.inr ⟨below, mem_places_put.mpr (.inr hbelow), habove⟩)

/-- After a write every path leads where it led before. -/
theorem place?_of_write (hwrite : tree.write path text = some written) (other : String) :
    written.place? other = tree.place? other :=
  place?_congr (isDirectory_of_write hwrite) other

/-- What a path leads to after a write: the text where it leads to the place that was written, and
    elsewhere what it led to before. -/
theorem entry_of_write (hwrite : tree.write path text = some written) (other : String) :
    (written.place? other).bind written.entry? =
      if tree.place? other = tree.place? path then some (.file (some text))
      else (tree.place? other).bind tree.entry? := by
  rw [place?_of_write hwrite]
  obtain ⟨place, hplace, -, rfl⟩ := write_eq_some_iff.mp hwrite
  rw [hplace]
  cases tree.place? other with
  | none => rfl
  | some found =>
    simp only [Option.some.injEq]
    exact entry?_put tree place found (.file (some text))

theorem read_of_write (hwrite : tree.write path text = some written) (other : String) :
    written.read other =
      if tree.place? other = tree.place? path then some text else tree.read other := by
  rw [read, entry_of_write hwrite, read]
  by_cases hsame : tree.place? other = tree.place? path <;> simp [hsame]

theorem isFile_of_write (hwrite : tree.write path text = some written) (other : String) :
    written.isFile other =
      if tree.place? other = tree.place? path then true else tree.isFile other := by
  rw [isFile, entry_of_write hwrite, isFile]
  by_cases hsame : tree.place? other = tree.place? path <;> simp [hsame]

end KaLang.FileTree
