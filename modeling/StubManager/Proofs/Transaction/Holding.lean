import StubManager.Proofs.Registry.Confinement

/-!
# What a transaction can rely on

Between the beginning of a transaction and its end the world changes, but what is needed to bring
everything back remains (`Held`): the directories that paths go over, a file in the place of the
index, and the files outside of the home. Confined changes and saved files keep it.
-/

namespace StubManager

open Node World

namespace Registry

/-- The directories that the change of a stub moves or clears. A stub is kept while it is changed,
if there is one. -/
def Moved (home : List String) (part : String) (w : World) (t : List String) : Prop :=
  t = entryPlace home part ∨ t = entryPlace home (incomingName part) ∨
    t = entryPlace home (previousName part) ∧ w.root.DirAt (entryPlace home part)

theorem Moved.exists_entry {home t : List String} {part : String} {w : World}
    (h : Moved home part w t) : ∃ entry, t = entryPlace home entry := by
  obtain heq | heq | ⟨heq, -⟩ := h
  · exact ⟨_, heq⟩
  · exact ⟨_, heq⟩
  · exact ⟨_, heq⟩

/-- Whether a place is neither at nor below what the change of a stub moves. -/
def Clear (home : List String) (part : String) (w : World) (place : List String) : Prop :=
  ∀ t, Moved home part w t → ¬ t <+: place

end Registry

open Registry

/-- What remains of a world while a stub is changed and at most one file outside of the home is
edited. -/
structure Held (base : Path) (part : String) (edited : Option Path) (w w' : World) : Prop where
  cwd : w'.cwd = w.cwd
  plain : w'.root.Plain
  dir : ∀ place, Clear (base.place w.cwd) part w place → w.root.DirAt place → w'.root.DirAt place
  index : w.root.FileAt (indexPlace (base.place w.cwd)) →
    w'.root.FileAt (indexPlace (base.place w.cwd))
  noDirectory : ¬ w.root.DirAt (indexPlace (base.place w.cwd)) →
    ¬ w'.root.DirAt (indexPlace (base.place w.cwd))
  outside : ∀ place data mode, ¬ base.place w.cwd <+: place →
    (∀ p ∈ edited, place ≠ p.place w.cwd) → w.root.get? place = some (.file data mode) →
    w'.root.get? place = some (.file data mode)
  edited : ∀ p ∈ edited, ¬ base.place w.cwd <+: p.place w.cwd ∧ w'.root.FileAt (p.place w.cwd)

namespace Held

variable {base : Path} {part : String} {edited : Option Path} {w w' w'' : World}

theorem refl (hplain : w.root.Plain) : Held base part none w w :=
  ⟨rfl, hplain, fun _ _ h => h, id, id, fun _ _ _ _ _ h => h, by simp⟩

/-- A file outside of the home that is to be edited. -/
theorem edit (h : Held base part none w w') {p : Path}
    (hout : ¬ base.place w.cwd <+: p.place w.cwd) (hfile : w.root.FileAt (p.place w.cwd)) :
    Held base part (some p) w w' := by
  refine ⟨h.cwd, h.plain, h.dir, h.index, h.noDirectory, fun place data mode hplace _ =>
    h.outside place data mode hplace (by simp), ?_⟩
  rintro _ ⟨⟩
  obtain ⟨data, mode, hfile⟩ := hfile
  exact ⟨hout, data, mode, h.outside _ data mode hout (by simp) hfile⟩

theorem not_le_of_entry {entry : String} {place : List String}
    (h : ¬ base.place w.cwd <+: place) : ¬ entryPlace (base.place w.cwd) entry <+: place :=
  fun hle => h ((List.prefix_append _ _).trans hle)

theorem not_le_of_index {place : List String} (h : ¬ base.place w.cwd <+: place) :
    ¬ indexPlace (base.place w.cwd) <+: place :=
  fun hle => h ((List.prefix_append _ _).trans hle)

/-- Moving the directories beside the stubs. -/
theorem move (h : Held base part edited w w')
    (hframe : Frame (Moved (base.place w.cwd) part w) w' w'') : Held base part edited w w'' := by
  have hfile : ∀ place data mode, ¬ base.place w.cwd <+: place →
      w'.root.get? place = some (.file data mode) →
      w''.root.get? place = some (.file data mode) := by
    refine fun place data mode hplace => (hframe.file place data mode fun t ht => ?_).2
    obtain ⟨entry, rfl⟩ := ht.exists_entry
    exact not_le_of_entry hplace
  have hindex := index_of_frame hframe fun t => Moved.exists_entry
  refine ⟨hframe.cwd.trans h.cwd, hframe.plain h.plain, fun place hclear hdir => ?_, ?_, ?_,
    fun place data mode hplace hne hold => ?_, fun p hp => ?_⟩
  · exact hframe.dir place hclear (h.dir place hclear hdir)
  · rw [FileAt, FileAt, hindex]
    exact h.index
  · rw [DirAt, DirAt, hindex]
    exact h.noDirectory
  · exact hfile place data mode hplace (h.outside place data mode hplace hne hold)
  · obtain ⟨hout, data, mode, hold⟩ := h.edited p hp
    exact ⟨hout, data, mode, hfile _ data mode hout hold⟩

/-- Installing or removing the stub. -/
theorem confined (h : Held base part edited w w')
    (hconfined : Confined (base.place w.cwd) part w' w'') : Held base part edited w w'' := by
  have hnot : ∀ place, ¬ base.place w.cwd <+: place →
      ∀ t, Ground (base.place w.cwd) part t → ¬ t <+: place := by
    rintro place hplace t (rfl | rfl | rfl)
    · exact not_le_of_index hplace
    · exact not_le_of_entry hplace
    · exact not_le_of_entry hplace
  refine ⟨hconfined.frame.cwd.trans h.cwd, hconfined.frame.plain h.plain,
    fun place hclear hdir => ?_, fun hfile => hconfined.index (h.index hfile),
    fun hdir => hconfined.noDirectory (h.noDirectory hdir),
    fun place data mode hplace hne hold => ?_, fun p hp => ?_⟩
  · refine hconfined.dirAt ?_ (h.dir place hclear hdir)
    rintro entry (rfl | rfl)
    · exact hclear _ (.inl rfl)
    · exact hclear _ (.inr (.inl rfl))
  · exact (hconfined.frame.file place data mode (hnot place hplace)).2
      (h.outside place data mode hplace hne hold)
  · obtain ⟨hout, data, mode, hold⟩ := h.edited p hp
    exact ⟨hout, data, mode, (hconfined.frame.file _ data mode (hnot _ hout)).2 hold⟩

/-- Writing the index or the edited file anew. -/
theorem put (h : Held base part edited w w') {parent : List String} {name : String}
    (hplace : parent ++ [name] = indexPlace (base.place w.cwd) ∨
      ∃ p ∈ edited, parent ++ [name] = p.place w.cwd)
    (hfile : w'.root.FileAt (parent ++ [name])) (data : ByteArray) (mode : Bool) :
    Held base part edited w (w'.put (parent ++ [name]) (.file data mode)) := by
  obtain ⟨hplain, hnew, hsame, hdirs⟩ := h.plain.put_file hfile data mode
  have hother : ∀ place data' mode', place ≠ parent ++ [name] →
      w'.root.get? place = some (.file data' mode') →
      (w'.put (parent ++ [name]) (.file data mode)).root.get? place
        = some (.file data' mode') := by
    intro place data' mode' hne hold
    refine (hsame place fun hle => ?_).trans hold
    obtain ⟨old, oldMode, hfile⟩ := hfile
    exact FileAt.not_dirAt ⟨data', mode', hold⟩ (DirAt.of_get? hfile hle hne)
  have hindex : parent ++ [name] = indexPlace (base.place w.cwd) ∨
      (w'.put (parent ++ [name]) (.file data mode)).root.get? (indexPlace (base.place w.cwd))
        = w'.root.get? (indexPlace (base.place w.cwd)) := by
    refine hplace.imp_right ?_
    rintro ⟨p, hp, heq⟩
    exact hsame _ (heq ▸ not_le_of_index (h.edited p hp).1)
  refine ⟨h.cwd, hplain, fun place hclear hdir => hdirs place (h.dir place hclear hdir), ?_, ?_,
    fun place data' mode' hout hne hold => ?_, fun p hp => ?_⟩
  · obtain heq | hsame := hindex
    · exact fun _ => heq ▸ ⟨data, mode, hnew⟩
    · rw [FileAt, FileAt, hsame]
      exact h.index
  · obtain heq | hsame := hindex
    · exact fun _ => heq ▸ FileAt.not_dirAt ⟨data, mode, hnew⟩
    · rw [DirAt, DirAt, hsame]
      exact h.noDirectory
  · refine hother place data' mode' ?_ (h.outside place data' mode' hout hne hold)
    rintro rfl
    obtain heq | ⟨p, hp, heq⟩ := hplace
    · exact hout (heq ▸ List.prefix_append _ _)
    · exact hne p hp heq
  · obtain ⟨hout, data', mode', hold⟩ := h.edited p hp
    refine ⟨hout, ?_⟩
    by_cases heq : p.place w.cwd = parent ++ [name]
    · rw [heq]
      exact ⟨data, mode, hnew⟩
    · exact ⟨data', mode', hother _ data' mode' heq hold⟩

/-- Removing an index that was not there before. -/
theorem erase_index (h : Held base part edited w w')
    (hnone : ¬ w.root.FileAt (indexPlace (base.place w.cwd)))
    (hfile : w'.root.FileAt (indexPlace (base.place w.cwd))) :
    Held base part edited w (w'.erase (indexPlace (base.place w.cwd))) ∧
      (w'.erase (indexPlace (base.place w.cwd))).root.get? (indexPlace (base.place w.cwd)) = none ∧
      ∀ other, ¬ other <+: indexPlace (base.place w.cwd) →
        (w'.erase (indexPlace (base.place w.cwd))).root.get? other = w'.root.get? other := by
  have hnot := hfile.not_dirAt
  obtain ⟨old, oldMode, hold⟩ := hfile
  have hgone : (w'.erase (indexPlace (base.place w.cwd))).root.get?
      (indexPlace (base.place w.cwd)) = none := h.plain.get?_alter_self (dirAt_of_get? hold)
  have hsame : ∀ other, ¬ other <+: indexPlace (base.place w.cwd) →
      (w'.erase (indexPlace (base.place w.cwd))).root.get? other = w'.root.get? other :=
    fun other hother => get?_alter_of_leaf h.plain hnot (fun entries => by simp) hother
  have hother : ∀ place data mode, ¬ base.place w.cwd <+: place →
      w'.root.get? place = some (.file data mode) →
      (w'.erase (indexPlace (base.place w.cwd))).root.get? place = some (.file data mode) := by
    intro place data mode hout hfile
    refine (hsame place fun hle => ?_).trans hfile
    refine FileAt.not_dirAt ⟨data, mode, hfile⟩ (DirAt.of_get? hold hle ?_)
    rintro rfl
    exact hout (List.prefix_append _ _)
  refine ⟨⟨h.cwd, ?_, fun place hclear hdir => ?_, fun hfile => absurd hfile hnone, ?_,
    fun place data mode hout hne hold => ?_, fun p hp => ?_⟩, hgone, hsame⟩
  · exact ((Frame.refl (fun _ => True) w').erase trivial (List.prefix_refl _)).plain h.plain
  · refine (dirAt_alter_iff _ fun hle => hnot ?_).2 (h.dir place hclear hdir)
    exact (h.dir place hclear hdir).of_below hle
  · exact fun _ => not_dirAt_of_none hgone
  · exact hother place data mode hout (h.outside place data mode hout hne hold)
  · obtain ⟨hout, data, mode, hold⟩ := h.edited p hp
    exact ⟨hout, data, mode, hother _ data mode hout hold⟩

end Held

end StubManager
