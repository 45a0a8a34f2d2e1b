import StubManager.Proofs.FileTree.Moving
import StubManager.Registry.Store

/-!
# What changes with a stub

Installing and removing a stub changes the index, the directory of the stub and the one it comes in
by (`Ground`). `Confined` says so of two worlds, and `Store.Confined` of every way in which the
operations of a store can end.
-/

namespace StubManager

open Node Running World

namespace Registry

/-! ## Places -/

/-- The place of the index below a home. -/
def indexPlace (home : List String) : List String := home ++ [fileName]

/-- The place of an entry beside the stubs below a home. -/
def entryPlace (home : List String) (entry : String) : List String := home ++ [stubsName, entry]

/-- The entry that a stub comes in by. -/
def incomingName (part : String) : String := ".incoming-" ++ part

/-- The entry that the stub before is kept by. -/
def previousName (part : String) : String := ".previous-" ++ part

/-- The places that installing and removing a stub may change. -/
def Ground (home : List String) (part : String) (t : List String) : Prop :=
  t = indexPlace home ∨ t = entryPlace home part ∨ t = entryPlace home (incomingName part)

variable {home : List String} {part : String}

theorem entryPlace_eq (home : List String) (entry : String) :
    entryPlace home entry = home ++ [stubsName] ++ [entry] := by
  rw [List.append_assoc]
  rfl

theorem entryPlace_le_iff {entry other : String} :
    entryPlace home entry <+: entryPlace home other ↔ entry = other := by
  rw [entryPlace, entryPlace, List.prefix_append_right_inj]
  simp

theorem not_indexPlace_le_entryPlace (entry : String) :
    ¬ indexPlace home <+: entryPlace home entry := by
  rw [indexPlace, entryPlace, List.prefix_append_right_inj]
  simp [fileName, stubsName]

theorem not_entryPlace_le_indexPlace (entry : String) :
    ¬ entryPlace home entry <+: indexPlace home := by
  rw [indexPlace, entryPlace, List.prefix_append_right_inj]
  simp [fileName, stubsName]

theorem index_apart (entry : String) : ¬ entryPlace home entry <+: indexPlace home ∧
    ¬ indexPlace home <+: entryPlace home entry :=
  ⟨not_entryPlace_le_indexPlace entry, not_indexPlace_le_entryPlace entry⟩

theorem entries_apart {entry other : String} (h : entry ≠ other) :
    ¬ entryPlace home entry <+: entryPlace home other ∧
      ¬ entryPlace home other <+: entryPlace home entry :=
  ⟨mt entryPlace_le_iff.1 h, mt entryPlace_le_iff.1 h.symm⟩

/-- What changes beside the index leaves the index. -/
theorem index_of_frame {touched : List String → Prop} {w w' : World} (h : Frame touched w w')
    (htouched : ∀ t, touched t → ∃ entry, t = entryPlace home entry) :
    w'.root.get? (indexPlace home) = w.root.get? (indexPlace home) := by
  refine h.apart _ fun t ht => ?_
  obtain ⟨entry, rfl⟩ := htouched t ht
  exact index_apart entry

theorem incomingName_ne (part : String) : part ≠ incomingName part := by
  intro h
  have hlength := congrArg String.length h
  rw [incomingName, String.length_append] at hlength
  simp at hlength

theorem previousName_ne (part : String) : part ≠ previousName part := by
  intro h
  have hlength := congrArg String.length h
  rw [previousName, String.length_append] at hlength
  simp at hlength

theorem incomingName_ne_previousName (part : String) : incomingName part ≠ previousName part := by
  intro h
  have hlist := congrArg String.toList h
  rw [incomingName, previousName, String.toList_append, String.toList_append] at hlist
  simp at hlist

theorem isName_append {front part : String} {c : Char} {rest : List Char}
    (hfront : front.toList = '.' :: c :: rest) (hc : c ≠ '.') (hslash : '/' ∉ front.toList)
    (hpart : IsName part) : IsName (front ++ part) := by
  rw [IsName, ← String.toList_inj.ne, ← String.toList_inj.ne, ← String.toList_inj.ne,
    String.toList_append, List.mem_append, not_or]
  refine ⟨?_, ?_, ?_, hslash, hpart.2.2.2⟩ <;> rw [hfront] <;> simp [hc]

theorem isName_incomingName (h : IsName part) : IsName (incomingName part) :=
  isName_append rfl (by decide) (by decide) h

theorem isName_previousName (h : IsName part) : IsName (previousName part) :=
  isName_append rfl (by decide) (by decide) h

/-! ## Paths -/

/-- The directory of a stub. -/
def stubPath (base : Path) (part : String) : Path := (base.join stubsName).join part

theorem under_index (base : Path) : base.Under [] fileName (base.join fileName) :=
  .join_self base (by decide)

theorem under_stub (base : Path) (h : IsName part) :
    base.Under [stubsName] part (stubPath base part) :=
  (Path.Under.join_self base (by decide)).join h

/-- A stub lies below the home in a directory that its name determines. -/
theorem directory_eq_ok {registry : Registry} {name : String} {directory : Path}
    (h : registry.directory name = .ok directory) :
    IsName (directoryName name) ∧ directory = stubPath registry.home (directoryName name) := by
  rw [Registry.directory] at h
  split at h
  · next part hpart =>
    cases h
    obtain ⟨hname, rfl⟩ := Path.isName_of_plainName? hpart
    exact ⟨hname, rfl⟩
  · cases h

theorem footprint_eq_ok {registry : Registry} {name : String} {footprint : Footprint}
    (h : registry.footprint name = .ok footprint) : IsName (directoryName name) ∧
      footprint.files = [registry.home.join fileName] ∧
      footprint.directory = stubPath registry.home (directoryName name) := by
  rw [Registry.footprint] at h
  cases hdirectory : registry.directory name with
  | error failure =>
    rw [hdirectory] at h
    cases h
  | ok directory =>
    rw [hdirectory] at h
    cases h
    obtain ⟨hname, rfl⟩ := directory_eq_ok hdirectory
    exact ⟨hname, rfl, rfl⟩

/-! ## Worlds before and after -/

/-- What installing or removing a stub may do to the world. -/
structure Confined (home : List String) (part : String) (w w' : World) : Prop where
  frame : Frame (Ground home part) w w'
  /-- A file in the place of the stub remains, and none comes there. -/
  stub : ∀ data mode, w'.root.get? (entryPlace home part) = some (.file data mode) ↔
    w.root.get? (entryPlace home part) = some (.file data mode)
  index : w.root.FileAt (indexPlace home) → w'.root.FileAt (indexPlace home)
  noDirectory : ¬ w.root.DirAt (indexPlace home) → ¬ w'.root.DirAt (indexPlace home)
  directory : w.root.DirAt (indexPlace home) →
    w'.root.get? (indexPlace home) = w.root.get? (indexPlace home)

namespace Confined

variable {w w' w'' : World}

theorem refl (home : List String) (part : String) (w : World) : Confined home part w w :=
  ⟨.refl _ w, fun _ _ => Iff.rfl, id, id, fun _ => rfl⟩

theorem trans (h : Confined home part w w') (h' : Confined home part w' w'') :
    Confined home part w w'' where
  frame := h.frame.trans h'.frame
  stub data mode := (h'.stub data mode).trans (h.stub data mode)
  index hindex := h'.index (h.index hindex)
  noDirectory hindex := h'.noDirectory (h.noDirectory hindex)
  directory hindex := by
    have hsame := h.directory hindex
    have hindex' : w'.root.DirAt (indexPlace home) := by rwa [DirAt, hsame]
    exact (h'.directory hindex').trans hsame

theorem of_root_eq (hroot : w'.root = w.root) (hcwd : w'.cwd = w.cwd) :
    Confined home part w w' := by
  refine ⟨.of_root_eq hroot hcwd, fun _ _ => ?_, ?_, ?_, fun _ => ?_⟩
  · rw [hroot]
  · rw [hroot]
    exact id
  · rw [hroot]
    exact id
  · rw [hroot]

/-- Changes beside the index. -/
theorem of_entries
    (h : Frame (fun t => t = entryPlace home part ∨ t = entryPlace home (incomingName part)) w w')
    (hstub : ∀ data mode, w'.root.get? (entryPlace home part) = some (.file data mode) ↔
      w.root.get? (entryPlace home part) = some (.file data mode)) : Confined home part w w' := by
  have hindex := index_of_frame h fun t ht => ht.elim (⟨_, ·⟩) (⟨_, ·⟩)
  refine ⟨h.mono fun t ht => ⟨t, .inr ht, List.prefix_refl _⟩, hstub, ?_, ?_, fun _ => hindex⟩
  · rw [FileAt, FileAt, hindex]
    exact id
  · rw [DirAt, DirAt, hindex]
    exact id

theorem of_incoming (h : Frame (· = entryPlace home (incomingName part)) w w') :
    Confined home part w w' := by
  refine of_entries (h.mono fun t ht => ⟨t, .inr ht, List.prefix_refl _⟩) fun data mode => ?_
  rw [h.apart]
  rintro t rfl
  exact entries_apart (incomingName_ne part).symm

theorem of_index (h : Frame (· = indexPlace home) w w')
    (hindex : w.root.FileAt (indexPlace home) → w'.root.FileAt (indexPlace home))
    (hnot : ¬ w.root.DirAt (indexPlace home) → ¬ w'.root.DirAt (indexPlace home))
    (hdir : w.root.DirAt (indexPlace home) →
      w'.root.get? (indexPlace home) = w.root.get? (indexPlace home)) :
    Confined home part w w' := by
  refine ⟨h.mono fun t ht => ⟨t, .inl ht, List.prefix_refl _⟩, fun data mode => ?_, hindex, hnot,
    hdir⟩
  rw [h.apart]
  rintro t rfl
  exact (index_apart part).symm

/-- A directory remains if it lies neither in the stub nor in what that comes in by. -/
theorem dirAt (h : Confined home part w w') {place : List String}
    (hplace : ∀ entry, entry = part ∨ entry = incomingName part →
      ¬ entryPlace home entry <+: place) (hdir : w.root.DirAt place) : w'.root.DirAt place := by
  by_cases hindex : indexPlace home <+: place
  · obtain ⟨back, rfl⟩ := hindex
    rw [DirAt, get?_append] at hdir ⊢
    rwa [h.directory (DirAt.of_append (by rwa [DirAt, get?_append]))]
  · refine h.frame.dir place ?_ hdir
    rintro t (rfl | rfl | rfl)
    · exact hindex
    · exact hplace part (.inl rfl)
    · exact hplace _ (.inr rfl)

end Confined

/-- Whether a home is reached over directories that a change of a stub leaves alone. -/
structure Steady (base : Path) (part : String) (w : World) : Prop where
  plain : w.root.Plain
  turns : ∀ turn, base.TurnsAt w.cwd turn →
    w.root.DirAt turn ∧ ∀ entry, entry = part ∨ entry = incomingName part →
      ¬ entryPlace (base.place w.cwd) entry <+: turn

section

variable {base : Path} {w w' : World}

theorem Steady.confined (h : Steady base part w) (hw : Confined (base.place w.cwd) part w w') :
    Steady base part w' := by
  refine ⟨hw.frame.plain h.plain, ?_⟩
  rw [hw.frame.cwd]
  intro turn hturn
  obtain ⟨hdir, hclear⟩ := h.turns turn hturn
  exact ⟨hw.dirAt hclear hdir, hclear⟩

/-- What keeps the changes of a stub confined at every world on the way. -/
theorem keeps_confined {ε α : Type} (h : Steady base part w) {x : Action ε α}
    (hx : ∀ w', Steady base part w' → Confined (base.place w'.cwd) part w' (x w').2) :
    Keeps (Confined (base.place w.cwd) part w) x := by
  intro w' hw'
  have hstep := hx w' (h.confined hw')
  rw [hw'.frame.cwd] at hstep
  exact hw'.trans hstep

/-! ## Putting a stub in place -/

theorem place_of_under {entry : String} {p : Path} (h : base.Under [stubsName] entry p)
    (cwd : List String) : p.place cwd = entryPlace (base.place cwd) entry := h.place cwd

theorem place_stubPath (base : Path) (hpart : IsName part) (cwd : List String) :
    (stubPath base part).place cwd = entryPlace (base.place cwd) part :=
  place_of_under (under_stub base hpart) cwd

theorem confined_clear_stub (h : Steady base part w) (hpart : IsName part) :
    Confined (base.place w.cwd) part w (Files.stopping (Files.clear (stubPath base part)) w).2 := by
  rw [stopping_apply]
  have hframe := Files.frame_clear h.plain (stubPath base part)
  have hfile := Files.get?_clear_eq_file_iff h.plain (under_stub base hpart)
  rw [place_stubPath base hpart] at hframe hfile
  exact .of_entries (hframe.mono fun t ht => ⟨t, .inl ht, List.prefix_refl _⟩) hfile

theorem confined_clear_incoming (h : Steady base part w) {incoming : Path}
    (hincoming : base.Under [stubsName] (incomingName part) incoming) :
    Confined (base.place w.cwd) part w (Files.stopping (Files.clear incoming) w).2 := by
  rw [stopping_apply]
  have hframe := Files.frame_clear h.plain incoming
  rw [place_of_under hincoming] at hframe
  exact .of_incoming hframe

/-- The stub takes the place of a directory or of nothing. -/
theorem confined_rename (h : Steady base part w) (hpart : IsName part) {incoming : Path}
    (hincoming : base.Under [stubsName] (incomingName part) incoming)
    (hnew : Valid incoming → ¬ w.root.FileAt (entryPlace (base.place w.cwd) (incomingName part)))
    (hold : Valid (stubPath base part) →
      ¬ w.root.FileAt (entryPlace (base.place w.cwd) part)) :
    Confined (base.place w.cwd) part w (Files.rename incoming (stubPath base part) w).2 := by
  have hplace := place_stubPath base hpart w.cwd
  have hplace' := place_of_under hincoming w.cwd
  refine .of_entries (Files.keeps_rename h.plain (.inr rfl) (.inl rfl)
    (hplace' ▸ List.prefix_refl _) (hplace ▸ List.prefix_refl _) w (.refl _ w)) fun data mode => ?_
  obtain ⟨fault, hrun⟩ | ⟨-, -, hrun⟩ | ⟨parent, name, node, hat, -, hvalid, hvalid', hparent,
      hnode, -, hrun⟩ := Files.rename_cases h.plain incoming (stubPath base part)
  · rw [hrun]
  · rw [hrun]
  · have hnot := hnew hvalid
    have hnot' := hold hvalid'
    rw [hplace'] at hnode
    have herased : (w.erase (incoming.place w.cwd)).root.Plain :=
      ((Frame.refl (fun _ => True) w).erase trivial (List.prefix_refl _)).plain h.plain
    have hparent' : (w.erase (incoming.place w.cwd)).root.DirAt parent := by
      refine (dirAt_alter_iff _ fun hle => ?_).2 hparent
      rw [hplace] at hat
      rw [hplace'] at hle
      have hlt := hle.length_le
      have hlength := congrArg List.length hat
      simp only [entryPlace, List.length_append, List.length_cons, List.length_nil] at hlt hlength
      omega
    have hthere : (Files.rename incoming (stubPath base part) w).2.root.get?
        (entryPlace (base.place w.cwd) part) = some node := by
      rw [hrun, ← hplace, hat]
      exact herased.get?_alter_self hparent'
    rw [hthere]
    constructor
    · intro hfile
      exact absurd ⟨data, mode, hnode.trans hfile⟩ hnot
    · exact fun hfile => absurd ⟨data, mode, hfile⟩ hnot'

end

end Registry

end StubManager
