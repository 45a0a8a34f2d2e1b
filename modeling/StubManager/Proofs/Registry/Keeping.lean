import StubManager.Proofs.FileTree.Lasting
import StubManager.Proofs.Registry.Confinement

/-!
# What keeps an index

An index is read from the file at its place, over the directories where the path of the home turns
back. `Kept` says that both remain on the way from one world to another, `Guarded` that a file
remains at the place of the index, perhaps with other contents. Changes of other files keep an
index, and so does whatever happens to directories beside it (`enduring_kept`).
-/

namespace StubManager

open Node Running World

namespace Registry

variable {base : Path} {cwd t : List String} {w w' w'' : World}

/-! ## Places -/

/-- The places that a home is reached over: where its path turns back, and its own. -/
def OnWay (base : Path) (cwd place : List String) : Prop :=
  base.TurnsAt cwd place ∨ place = base.place cwd

/-- Whether a place is not above the index, nor the index itself, nor above the way there. -/
structure Beside (base : Path) (cwd t : List String) : Prop where
  way : ∀ place, OnWay base cwd place → ¬ t <+: place
  index : t ≠ indexPlace (base.place cwd)

theorem Beside.not_le_index (h : Beside base cwd t) : ¬ t <+: indexPlace (base.place cwd) := by
  rw [indexPlace, List.prefix_concat_iff]
  rintro (heq | hle)
  · exact h.index heq
  · exact h.way _ (.inr rfl) hle

theorem Beside.mono (h : Beside base cwd t) {t' : List String} (hle : t <+: t') :
    Beside base cwd t' where
  way other hother hle' := h.way other hother (hle.trans hle')
  index heq := h.not_le_index (heq ▸ hle)

theorem Beside.roomy (h : Beside base cwd t) :
    Roomy (fun _ => True) (· ≠ indexPlace (base.place cwd)) (Beside base cwd) t :=
  ⟨h, fun _ hle => ⟨trivial, (h.mono hle).index⟩⟩

/-! ## Worlds before and after -/

/-- What remains of the way to an index. -/
structure Remains (base : Path) (w w' : World) : Prop where
  cwd : w'.cwd = w.cwd
  tempDir : w'.tempDir = w.tempDir
  plain : w'.root.Plain
  dir : ∀ place, OnWay base w.cwd place → w.root.DirAt place → w'.root.DirAt place

/-- Whether an index has the contents that it had. -/
structure Kept (base : Path) (w w' : World) : Prop extends Remains base w w' where
  index : Valid (base.join fileName) → ∀ data,
    w'.root.HasFile (indexPlace (base.place w.cwd)) data ↔
      w.root.HasFile (indexPlace (base.place w.cwd)) data

/-- Whether an index that was a file is one still. -/
structure Guarded (base : Path) (w w' : World) : Prop extends Remains base w w' where
  index : Valid (base.join fileName) → w.root.FileAt (indexPlace (base.place w.cwd)) →
    w'.root.FileAt (indexPlace (base.place w.cwd))

theorem Remains.refl (base : Path) (hplain : w.root.Plain) : Remains base w w :=
  ⟨rfl, rfl, hplain, fun _ _ => id⟩

theorem Remains.trans (h : Remains base w w') (h' : Remains base w' w'') : Remains base w w'' where
  cwd := h'.cwd.trans h.cwd
  tempDir := h'.tempDir.trans h.tempDir
  plain := h'.plain
  dir place hplace hdir := h'.dir place (h.cwd ▸ hplace) (h.dir place hplace hdir)

theorem Kept.refl (base : Path) (hplain : w.root.Plain) : Kept base w w :=
  ⟨.refl base hplain, fun _ _ => Iff.rfl⟩

theorem Kept.trans (h : Kept base w w') (h' : Kept base w' w'') : Kept base w w'' where
  toRemains := h.toRemains.trans h'.toRemains
  index hvalid data := by
    have hindex := h'.index hvalid data
    rw [h.cwd] at hindex
    exact hindex.trans (h.index hvalid data)

theorem Kept.guarded (h : Kept base w w') : Guarded base w w' where
  toRemains := h.toRemains
  index hvalid := fun ⟨data, hfile⟩ => ⟨data, (h.index hvalid data).2 hfile⟩

theorem Guarded.trans (h : Guarded base w w') (h' : Guarded base w' w'') : Guarded base w w'' where
  toRemains := h.toRemains.trans h'.toRemains
  index hvalid hfile := by
    have hindex := h'.index hvalid
    rw [h.cwd] at hindex
    exact hindex (h.index hvalid hfile)

theorem Kept.of_root_eq (h : Kept base w w') (hroot : w''.root = w'.root) (hcwd : w''.cwd = w'.cwd)
    (htempDir : w''.tempDir = w'.tempDir) : Kept base w w'' where
  cwd := hcwd.trans h.cwd
  tempDir := htempDir.trans h.tempDir
  plain := hroot ▸ h.plain
  dir place hplace hdir := hroot ▸ h.dir place hplace hdir
  index hvalid data := hroot ▸ h.index hvalid data

/-! ## Changes of entries -/

section

variable {f : Option Node → Option Node}

theorem Remains.alter (h : Remains base w w')
    (hf : ∀ node, f (w'.root.get? t) = some node →
      (∀ name, t.getLast? = some name → IsName name) ∧ node.Plain)
    (hway : ∀ place, OnWay base w.cwd place → w'.root.DirAt place → ¬ t <+: place) :
    Remains base w (w'.alter f t) where
  cwd := h.cwd
  tempDir := h.tempDir
  plain := h.plain.alter hf
  dir place hplace hdir :=
    have hdir' := h.dir place hplace hdir
    (dirAt_alter_iff f (hway place hplace hdir')).2 hdir'

theorem Kept.alter (h : Kept base w w')
    (hf : ∀ node, f (w'.root.get? t) = some node →
      (∀ name, t.getLast? = some name → IsName name) ∧ node.Plain)
    (hway : ∀ place, OnWay base w.cwd place → w'.root.DirAt place → ¬ t <+: place)
    (hindex : ∀ data, (w'.alter f t).root.HasFile (indexPlace (base.place w.cwd)) data ↔
      w'.root.HasFile (indexPlace (base.place w.cwd)) data) : Kept base w (w'.alter f t) where
  toRemains := h.toRemains.alter hf hway
  index hvalid data := (hindex data).trans (h.index hvalid data)

/-- Changes beside an index. -/
theorem Kept.alter_beside (h : Kept base w w') (ht : Beside base w.cwd t)
    (hf : ∀ node, f (w'.root.get? t) = some node →
      (∀ name, t.getLast? = some name → IsName name) ∧ node.Plain) :
    Kept base w (w'.alter f t) :=
  h.alter hf (fun place hplace _ => ht.way place hplace) fun data =>
    exists_congr fun mode => get?_alter_eq_file_iff data mode f ht.not_le_index

theorem Kept.erase_beside (h : Kept base w w') (ht : Beside base w.cwd t) :
    Kept base w (w'.erase t) :=
  h.alter_beside ht fun _ heq => nomatch heq

theorem Kept.put_beside (h : Kept base w w') (ht : Beside base w.cwd t) {node : Node}
    (hname : ∀ name, t.getLast? = some name → IsName name) (hnode : node.Plain) :
    Kept base w (w'.put t node) :=
  h.alter_beside ht fun _ heq => Option.some.inj heq ▸ ⟨hname, hnode⟩

end

theorem not_le_of_dirAt (hnot : ¬ w.root.DirAt t) {place : List String}
    (hdir : w.root.DirAt place) : ¬ t <+: place :=
  fun hle => hnot (hdir.of_below hle)

/-- New directories and changes of files leave the way to an index. -/
theorem lasting_remains (base : Path) (w : World) :
    Lasting (Remains base w) w.cwd (fun _ => True) fun _ => True where
  cwd _ h := h.cwd
  plain _ h := h.plain
  made w' parent name h _ hname _ hvacant :=
    h.alter (fun _ heq => Option.some.inj heq ▸ ⟨by simpa using hname, plain_empty⟩)
      fun _ _ => not_le_of_dirAt (not_dirAt_of_none hvacant)
  written w' parent name data mode h _ hname _ hnot :=
    h.alter (fun _ heq => Option.some.inj heq ▸ ⟨by simpa using hname, plain_file _ _⟩)
      fun _ _ => not_le_of_dirAt hnot
  removed w' place h _ hfile :=
    h.alter (fun _ heq => nomatch heq) fun _ _ => not_le_of_dirAt hfile.not_dirAt

/-- A new directory is no index. -/
theorem hasFile_put_directory (hplain : w.root.Plain) {parent : List String} {name : String}
    (hname : IsName name) (hparent : w.root.DirAt parent)
    (hvacant : w.root.get? (parent ++ [name]) = none) (place : List String) (data : ByteArray) :
    (w.put (parent ++ [name]) (.directory [])).root.HasFile place data ↔
      w.root.HasFile place data := by
  refine exists_congr fun mode => ?_
  by_cases hle : parent ++ [name] <+: place
  · refine (frame_makeDirectory hplain hname hparent hvacant
      (hle.trans (List.prefix_append place [""]))).file place data mode ?_
    rintro t rfl hlonger
    have hlength := hlonger.length_le
    rw [List.length_append, List.length_singleton] at hlength
    omega
  · exact get?_alter_eq_file_iff data mode _ hle

/-- New directories, changes of other files and of what is beside it keep an index. -/
theorem enduring_kept (base : Path) (w : World) :
    Enduring (Kept base w) w.cwd (fun _ => True) (· ≠ indexPlace (base.place w.cwd))
      (Beside base w.cwd) where
  cwd _ h := h.cwd
  plain _ h := h.plain
  made w' parent name h _ hname hparent hvacant :=
    h.alter (fun _ heq => Option.some.inj heq ▸ ⟨by simpa using hname, plain_empty⟩)
      (fun _ _ => not_le_of_dirAt (not_dirAt_of_none hvacant))
      (hasFile_put_directory h.plain hname hparent hvacant _)
  written w' parent name data mode h hne hname _ hnot :=
    h.alter (fun _ heq => Option.some.inj heq ▸ ⟨by simpa using hname, plain_file _ _⟩)
      (fun _ _ => not_le_of_dirAt hnot)
      (hasFile_alter_of_leaf h.plain hnot (fun _ => by simp) hne)
  removed w' place h hne hfile :=
    h.alter (fun _ heq => nomatch heq) (fun _ _ => not_le_of_dirAt hfile.not_dirAt)
      (hasFile_alter_of_leaf h.plain hfile.not_dirAt (fun _ => by simp) hne)
  erased _ _ h hbeside := h.erase_beside hbeside
  put _ _ _ h hbeside := h.put_beside hbeside

/-! ## Homes that are found again -/

/-- What the names of temporary directories start with: those that stubs are staged in, and those
that stubs are copied to from a device. -/
def temporaryStems : List String := ["mpstubs-stage-", "mpstubs-create-"]

/-- Whether a home is found again after what is done to a registry: its path turns back at
directories, and none of them lies in an entry beside the stubs; and the home lies in no temporary
directory that is still to be made. -/
structure Settled (base : Path) (w : World) : Prop where
  plain : w.root.Plain
  turns : ∀ turn, base.TurnsAt w.cwd turn →
    w.root.DirAt turn ∧ ∀ entry, ¬ entryPlace (base.place w.cwd) entry <+: turn
  temporary : w.root.DirAt (base.place w.cwd) ∨
    ∀ stem ∈ temporaryStems, ∀ name ∈ Files.temporaryNames stem,
      ¬ w.tempDir.place w.cwd ++ [name] <+: base.place w.cwd

/-- A home whose path never turns back, and that is there. -/
theorem Settled.of_straight (hplain : w.root.Plain) (hstraight : ".." ∉ base.names)
    (hthere : w.root.DirAt (base.place w.cwd)) : Settled base w :=
  ⟨hplain, fun turn hturn => absurd hturn (Path.not_turnsAt_of_not_mem hstraight _ turn),
    .inl hthere⟩

namespace Settled

theorem remains (h : Settled base w) (hw : Remains base w w') : Settled base w' := by
  refine ⟨hw.plain, ?_, ?_⟩
  · rw [hw.cwd]
    exact fun turn hturn => (h.turns turn hturn).imp_left (hw.dir turn (.inl hturn))
  · rw [hw.cwd, hw.tempDir]
    exact h.temporary.imp_left (hw.dir _ (.inr rfl))

/-- What happens to an entry beside the stubs happens beside the index. -/
theorem beside_entry (h : Settled base w) (entry : String) :
    Beside base w.cwd (entryPlace (base.place w.cwd) entry) where
  way := by
    rintro place (hturn | rfl)
    · exact (h.turns place hturn).2 entry
    · intro hle
      have hlength := hle.length_le
      rw [entryPlace, List.length_append, List.length_cons] at hlength
      omega
  index heq := by
    have hnot : ¬ entryPlace (base.place w.cwd) entry <+: indexPlace (base.place w.cwd) :=
      (index_apart entry).1
    exact hnot (heq ▸ List.prefix_refl _)

/-- A temporary directory that is still to be made lies beside the index. -/
theorem beside_temporary (h : Settled base w) {stem name : String} (hstem : stem ∈ temporaryStems)
    (hname : name ∈ Files.temporaryNames stem)
    (hvacant : w.root.get? (w.tempDir.place w.cwd ++ [name]) = none) :
    Beside base w.cwd (w.tempDir.place w.cwd ++ [name]) where
  way := by
    have hdir : ∀ place, w.root.DirAt place → ¬ w.tempDir.place w.cwd ++ [name] <+: place :=
      fun place => not_le_of_dirAt (not_dirAt_of_none hvacant)
    rintro place (hturn | rfl)
    · exact hdir place (h.turns place hturn).1
    · exact h.temporary.elim (hdir _) (· stem hstem name hname)
  index heq := by
    have hother : ∀ stem ∈ temporaryStems, ¬ stem.toList <+: fileName.toList := by decide
    refine Files.ne_of_mem_temporaryNames (hother stem hstem) hname ?_
    exact (List.cons.inj (List.append_inj' heq rfl).2).1

theorem spacious (h : Settled base w) {stem : String} (hstem : stem ∈ temporaryStems) :
    Spacious (fun _ => True) (· ≠ indexPlace (base.place w.cwd)) (Beside base w.cwd) stem w :=
  ⟨fun _ _ => trivial, fun _ hname hvacant => (h.beside_temporary hstem hname hvacant).roomy⟩

theorem find?_index (h : Settled base w) (hvalid : Valid (base.join fileName)) :
    w.find? (base.join fileName) = w.root.get? (indexPlace (base.place w.cwd)) := by
  rw [find?_of_under h.plain (under_index base) (fun turn hturn => (h.turns turn hturn).1) hvalid,
    (under_index base).place]
  rfl

end Settled

/-! ## Files and trees -/

theorem keeps_replace {p : Path} (hp : p.place w.cwd ≠ indexPlace (base.place w.cwd))
    (data : ByteArray) : Keeps (Kept base w) (Files.replace p data) := by
  refine (enduring_kept base w).keeps_replace (fun _ _ => trivial) hp
    (fun _ name _ hname _ heq => ?_) data
  have hother : ¬ ".tmp".toList <+: fileName.toList := by decide
  refine Files.ne_of_mem_temporaryNames hother hname ?_
  exact (List.cons.inj (List.append_inj' heq rfl).2).1

/-- A stub is put in place over a home whose way is idle, if its own place is loose and there is
room where it comes in. -/
theorem keeps_place_of {I : World → Prop} {idle free loose : List String → Prop}
    (h : Enduring I cwd idle free loose) {part : String} (hpart : IsName part)
    (hway : ∀ place, base.Passes cwd place → idle place)
    (hstubs : idle (base.place cwd ++ [stubsName]))
    (hstub : loose (entryPlace (base.place cwd) part))
    (hroom : Roomy idle free loose (entryPlace (base.place cwd) (incomingName part)))
    (source : Path) : Keeps I (place source (stubPath base part)) := by
  have hunder := under_stub base hpart
  have hincoming := hunder.withFileName (isName_incomingName hpart)
  rw [← place_stubPath base hpart] at hstub
  rw [← place_of_under hincoming] at hroom
  have hidle : ∀ place, ((stubPath base part).withFileName (incomingName part)).Passes cwd place →
      idle place := by
    intro place hpasses
    obtain hpasses | ⟨more, hmore, rfl⟩ := hincoming.passes hpasses
    · exact hway place hpasses
    · rw [List.singleton_append, List.prefix_cons_iff] at hmore
      obtain rfl | ⟨more, rfl, hmore⟩ := hmore
      · exact hway _ (by simpa using base.passes_place cwd)
      · rw [List.prefix_cons_iff] at hmore
        obtain rfl | ⟨rest, rfl, hrest⟩ := hmore
        · exact hstubs
        · rw [List.prefix_nil.1 hrest]
          exact (hroom.below _ (hincoming.place cwd ▸ List.prefix_refl _)).1
  rw [place, hunder.fileName?]
  dsimp only [Option.getD_some]
  rw [← incomingName]
  refine ((h.keeps_clear hroom.loose).adapt _).bind fun _ _ _ _ => ?_
  refine (h.keeps_copyTree [] source hidle hroom.below).run.bind fun _ result _ _ => ?_
  cases result with
  | ok _ => exact (h.keeps_moveOver hroom.loose hstub).adapt _
  | error fault =>
    exact (h.keeps_removeTree hroom.loose).passing.bind fun _ _ _ _ => keeps_throw _

theorem keeps_place (h : Settled base w) {part : String} (hpart : IsName part) (source : Path) :
    Keeps (Kept base w) (place source (stubPath base part)) :=
  keeps_place_of (enduring_kept base w) hpart (fun _ _ => trivial) trivial
    (h.beside_entry part) (h.beside_entry _).roomy source

end Registry

end StubManager
