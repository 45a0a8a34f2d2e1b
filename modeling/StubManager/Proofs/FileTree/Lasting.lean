import StubManager.Proofs.FileTree.Replacing

/-!
# What outlasts changes of files

A property of the world is `Lasting` if new directories keep it in the places that it leaves idle,
and changes of files in those that it leaves free. Operations on files keep such a property wherever
their paths turn back: main statements `Lasting.keeps_copyTree` and `Lasting.keeps_replace`. It is
`Enduring` if whatever happens to the loose places keeps it, so that directories can be removed and
moved there: `Enduring.keeps_removeTree` and `Enduring.keeps_moveOver`.
-/

namespace StubManager

open Node Running World Files

namespace Files

/-- A file is removed, and nothing else. -/
theorem removeFile_cases {w : World} (hplain : w.root.Plain) (p : Path) :
    (∃ fault, removeFile p w = (.error fault, w)) ∨
      w.root.FileAt (p.place w.cwd) ∧ removeFile p w = (.ok (), w.erase (p.place w.cwd)) := by
  rw [removeFile, bind_apply, orFault_apply]
  cases hlocate : w.locate false p with
  | error fault => exact .inl ⟨fault, rfl⟩
  | ok place =>
    cases place with
    | vacant parent name asDirectory => exact .inl ⟨_, rfl⟩
    | node place =>
      obtain ⟨rfl, -, -, -⟩ := (locate_eq_node_iff hplain).1 hlocate
      simp only [bind_apply, get_apply]
      cases hnode : w.root.get? (p.place w.cwd) with
      | none => exact .inl ⟨_, rfl⟩
      | some node =>
        cases node with
        | file data mode => exact .inr ⟨⟨data, mode, hnode⟩, rfl⟩
        | link target => exact absurd hnode (hplain.linkless _ _)
        | directory entries => exact .inl ⟨_, rfl⟩

end Files

/-- A property of the world that is kept by new directories in places that it leaves idle, and by
changes of files in places that it leaves free. -/
structure Lasting (I : World → Prop) (cwd : List String) (idle free : List String → Prop) :
    Prop where
  cwd : ∀ w, I w → w.cwd = cwd
  plain : ∀ w, I w → w.root.Plain
  made : ∀ w parent name, I w → idle (parent ++ [name]) → IsName name → w.root.DirAt parent →
    w.root.get? (parent ++ [name]) = none → I (w.put (parent ++ [name]) (.directory []))
  written : ∀ w parent name data mode, I w → free (parent ++ [name]) → IsName name →
    w.root.DirAt parent → ¬ w.root.DirAt (parent ++ [name]) →
    I (w.put (parent ++ [name]) (.file data mode))
  removed : ∀ w place, I w → free place → w.root.FileAt place → I (w.erase place)

namespace Lasting

variable {I : World → Prop} {cwd : List String} {idle free : List String → Prop} {p : Path}
variable {w : World}

theorem keeps_makeDirectory (h : Lasting I cwd idle free) (hidle : idle (p.place cwd)) :
    Keeps I (makeDirectory p) := by
  refine Files.keeps_makeDirectory h.plain fun w parent name hw hplace => ?_
  rw [h.cwd w hw] at hplace
  exact h.made w parent name hw (hplace ▸ hidle)

theorem keeps_makeDirectories (h : Lasting I cwd idle free)
    (hidle : ∀ place, p.Passes cwd place → idle place) : Keeps I (makeDirectories p) :=
  keeps_makeFirst fun _ hq => h.keeps_makeDirectory (hidle _ (Path.passes_of_ancestor hq cwd))

/-- A file that was written is there. -/
theorem writeWith_cases (h : Lasting I cwd idle free) (hw : I w) (hfree : free (p.place cwd))
    (executable : Option Bool) (data : ByteArray) :
    (∃ fault, writeWith executable p data w = (.error fault, w)) ∨
      ∃ w', writeWith executable p data w = (.ok (), w') ∧ I w' ∧
        w'.root.FileAt (p.place w'.cwd) := by
  have hplain := h.plain w hw
  rw [← h.cwd w hw] at hfree
  obtain ⟨fault, hrun⟩ | ⟨parent, name, hplace, hname, -, hparent, hvacant, hrun⟩ |
      ⟨old, mode, hfind, hrun⟩ := Files.writeWith_cases hplain executable p data
  · exact .inl ⟨fault, hrun⟩
  · have hthere : (w.put (parent ++ [name]) (.file data (executable.getD false))).root.get?
        (parent ++ [name]) = some (.file data (executable.getD false)) :=
      hplain.get?_alter_self hparent
    refine .inr ⟨_, hrun, ?_, _, _, (congrArg _ hplace).trans hthere⟩
    rw [hplace] at hfree
    exact h.written w parent name data _ hw hfree hname hparent (not_dirAt_of_none hvacant)
  · obtain ⟨name, hname, hends⟩ := endsWith_of_isFile hplain hfind
    obtain ⟨parent, hplace⟩ := Path.exists_place hname hends w.cwd
    have hfile := (locate_of_find? hplain hfind true).2
    rw [hplace] at hfile hfree hrun
    have hparent := dirAt_of_get? hfile
    have hthere : (w.put (parent ++ [name]) (.file data (executable.getD mode))).root.get?
        (parent ++ [name]) = some (.file data (executable.getD mode)) :=
      hplain.get?_alter_self hparent
    refine .inr ⟨_, hrun, ?_, _, _, (congrArg _ hplace).trans hthere⟩
    exact h.written w parent name data _ hw hfree hname hparent (FileAt.not_dirAt ⟨_, _, hfile⟩)

theorem keeps_writeWith (h : Lasting I cwd idle free) (hfree : free (p.place cwd))
    (executable : Option Bool) (data : ByteArray) : Keeps I (writeWith executable p data) := by
  intro w hw
  obtain ⟨fault, hrun⟩ | ⟨w', hrun, hw', -⟩ := h.writeWith_cases hw hfree executable data
  · rwa [hrun]
  · rwa [hrun]

theorem keeps_removeFile (h : Lasting I cwd idle free) (hfree : free (p.place cwd)) :
    Keeps I (removeFile p) := by
  intro w hw
  rw [← h.cwd w hw] at hfree
  obtain ⟨fault, hrun⟩ | ⟨hfile, hrun⟩ := removeFile_cases (h.plain w hw) p
  · rwa [hrun]
  · rw [hrun]
    exact h.removed w _ hw hfree hfile

/-- Moving a file keeps what writing and removing files keep. -/
theorem rename_file (h : Lasting I cwd idle free) {source target : Path}
    (hsource : free (source.place cwd)) (htarget : free (target.place cwd)) (hw : I w)
    (hfile : w.root.FileAt (source.place w.cwd)) : I (rename source target w).2 := by
  have hplain := h.plain w hw
  rw [← h.cwd w hw] at hsource htarget
  obtain ⟨fault, hrun⟩ | ⟨-, -, hrun⟩ |
      ⟨parent, name, node, hplace, hname, -, -, hparent, hnode, hreplace, hrun⟩ :=
    rename_cases hplain source target
  · rwa [hrun]
  · rwa [hrun]
  · rw [hrun]
    rw [hplace] at htarget hreplace ⊢
    have hnot : ∀ place, w.root.DirAt place → ¬ source.place w.cwd <+: place :=
      fun place hdir hle => hfile.not_dirAt (hdir.of_below hle)
    have herased : I (w.erase (source.place w.cwd)) := h.removed w _ hw hsource hfile
    obtain ⟨data, mode, hfile⟩ := hfile
    rw [hfile] at hnode
    cases hnode
    have hparent' : (w.erase (source.place w.cwd)).root.DirAt parent :=
      (dirAt_alter_iff _ (hnot parent hparent)).2 hparent
    refine h.written _ parent name data mode herased htarget hname hparent' fun hdir => ?_
    -- a directory there was there before, and a file does not replace one
    have hbefore : ¬ source.place w.cwd <+: parent ++ [name] := by
      rw [List.prefix_concat_iff]
      rintro (heq | hle)
      · have hgone : (w.erase (parent ++ [name])).root.get? (parent ++ [name]) = none :=
          hplain.get?_alter_self hparent
        rw [← heq] at hgone hdir
        exact not_dirAt_of_none hgone hdir
      · exact hnot parent hparent hle
    obtain ⟨entries, hentries⟩ := (dirAt_alter_iff _ hbefore).1 hdir
    rw [hentries] at hreplace
    cases hreplace

theorem keeps_copyFile (h : Lasting I cwd idle free) {source target : Path}
    (hfree : free (target.place cwd)) : Keeps I (copyFile source target) := by
  have hcopy : ∀ question : World → Bool, Keeps I (do
      let _ ← read source
      let executable ← ask question
      writeWith (some executable) target ByteArray.empty
      writeWith none target (← read source)) := by
    intro question
    refine (keeps_read _).bind fun _ _ _ _ => (keeps_ask _).bind fun _ _ _ _ => ?_
    refine (h.keeps_writeWith hfree _ _).bind fun _ _ _ _ => ?_
    exact (keeps_read _).bind fun _ _ _ _ => h.keeps_writeWith hfree _ _
  refine (keeps_ask _).bind fun _ isDirectory _ _ => ?_
  split
  · exact (keeps_throw _).bind fun _ _ _ _ => hcopy _
  · exact hcopy _

/-- Copying a directory keeps what lasts, if the way to the target is idle, and all below it idle
and free. -/
theorem keeps_copyTree (h : Lasting I cwd idle free) (exclude : List String) (source : Path)
    {target : Path} (hidle : ∀ place, target.Passes cwd place → idle place)
    (hfree : ∀ place, target.place cwd <+: place → idle place ∧ free place) :
    Keeps I (copyTree exclude source target) := by
  refine keeps_copyTreeWithin_of h.plain exclude
    (P := fun p => (∀ place, p.Passes cwd place → idle place) ∧
      ∀ place, p.place cwd <+: place → idle place ∧ free place)
    (fun target name ht hname => ?_) (fun target ht => h.keeps_makeDirectories ht.1)
    (fun source target name ht hname => ?_) pathLimit ⟨hidle, hfree⟩
  · refine ⟨fun place hplace => ?_, fun place hle => ?_⟩
    · obtain hplace | rfl := Path.passes_join hname hplace
      · exact ht.1 place hplace
      · exact (ht.2 _ (List.prefix_append _ _)).1
    · rw [Path.place_join target hname] at hle
      exact ht.2 place ((List.prefix_append _ _).trans hle)
  · refine h.keeps_copyFile ?_
    rw [Path.place_join target hname]
    exact (ht.2 _ (List.prefix_append _ _)).2

/-- A draft is moved in the place of a file, or it is taken back. -/
theorem replaceBy_of_free (h : Lasting I cwd idle free) {draft : Path}
    (hdraft : free (draft.place cwd)) (hp : free (p.place cwd)) (data : ByteArray) :
    Keeps I (replaceBy draft p data) := by
  intro w hw
  rw [replaceBy, bind_apply, write]
  obtain ⟨fault, hrun⟩ | ⟨w', hrun, hw', hfile⟩ := h.writeWith_cases hw hdraft none data
  · rwa [hrun]
  · rw [hrun]
    dsimp only
    have hmoved := h.rename_file hdraft hp hw' hfile
    rw [tryCatch_apply]
    generalize rename draft p w' = step at hmoved
    obtain ⟨result, w''⟩ := step
    cases result with
    | ok _ => exact hmoved
    | error fault =>
      have hremove : Keeps I (removeFile draft <|> pure () : FileAction Unit) :=
        (h.keeps_removeFile hdraft).tryCatch fun _ => keeps_pure _
      exact hremove.bind (fun _ _ _ _ => keeps_throw fault) w'' hmoved

/-- A draft with a new name needs to be free only where nothing is yet. -/
theorem replaceBy_of_fresh (h : Lasting I cwd idle free) {draft : Path} (hw : I w)
    (hdraft : w.root.get? (draft.place cwd) = none → free (draft.place cwd))
    (hfresh : ∀ place, w.locate false draft ≠ .ok (.node place)) (hp : free (p.place cwd))
    (data : ByteArray) : I (replaceBy draft p data w).2 := by
  by_cases hvacant : w.root.get? (draft.place cwd) = none
  · exact h.replaceBy_of_free (hdraft hvacant) hp data w hw
  · -- where something is that the path does not lead to, nothing is written
    have hplain := h.plain w hw
    rw [replaceBy, bind_apply, write]
    obtain ⟨fault, hrun⟩ | ⟨parent, name, hplace, -, -, -, hnone, -⟩ | ⟨old, mode, hfind, -⟩ :=
      Files.writeWith_cases hplain none draft data
    · rwa [hrun]
    · rw [h.cwd w hw] at hplace
      exact absurd (hplace ▸ hnone) hvacant
    · exact absurd (locate_of_find? hplain hfind false).1 (hfresh _)

/-- Replacing a file keeps what lasts, if the way to its directory is idle, its place is free, and
so are those of the drafts beside it where nothing is yet. -/
theorem keeps_replace (h : Lasting I cwd idle free)
    (hidle : ∀ place, (holder p).Passes cwd place → idle place) (hp : free (p.place cwd))
    (hdraft : ∀ w name, I w → name ∈ temporaryNames ".tmp" →
      w.root.get? ((holder p).place cwd ++ [name]) = none →
      free ((holder p).place cwd ++ [name]))
    (data : ByteArray) : Keeps I (replace p data) := by
  intro w hw
  refine after_bind (h.keeps_makeDirectories hidle w hw) fun _ w' _ hw' => ?_
  rw [bind_apply, ask_apply]
  dsimp only
  cases hname : freeName? (holder p) ".tmp" w' with
  | none => exact hw'
  | some name =>
    obtain ⟨hmem, hfresh⟩ := of_freeName? hname
    have hplace := Path.place_join (holder p)
      (isName_of_mem_temporaryNames (by decide) (by decide) hmem) cwd
    refine h.replaceBy_of_fresh hw' ?_ hfresh hp data
    rw [hplace]
    exact hdraft w' name hw' hmem

end Lasting

/-! ## Changes of trees -/

/-- A lasting property that is kept as well by whatever is put into a loose place or taken from
it. -/
structure Enduring (I : World → Prop) (cwd : List String) (idle free loose : List String → Prop) :
    Prop extends Lasting I cwd idle free where
  erased : ∀ w place, I w → loose place → I (w.erase place)
  put : ∀ w place node, I w → loose place →
    (∀ name, place.getLast? = some name → IsName name) → node.Plain → I (w.put place node)

namespace Enduring

variable {I : World → Prop} {cwd : List String} {idle free loose : List String → Prop}
variable {p source target : Path}

theorem keeps_removeTree (h : Enduring I cwd idle free loose) (hp : loose (p.place cwd)) :
    Keeps I (removeTree p) := by
  intro w hw
  rw [← h.cwd w hw] at hp
  obtain ⟨fault, hrun⟩ | ⟨entries, -, hrun⟩ := removeTree_cases (h.plain w hw) p
  · rwa [hrun]
  · rw [hrun]
    exact h.erased w _ hw hp

theorem keeps_rename (h : Enduring I cwd idle free loose) (hsource : loose (source.place cwd))
    (htarget : loose (target.place cwd)) : Keeps I (rename source target) := by
  intro w hw
  rw [← h.cwd w hw] at hsource htarget
  obtain ⟨fault, hrun⟩ | ⟨-, -, hrun⟩ |
      ⟨parent, name, node, hplace, hname, -, -, -, hnode, -, hrun⟩ :=
    rename_cases (h.plain w hw) source target
  · rwa [hrun]
  · rwa [hrun]
  · rw [hrun]
    refine h.put _ _ node (h.erased w _ hw hsource) htarget ?_ ((h.plain w hw).of_get? hnode)
    rw [hplace]
    simpa using hname

theorem keeps_clear (h : Enduring I cwd idle free loose) (hp : loose (p.place cwd)) :
    Keeps I (clear p) := by
  refine (keeps_ask _).bind fun _ isThere _ _ => ?_
  split
  · exact h.keeps_removeTree hp
  · exact keeps_pure _

theorem keeps_moveOver (h : Enduring I cwd idle free loose) (hsource : loose (source.place cwd))
    (htarget : loose (target.place cwd)) : Keeps I (moveOver source target) :=
  (h.keeps_clear htarget).bind fun _ _ _ _ => h.keeps_rename hsource htarget

end Enduring

/-! ## Temporary directories -/

/-- Whether a property leaves a place alone together with all below it. -/
structure Roomy (idle free loose : List String → Prop) (place : List String) : Prop where
  loose : loose place
  below : ∀ other, place <+: other → idle other ∧ free other

/-- Whether a property leaves the temporary directories of a stem alone that can still be made. -/
structure Spacious (idle free loose : List String → Prop) (stem : String) (w : World) : Prop where
  way : ∀ place, w.tempDir.Passes w.cwd place → idle place
  room : ∀ name ∈ temporaryNames stem, w.root.get? (w.tempDir.place w.cwd ++ [name]) = none →
    Roomy idle free loose (w.tempDir.place w.cwd ++ [name])

/-- Whether a property leaves a directory alone that a path leads to, and the way there. -/
structure Workspace (idle free loose : List String → Prop) (cwd : List String) (p : Path) :
    Prop where
  way : ∀ place, p.Passes cwd place → idle place
  room : Roomy idle free loose (p.place cwd)

theorem Workspace.join {idle free loose : List String → Prop} {cwd : List String} {p : Path}
    (h : Workspace idle free loose cwd p) {name : String} (hname : IsName name) :
    (∀ place, (p.join name).Passes cwd place → idle place) ∧
      ∀ place, (p.join name).place cwd <+: place → idle place ∧ free place := by
  have hle : p.place cwd <+: (p.join name).place cwd := by
    rw [Path.place_join p hname]
    exact List.prefix_append _ _
  refine ⟨fun place hplace => ?_, fun place hplace => h.room.below place (hle.trans hplace)⟩
  obtain hplace | heq := Path.passes_join hname hplace
  · exact h.way place hplace
  · rw [← Path.place_join p hname] at heq
    exact (h.room.below place (heq ▸ hle)).1

namespace Enduring

variable {I : World → Prop} {idle free loose : List String → Prop} {w : World} {stem : String}

/-- A temporary directory is made where nothing is yet. -/
theorem makeTemporary_cases (h : Enduring I w.cwd idle free loose) (hw : I w)
    (hstem : '/' ∉ stem.toList ∧ 2 < stem.length) (hspace : Spacious idle free loose stem w) :
    ∃ result w', makeTemporary stem w = (result, w') ∧ I w' ∧
      ∀ p, result = .ok p → Workspace idle free loose w.cwd p := by
  rw [makeTemporary, bind_apply, ask_apply]
  dsimp only
  rw [bind_apply, ask_apply]
  dsimp only
  cases hfree : freeName? w.tempDir stem w with
  | none => exact ⟨_, w, rfl, hw, fun _ => of_error_eq_ok⟩
  | some name =>
    have hmem := (of_freeName? hfree).1
    have hname := isName_of_mem_temporaryNames hstem.1 hstem.2 hmem
    have hplace := Path.place_join w.tempDir hname w.cwd
    dsimp only
    rw [bind_apply, adapt_apply]
    obtain ⟨fault, hrun⟩ | ⟨parent, last, hat, hlast, hparent, hvacant, hrun⟩ :=
      Files.makeDirectory_cases (h.plain w hw) (w.tempDir.join name)
    · rw [hrun]
      exact ⟨_, w, rfl, hw, fun _ => of_error_eq_ok⟩
    · rw [hplace] at hat
      have hroom := hspace.room name hmem (hat ▸ hvacant)
      rw [hrun]
      refine ⟨_, _, rfl, ?_, fun p heq => ?_⟩
      · refine h.made w parent last hw ?_ hlast hparent hvacant
        rw [← hat]
        exact (hroom.below _ (List.prefix_refl _)).1
      · cases heq
        refine ⟨fun place hpasses => ?_, hplace ▸ hroom⟩
        obtain hpasses | rfl := Path.passes_join hname hpasses
        · exact hspace.way place hpasses
        · exact (hroom.below _ (List.prefix_refl _)).1

end Enduring

end StubManager
