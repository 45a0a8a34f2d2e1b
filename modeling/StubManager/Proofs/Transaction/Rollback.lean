import StubManager.Proofs.Transaction.Holding
import StubManager.Transaction

/-!
# Rollback

What a rollback brings back in a world where everything that it needs was held: the contents of the
index (`restore_index`) and of the edited file (`restore_edited`), and the directory of the stub,
whether it was made by the change (`removeCreated_stub`) or moved aside (`restoreDirectory_stub`).
-/

namespace StubManager

open Node World Registry Running

/-- A node up to the permission of a file. -/
def Node.withoutMode : Node → Node
  | .file data _ => .file data false
  | node => node

/-- What is assumed of the world before a change. -/
structure Outset (base : Path) (part : String) (w : World) : Prop where
  plain : w.root.Plain
  isName : IsName part
  turns : ∀ turn, base.TurnsAt w.cwd turn →
    w.root.DirAt turn ∧ Clear (base.place w.cwd) part w turn

/-- A file that can be edited and brought back: it lies outside of the home, and its path does not
turn back at what the change of a stub may move. -/
structure Editable (base : Path) (part : String) (w : World) (p : Path) : Prop where
  outside : ¬ base.place w.cwd <+: p.place w.cwd
  clear : ∀ turn, p.TurnsAt w.cwd turn → Clear (base.place w.cwd) part w turn
  isFile : ∃ data mode, w.find? p = some (.file data mode)

variable {base : Path} {part : String} {edited : Option Path} {w w' : World}

theorem Outset.find?_of_under (h : Outset base part w) {front : List String} {entry : String}
    {p : Path} (hp : base.Under front entry p) (hvalid : Valid p) :
    w.find? p = w.root.get? (p.place w.cwd) :=
  World.find?_of_under h.plain hp (fun turn hturn => (h.turns turn hturn).1) hvalid

theorem Outset.find?_index (h : Outset base part w) (hvalid : Valid (base.join fileName)) :
    w.find? (base.join fileName) = w.root.get? (indexPlace (base.place w.cwd)) := by
  rw [h.find?_of_under (under_index base) hvalid, (under_index base).place]
  rfl

theorem Outset.find?_stub (h : Outset base part w) (hvalid : Valid (stubPath base part)) :
    w.find? (stubPath base part) = w.root.get? (entryPlace (base.place w.cwd) part) := by
  rw [h.find?_of_under (under_stub base h.isName) hvalid, place_stubPath base h.isName]

theorem Editable.exists_name {p : Path} (h : Editable base part w p) (hplain : w.root.Plain) :
    ∃ parent name, p.place w.cwd = parent ++ [name] ∧ IsName name ∧ p.EndsWith name := by
  obtain ⟨data, mode, hfile⟩ := h.isFile
  obtain ⟨name, hname, hends⟩ := endsWith_of_isFile hplain hfile
  obtain ⟨parent, hplace⟩ := Path.exists_place hname hends w.cwd
  exact ⟨parent, name, hplace, hname, hends⟩

namespace Held

theorem of_editable (hplain : w.root.Plain) (hedited : ∀ p ∈ edited, Editable base part w p) :
    Held base part edited w w := by
  cases edited with
  | none => exact .refl hplain
  | some p =>
    have hp := hedited p rfl
    obtain ⟨data, mode, hfile⟩ := hp.isFile
    exact (Held.refl hplain).edit hp.outside ⟨data, mode, (locate_of_find? hplain hfile true).2⟩

theorem steady (h : Held base part edited w w') (hout : Outset base part w) :
    Steady base part w' := by
  refine ⟨h.plain, ?_⟩
  rw [h.cwd]
  intro turn hturn
  obtain ⟨hdir, hclear⟩ := hout.turns turn hturn
  refine ⟨h.dir turn hclear hdir, ?_⟩
  rintro entry (rfl | rfl)
  · exact hclear _ (.inl rfl)
  · exact hclear _ (.inr (.inl rfl))

theorem turns (h : Held base part edited w w') (hout : Outset base part w) :
    ∀ turn, base.TurnsAt w'.cwd turn →
      w'.root.DirAt turn ∧ Clear (base.place w.cwd) part w turn := by
  rw [h.cwd]
  intro turn hturn
  obtain ⟨hdir, hclear⟩ := hout.turns turn hturn
  exact ⟨h.dir turn hclear hdir, hclear⟩

theorem find?_of_under (h : Held base part edited w w') (hout : Outset base part w)
    {front : List String} {entry : String} {p : Path} (hp : base.Under front entry p)
    (hvalid : Valid p) : w'.find? p = w'.root.get? (p.place w.cwd) := by
  rw [World.find?_of_under h.plain hp (fun turn hturn => (h.turns hout turn hturn).1) hvalid,
    h.cwd]

theorem find?_index (h : Held base part edited w w') (hout : Outset base part w)
    (hvalid : Valid (base.join fileName)) :
    w'.find? (base.join fileName) = w'.root.get? (indexPlace (base.place w.cwd)) := by
  rw [h.find?_of_under hout (under_index base) hvalid, (under_index base).place]
  rfl

theorem find?_stub (h : Held base part edited w w') (hout : Outset base part w)
    (hvalid : Valid (stubPath base part)) :
    w'.find? (stubPath base part) = w'.root.get? (entryPlace (base.place w.cwd) part) := by
  rw [h.find?_of_under hout (under_stub base hout.isName) hvalid, place_stubPath base hout.isName]

theorem turns_of_editable (h : Held base part edited w w') (hplain : w.root.Plain) {p : Path}
    (hp : Editable base part w p) : ∀ turn, p.TurnsAt w'.cwd turn → w'.root.DirAt turn := by
  rw [h.cwd]
  intro turn hturn
  obtain ⟨data, mode, hfile⟩ := hp.isFile
  exact h.dir turn (hp.clear turn hturn) (dirAt_of_turnsAt hplain hfile hturn)

theorem find?_of_editable (h : Held base part edited w w') (hplain : w.root.Plain) {p : Path}
    (hp : Editable base part w p) : w'.find? p = w'.root.get? (p.place w.cwd) := by
  obtain ⟨parent, name, -, hname, hends⟩ := hp.exists_name hplain
  obtain ⟨data, mode, hfile⟩ := hp.isFile
  have hvalid := ((find?_eq_some_iff hplain).1 hfile).1
  rw [find?_of_endsWith h.plain hname hends (h.turns_of_editable hplain hp) hvalid, h.cwd]

end Held

namespace Transaction

/-! ## Files -/

/-- Whether contents are those of a file, or nothing is there and there are none. -/
def Noted (w : World) (p : Path) : Option ByteArray → Prop
  | none => w.find? p = none
  | some data => ∃ mode, w.find? p = some (.file data mode)

theorem restoreFile_some (hplain : w.root.Plain) {p : Path} {old : ByteArray} {mode : Bool}
    (h : w.find? p = some (.file old mode)) (data : ByteArray) :
    restoreFile w { path := p, contents := some data }
      = w.put (p.place w.cwd) (.file data mode) := by
  rw [restoreFile]
  dsimp only
  rw [quietly_apply, Files.write_of_isFile hplain h]

theorem restoreFile_none (hplain : w.root.Plain) {p : Path} {old : ByteArray} {mode : Bool}
    (h : w.find? p = some (.file old mode)) :
    restoreFile w { path := p, contents := none } = w.erase (p.place w.cwd) := by
  have hthere : w.exists? p = true := by rw [World.exists?, h]; rfl
  rw [restoreFile]
  dsimp only
  rw [if_pos hthere, quietly_apply, Files.removeFile_of_isFile hplain h]

/-- A file that was there is written as it was, and nothing else changes. -/
theorem restoreFile_held (h : Held base part edited w w') {p : Path}
    (hp : p.place w.cwd = indexPlace (base.place w.cwd) ∨ p ∈ edited)
    {data old : ByteArray} {mode mode' : Bool}
    (hold : w.root.get? (p.place w.cwd) = some (.file data mode))
    (hnow : w'.find? p = some (.file old mode')) :
    ∃ w'', restoreFile w' { path := p, contents := some data } = w'' ∧
      Held base part edited w w'' ∧
      (∀ other, ¬ other <+: p.place w.cwd → w''.root.get? other = w'.root.get? other) ∧
      (w''.root.get? (p.place w.cwd)).map withoutMode
        = (w.root.get? (p.place w.cwd)).map withoutMode := by
  obtain ⟨parent, name, hplace⟩ : ∃ parent name, p.place w.cwd = parent ++ [name] := by
    obtain ⟨name, hname, hends⟩ := endsWith_of_isFile h.plain hnow
    obtain ⟨parent, hplace⟩ := Path.exists_place hname hends w.cwd
    exact ⟨parent, name, hplace⟩
  have hthere := (locate_of_find? h.plain hnow true).2
  rw [restoreFile_some h.plain hnow data, hold]
  rw [h.cwd, hplace] at hthere ⊢
  obtain ⟨-, hnew, hsame, -⟩ := h.plain.put_file ⟨old, mode', hthere⟩ data mode'
  exact ⟨_, rfl, h.put (hp.imp (hplace ▸ ·) fun hp => ⟨p, hp, hplace.symm⟩)
    ⟨old, mode', hthere⟩ data mode', hsame, (congrArg (Option.map withoutMode) hnew :)⟩

/-- An index that was not there goes. -/
theorem restore_index_none (h : Held base part edited w w') (hout : Outset base part w)
    (hnone : w.find? (base.join fileName) = none) :
    ∃ w'', restoreFile w' { path := base.join fileName, contents := none } = w'' ∧
      Held base part edited w w'' ∧
      (∀ other, ¬ other <+: indexPlace (base.place w.cwd) →
        w''.root.get? other = w'.root.get? other) ∧
      (Valid (base.join fileName) → w''.root.get? (indexPlace (base.place w.cwd))
        = w.root.get? (indexPlace (base.place w.cwd))) := by
  have hplace : (base.join fileName).place w'.cwd = indexPlace (base.place w.cwd) := by
    rw [(under_index base).place, h.cwd]
    rfl
  have hgone : Valid (base.join fileName) → w.root.get? (indexPlace (base.place w.cwd)) = none :=
    fun hvalid => (hout.find?_index hvalid).symm.trans hnone
  cases hnow : w'.find? (base.join fileName) with
  | none =>
    refine ⟨w', ?_, h, fun _ _ => rfl, fun hvalid => ?_⟩
    · rw [restoreFile]
      dsimp only
      rw [World.exists?, hnow, if_neg (by simp)]
    · rw [← h.find?_index hout hvalid, hnow, hgone hvalid]
  | some node =>
    obtain ⟨hvalid, -, hnode⟩ := (find?_eq_some_iff h.plain).1 hnow
    rw [hplace] at hnode
    cases node with
    | directory entries =>
      exact absurd ⟨entries, hnode⟩ (h.noDirectory (not_dirAt_of_none (hgone hvalid)))
    | link target => exact absurd hnode (h.plain.linkless _ _)
    | file data mode =>
      obtain ⟨hheld, hnew, hsame⟩ :=
        h.erase_index (not_fileAt_of_none (hgone hvalid)) ⟨data, mode, hnode⟩
      rw [restoreFile_none h.plain hnow, hplace]
      exact ⟨_, rfl, hheld, hsame, fun hvalid => by rw [hnew, hgone hvalid]⟩

/-- The index comes back. -/
theorem restore_index (h : Held base part edited w w') (hout : Outset base part w)
    {contents : Option ByteArray} (hnoted : Noted w (base.join fileName) contents) :
    ∃ w'', restoreFile w' { path := base.join fileName, contents } = w'' ∧
      Held base part edited w w'' ∧
      (∀ other, ¬ other <+: indexPlace (base.place w.cwd) →
        w''.root.get? other = w'.root.get? other) ∧
      (Valid (base.join fileName) →
        (w''.root.get? (indexPlace (base.place w.cwd))).map withoutMode
          = (w.root.get? (indexPlace (base.place w.cwd))).map withoutMode) := by
  cases contents with
  | none =>
    obtain ⟨w'', hrun, hheld, hsame, hindex⟩ := restore_index_none h hout hnoted
    exact ⟨w'', hrun, hheld, hsame, fun hvalid => by rw [hindex hvalid]⟩
  | some data =>
    obtain ⟨mode, hold⟩ := hnoted
    have hplace : (base.join fileName).place w.cwd = indexPlace (base.place w.cwd) :=
      (under_index base).place w.cwd
    have hvalid := ((find?_eq_some_iff hout.plain).1 hold).1
    rw [hout.find?_index hvalid] at hold
    obtain ⟨old, mode', hnow⟩ := h.index ⟨data, mode, hold⟩
    rw [← h.find?_index hout hvalid] at hnow
    rw [← hplace] at hold ⊢
    obtain ⟨w'', hrun, hheld, hsame, hindex⟩ := restoreFile_held h (.inl hplace) hold hnow
    exact ⟨w'', hrun, hheld, hsame, fun _ => hindex⟩

/-- The edited file comes back. -/
theorem restore_edited {p : Path} (h : Held base part (some p) w w') (hplain : w.root.Plain)
    (hp : Editable base part w p) {data : ByteArray} {mode : Bool}
    (hold : w.find? p = some (.file data mode)) :
    ∃ w'', restoreFile w' { path := p, contents := some data } = w'' ∧
      Held base part (some p) w w'' ∧
      (∀ other, ¬ other <+: p.place w.cwd → w''.root.get? other = w'.root.get? other) ∧
      (w''.root.get? (p.place w.cwd)).map withoutMode
        = (w.root.get? (p.place w.cwd)).map withoutMode := by
  obtain ⟨-, old, mode', hnow⟩ := h.edited p rfl
  exact restoreFile_held h (.inr rfl) (locate_of_find? hplain hold true).2
    ((h.find?_of_editable hplain hp).trans hnow)

/-! ## Directories -/

/-- A directory that was made in the place of the stub goes. -/
theorem removeCreated_stub (h : Held base part edited w w') (hout : Outset base part w)
    (hnot : w.isDirectory (stubPath base part) = false)
    (hfile : ∀ data mode,
      w'.root.get? (entryPlace (base.place w.cwd) part) = some (.file data mode) ↔
        w.root.get? (entryPlace (base.place w.cwd) part) = some (.file data mode)) :
    ∃ w'', removeCreated w' (stubPath base part) = w'' ∧
      Frame (· = entryPlace (base.place w.cwd) part) w' w'' ∧
      (Valid (stubPath base part) → w''.root.get? (entryPlace (base.place w.cwd) part)
        = w.root.get? (entryPlace (base.place w.cwd) part)) := by
  have hplace : (stubPath base part).place w'.cwd = entryPlace (base.place w.cwd) part := by
    rw [place_stubPath base hout.isName, h.cwd]
  have hdir : Valid (stubPath base part) →
      ¬ w.root.DirAt (entryPlace (base.place w.cwd) part) := by
    rintro hvalid ⟨entries, hentries⟩
    have hdirectory := isDirectory_iff.2 ⟨entries, (hout.find?_stub hvalid).trans hentries⟩
    rw [hnot] at hdirectory
    cases hdirectory
  rw [removeCreated]
  split
  · next hdirectory =>
    obtain ⟨entries, hnow⟩ := isDirectory_iff.1 hdirectory
    have hthere := (locate_of_find? h.plain hnow true).2
    rw [hplace] at hthere
    rw [quietly_apply, Files.removeTree_of_isDirectory h.plain hnow, hplace]
    have hgone : (w'.erase (entryPlace (base.place w.cwd) part)).root.get?
        (entryPlace (base.place w.cwd) part) = none := by
      rw [entryPlace_eq] at hthere ⊢
      exact h.plain.get?_alter_self (dirAt_of_get? hthere)
    have hframe := (Frame.refl (· = entryPlace (base.place w.cwd) part) w').erase
      (t := entryPlace (base.place w.cwd) part) rfl (List.prefix_refl _)
    refine ⟨_, rfl, hframe, fun hvalid => ?_⟩
    refine hout.plain.get?_eq_of_files (hframe.plain h.plain) (hdir hvalid)
      (not_dirAt_of_none hgone) fun data mode => ?_
    rw [hgone, ← hfile, hthere]
    simp
  · next hdirectory =>
    refine ⟨w', rfl, .refl _ w', fun hvalid => ?_⟩
    refine hout.plain.get?_eq_of_files h.plain (hdir hvalid) ?_ hfile
    rintro ⟨entries, hentries⟩
    exact hdirectory (isDirectory_iff.2 ⟨entries, (h.find?_stub hout hvalid).trans hentries⟩)

/-- The directory of the stub that was moved aside comes back. -/
theorem restoreDirectory_stub (h : Held base part edited w w') (hout : Outset base part w)
    {preserved : Path} (hpreserved : base.Under [stubsName] (previousName part) preserved)
    (hvalid : Valid (stubPath base part)) (hvalid' : Valid preserved) {node : Node}
    (hdir : w.root.DirAt (entryPlace (base.place w.cwd) part))
    (hkept : w'.root.get? (entryPlace (base.place w.cwd) (previousName part)) = some node)
    (hnot : ¬ w'.root.FileAt (entryPlace (base.place w.cwd) part)) :
    ∃ w'', restoreDirectory w' { path := stubPath base part, preserved } = w'' ∧
      Frame (Moved (base.place w.cwd) part w) w' w'' ∧
      w''.root.get? (entryPlace (base.place w.cwd) part) = some node := by
  have hunder := under_stub base hout.isName
  have hplace : (stubPath base part).place w'.cwd = entryPlace (base.place w.cwd) part := by
    rw [place_of_under hunder, h.cwd]
  have hplace' : preserved.place w'.cwd = entryPlace (base.place w.cwd) (previousName part) := by
    rw [place_of_under hpreserved, h.cwd]
  have hturns : ∀ turn, base.TurnsAt w'.cwd turn →
      w'.root.DirAt turn ∧ ¬ (stubPath base part).place w'.cwd <+: turn := by
    rw [hplace]
    exact fun turn hturn => (h.turns hout turn hturn).imp_right fun hclear =>
      hclear _ (.inl rfl)
  obtain ⟨result, w'', hrun, hframe, hcases, hok⟩ := Files.moveOver_cases h.plain hturns hpreserved
    hunder (previousName_ne part).symm
  rw [hplace, hplace'] at hframe hcases hok
  obtain rfl := hok hvalid' hvalid hnot ⟨node, hkept⟩
  obtain ⟨-, -, node', hnode', hthere, -⟩ := hcases
  refine ⟨w'', ?_, hframe.mono fun t ht => ⟨t, ?_, List.prefix_refl _⟩, ?_⟩
  · rw [restoreDirectory, quietly_apply, hrun]
  · exact ht.elim (fun heq => .inr (.inr ⟨heq, hdir⟩)) .inl
  · rw [hthere, ← hnode', hkept]

/-! ## Everything -/

/-- How the directory of the stub can be brought back: it was not there and is removed, or it was
moved aside. -/
inductive StubKept (base : Path) (part : String) (w w' : World) (t : Transaction) : Prop where
  | made (hcreated : t.created = [stubPath base part]) (hdirectories : t.directories = [])
      (hnot : w.isDirectory (stubPath base part) = false)
      (hfile : ∀ data mode,
        w'.root.get? (entryPlace (base.place w.cwd) part) = some (.file data mode) ↔
          w.root.get? (entryPlace (base.place w.cwd) part) = some (.file data mode))
  | aside (preserved : Path) (entries : List (String × Node)) (hcreated : t.created = [])
      (hdirectories : t.directories = [{ path := stubPath base part, preserved }])
      (hpreserved : base.Under [stubsName] (previousName part) preserved)
      (hvalid : Valid (stubPath base part)) (hvalid' : Valid preserved)
      (hnode : w.root.get? (entryPlace (base.place w.cwd) part) = some (.directory entries))
      (hkept : w'.root.get? (entryPlace (base.place w.cwd) (previousName part))
        = some (.directory entries))
      (hnot : ¬ w'.root.FileAt (entryPlace (base.place w.cwd) part))

/-- What matters of a world is whether a file is in the place of the stub, and what was moved
aside. -/
theorem StubKept.step {t t' : Transaction} {w'' : World} (h : StubKept base part w w' t)
    (hcreated : t'.created = t.created) (hdirectories : t'.directories = t.directories)
    (hstub : ∀ data mode,
      w''.root.get? (entryPlace (base.place w.cwd) part) = some (.file data mode) ↔
        w'.root.get? (entryPlace (base.place w.cwd) part) = some (.file data mode))
    (hprevious : w''.root.get? (entryPlace (base.place w.cwd) (previousName part))
      = w'.root.get? (entryPlace (base.place w.cwd) (previousName part))) :
    StubKept base part w w'' t' := by
  cases h with
  | made hmade hnone hnot hfile =>
    exact .made (hcreated.trans hmade) (hdirectories.trans hnone) hnot fun data mode =>
      (hstub data mode).trans (hfile data mode)
  | aside preserved entries hmade hmoved hpreserved hvalid hvalid' hnode hkept hnot =>
    refine .aside preserved entries (hcreated.trans hmade) (hdirectories.trans hmoved) hpreserved
      hvalid hvalid' hnode (hprevious.trans hkept) ?_
    rintro ⟨data, mode, hfile⟩
    exact hnot ⟨data, mode, (hstub data mode).1 hfile⟩

/-- Whether files are remembered: the index, and the edited file if there is one. -/
def Remembers (base : Path) (edited : Option Path) (w : World) (t : Transaction) : Prop :=
  ∃ contents more, t.files = { path := base.join fileName, contents } :: more ∧
    Noted w (base.join fileName) contents ∧
    match edited with
    | none => more = []
    | some p => ∃ data mode, more = [{ path := p, contents := some data }] ∧
        w.find? p = some (.file data mode)

/-- Whether a world has again what it had before a change. -/
structure Recovered (base : Path) (part : String) (edited : Option Path) (w w' : World) : Prop where
  held : Held base part edited w w'
  index : Valid (base.join fileName) →
    (w'.root.get? (indexPlace (base.place w.cwd))).map withoutMode
      = (w.root.get? (indexPlace (base.place w.cwd))).map withoutMode
  stub : Valid (stubPath base part) → w'.root.get? (entryPlace (base.place w.cwd) part)
    = w.root.get? (entryPlace (base.place w.cwd) part)
  file : ∀ p ∈ edited, (w'.root.get? (p.place w.cwd)).map withoutMode
    = (w.root.get? (p.place w.cwd)).map withoutMode

/-- The remembered files come back, and nothing else changes. -/
theorem restore_files (h : Held base part edited w w') (hout : Outset base part w)
    (hedited : ∀ p ∈ edited, Editable base part w p) {t : Transaction}
    (ht : Remembers base edited w t) :
    ∃ w'', t.files.foldl restoreFile w' = w'' ∧ Held base part edited w w'' ∧
      (∀ entry, w''.root.get? (entryPlace (base.place w.cwd) entry)
        = w'.root.get? (entryPlace (base.place w.cwd) entry)) ∧
      (Valid (base.join fileName) →
        (w''.root.get? (indexPlace (base.place w.cwd))).map withoutMode
          = (w.root.get? (indexPlace (base.place w.cwd))).map withoutMode) ∧
      ∀ p ∈ edited, (w''.root.get? (p.place w.cwd)).map withoutMode
        = (w.root.get? (p.place w.cwd)).map withoutMode := by
  obtain ⟨contents, more, hfiles, hnoted, hmore⟩ := ht
  obtain ⟨w₁, hrun₁, h₁, hsame₁, hindex₁⟩ := restore_index h hout hnoted
  rw [hfiles, List.foldl_cons, hrun₁]
  cases edited with
  | none =>
    rw [hmore]
    exact ⟨w₁, rfl, h₁, fun entry => hsame₁ _ (not_entryPlace_le_indexPlace entry), hindex₁,
      by simp⟩
  | some p =>
    obtain ⟨data, mode, rfl, hold⟩ := hmore
    have hp := hedited p rfl
    obtain ⟨w₂, hrun₂, h₂, hsame₂, hfile₂⟩ := restore_edited h₁ hout.plain hp hold
    refine ⟨w₂, hrun₂, h₂, fun entry => ?_, fun hvalid => ?_, ?_⟩
    · rw [hsame₂ _ (Held.not_le_of_entry hp.outside),
        hsame₁ _ (not_entryPlace_le_indexPlace entry)]
    · rw [hsame₂ _ (Held.not_le_of_index hp.outside), hindex₁ hvalid]
    · rintro _ ⟨⟩
      exact hfile₂

/-- The directory of the stub comes back, and beside it only what was moved changes. -/
theorem restore_stub (h : Held base part edited w w') (hout : Outset base part w)
    {t : Transaction} (hstub : StubKept base part w w' t) :
    ∃ w'', t.directories.foldl restoreDirectory (t.createdInOrder.foldl removeCreated w') = w'' ∧
      Frame (Moved (base.place w.cwd) part w) w' w'' ∧
      (Valid (stubPath base part) → w''.root.get? (entryPlace (base.place w.cwd) part)
        = w.root.get? (entryPlace (base.place w.cwd) part)) := by
  cases hstub with
  | made hcreated hdirectories hnot hfile =>
    obtain ⟨w'', hrun, hframe, hback⟩ := removeCreated_stub h hout hnot hfile
    rw [createdInOrder, hcreated, hdirectories, List.mergeSort_singleton]
    exact ⟨w'', hrun, hframe.mono fun t ht => ⟨t, .inl ht, List.prefix_refl _⟩, hback⟩
  | aside preserved entries hcreated hdirectories hpreserved hvalid hvalid' hnode hkept hnot =>
    obtain ⟨w'', hrun, hframe, hback⟩ := restoreDirectory_stub h hout hpreserved hvalid hvalid'
      ⟨entries, hnode⟩ hkept hnot
    rw [createdInOrder, hcreated, hdirectories, List.mergeSort_nil]
    exact ⟨w'', hrun, hframe, fun _ => hback.trans hnode.symm⟩

/-- A rollback brings back what is remembered. -/
theorem recovered_of_rollback (h : Held base part edited w w') (hout : Outset base part w)
    (hedited : ∀ p ∈ edited, Editable base part w p) {t : Transaction}
    (ht : Remembers base edited w t) (hstub : StubKept base part w w' t ∨
      t.created = [] ∧ t.directories = [] ∧ w'.root.get? (entryPlace (base.place w.cwd) part)
        = w.root.get? (entryPlace (base.place w.cwd) part)) :
    Recovered base part edited w (t.rollback w') := by
  obtain ⟨w₁, hrun₁, h₁, hsame₁, hindex₁, hfile₁⟩ := restore_files h hout hedited ht
  obtain ⟨w₂, hrun₂, hframe₂, hstub₂⟩ : ∃ w₂,
      t.directories.foldl restoreDirectory (t.createdInOrder.foldl removeCreated w₁) = w₂ ∧
      Frame (Moved (base.place w.cwd) part w) w₁ w₂ ∧
      (Valid (stubPath base part) → w₂.root.get? (entryPlace (base.place w.cwd) part)
        = w.root.get? (entryPlace (base.place w.cwd) part)) := by
    obtain hstub | ⟨hcreated, hdirectories, hsame⟩ := hstub
    · exact restore_stub h₁ hout (hstub.step rfl rfl (fun _ _ => by rw [hsame₁]) (hsame₁ _))
    · rw [createdInOrder, hcreated, hdirectories, List.mergeSort_nil]
      exact ⟨w₁, rfl, .refl _ w₁, fun _ => (hsame₁ part).trans hsame⟩
  have hindex := index_of_frame hframe₂ fun t => Moved.exists_entry
  rw [rollback, hrun₁, hrun₂]
  refine ⟨h₁.move hframe₂, fun hvalid => by rw [hindex, hindex₁ hvalid], hstub₂, fun p hp => ?_⟩
  obtain ⟨houtside, data, mode, hfile⟩ := h₁.edited p hp
  rw [← hfile₁ p hp, hfile, (hframe₂.file _ data mode fun t ht => ?_).2 hfile]
  obtain ⟨entry, rfl⟩ := ht.exists_entry
  exact Held.not_le_of_entry houtside

end Transaction

end StubManager
