import StubManager.Installation.Protected
import StubManager.Proofs.Transaction.Rollback

/-!
# The beginning of a transaction

`begin_cases`: a transaction that is begun before the change of a stub remembers all that its
rollback needs, and one that cannot be begun leaves everything as it was.
-/

namespace StubManager

open Node World Registry Running

namespace Transaction

variable {base : Path} {part : String} {w : World}

/-! ## Single targets -/

theorem backupFile_cases (w : World) {t : Transaction} {p : Path}
    (hnew : t.files.any (·.path.same p) = false) :
    (∃ failure, t.backupFile p w = (.error failure, w)) ∨
      ∃ contents, Noted w p contents ∧
        t.backupFile p w
          = (.ok { t with files := t.files ++ [{ path := p, contents }] }, w) := by
  rw [backupFile, hnew, if_neg Bool.false_ne_true, bind_apply, ask_apply]
  dsimp only
  split
  · rw [bind_apply, adapt_apply]
    obtain ⟨fault, h⟩ | ⟨data, mode, hfind, h⟩ := Files.read_cases (w := w) p
    · rw [h]
      exact .inl ⟨_, rfl⟩
    · rw [h]
      exact .inr ⟨some data, ⟨mode, hfind⟩, rfl⟩
  · next hmissing =>
    refine .inr ⟨none, ?_, rfl⟩
    rw [Noted]
    simpa [World.exists?] using hmissing

theorem preservedPath_stub (base : Path) (h : IsName part) :
    base.Under [stubsName] (previousName part) (preservedPath (stubPath base part)) := by
  have hpreserved := (under_stub base h).withFileName (isName_previousName h)
  rw [preservedPath, (under_stub base h).fileName?]
  exact hpreserved

/-- The directory of a stub is moved aside, or it is not there, or it stays. -/
theorem backupDirectory_cases (hout : Outset base part w) {t : Transaction}
    (hcreated : t.created = []) (hdirectories : t.directories = []) :
    ∃ result w', t.backupDirectory (stubPath base part) w = (result, w') ∧
      Frame (Moved (base.place w.cwd) part w) w w' ∧
      match result with
      | .error _ => w'.root.get? (entryPlace (base.place w.cwd) part)
          = w.root.get? (entryPlace (base.place w.cwd) part)
      | .ok t' => t'.files = t.files ∧ StubKept base part w w' t' := by
  have hunder := under_stub base hout.isName
  have hpreserved := preservedPath_stub base hout.isName
  rw [backupDirectory, hdirectories, List.any_nil, if_neg Bool.false_ne_true, bind_apply, ask_apply]
  dsimp only
  cases hdirectory : w.isDirectory (stubPath base part) with
  | false =>
    refine ⟨.ok (t.track (stubPath base part)), w, rfl, .refl _ w, ?_⟩
    rw [track, hcreated, List.any_nil, if_neg Bool.false_ne_true]
    exact ⟨rfl, .made rfl hdirectories hdirectory fun _ _ => Iff.rfl⟩
  | true =>
    rw [Bool.not_true, if_neg Bool.false_ne_true, bind_apply, adapt_apply]
    obtain ⟨entries, hfind⟩ := isDirectory_iff.1 hdirectory
    have hthere := (locate_of_find? hout.plain hfind true).2
    rw [place_of_under hunder] at hthere
    have hturns : ∀ turn, base.TurnsAt w.cwd turn → w.root.DirAt turn ∧
        ¬ (preservedPath (stubPath base part)).place w.cwd <+: turn := by
      rw [place_of_under hpreserved]
      exact fun turn hturn => (hout.turns turn hturn).imp_right fun hclear =>
        hclear _ (.inr (.inr ⟨rfl, entries, hthere⟩))
    obtain ⟨result, w', hrun, hframe, hcases, -⟩ := Files.moveOver_cases hout.plain hturns hunder
      hpreserved (previousName_ne part)
    rw [place_of_under hunder, place_of_under hpreserved] at hframe hcases
    replace hframe : Frame (Moved (base.place w.cwd) part w) w w' := hframe.mono fun t ht =>
      ⟨t, ht.imp_right fun heq => .inr ⟨heq, entries, hthere⟩, List.prefix_refl _⟩
    rw [hrun]
    cases result with
    | error fault => exact ⟨_, w', rfl, hframe, hcases⟩
    | ok _ =>
      obtain ⟨hvalid, hvalid', node, hnode, hkept, hgone⟩ := hcases
      rw [hthere] at hnode
      cases hnode
      exact ⟨_, w', rfl, hframe, rfl, .aside _ entries hcreated rfl hpreserved hvalid hvalid' hthere
        hkept (not_fileAt_of_none hgone)⟩

/-! ## All targets -/

theorem begin_cons (t : Transaction) (target : Target) (more : List Target) (w : World) :
    t.begin (target :: more) w = match t.backup target w with
      | (.ok next, w') => next.begin more w'
      | (.error failure, w') => (.error failure, t.rollback w') := by
  rw [Transaction.begin, bind_apply, tryCatch_apply]
  rcases t.backup target w with ⟨_ | _, _⟩ <;> rfl

/-- What a transaction is begun with that remembers all that its rollback needs. -/
structure Begun (base : Path) (part : String) (edited : Option Path) (w w' : World)
    (t : Transaction) : Prop where
  held : Held base part edited w w'
  files : Remembers base edited w t
  stub : StubKept base part w w' t

theorem Begun.recovered {edited : Option Path} {w' : World} {t : Transaction}
    (h : Begun base part edited w w' t) (hout : Outset base part w)
    (hedited : ∀ p ∈ edited, Editable base part w p) :
    Recovered base part edited w (t.rollback w') :=
  recovered_of_rollback h.held hout hedited h.files (.inl h.stub)

/-- Installing or removing the stub leaves a transaction able to be taken back. -/
theorem Begun.confined {edited : Option Path} {w' w'' : World} {t : Transaction}
    (h : Begun base part edited w w' t)
    (hconfined : Confined (base.place w.cwd) part w' w'') : Begun base part edited w w'' t := by
  refine ⟨h.held.confined hconfined, h.files, h.stub.step rfl rfl hconfined.stub ?_⟩
  refine hconfined.frame.apart _ ?_
  rintro t (rfl | rfl | rfl)
  · exact (index_apart _).symm
  · exact entries_apart (previousName_ne part)
  · exact entries_apart (incomingName_ne_previousName part)

/-- So does writing the edited file. -/
theorem Begun.put {p : Path} {w' : World} {t : Transaction} {parent : List String} {name : String}
    (h : Begun base part (some p) w w' t) (hplace : p.place w.cwd = parent ++ [name])
    (data : ByteArray) (mode : Bool) :
    Begun base part (some p) w (w'.put (parent ++ [name]) (.file data mode)) t := by
  obtain ⟨hout, hfile⟩ := h.held.edited p rfl
  rw [hplace] at hout hfile
  obtain ⟨-, -, hsame, -⟩ := h.held.plain.put_file hfile data mode
  have hentry : ∀ entry, (w'.put (parent ++ [name]) (.file data mode)).root.get?
      (entryPlace (base.place w.cwd) entry)
        = w'.root.get? (entryPlace (base.place w.cwd) entry) :=
    fun entry => hsame _ (Held.not_le_of_entry hout)
  exact ⟨h.held.put (.inr ⟨p, rfl, hplace.symm⟩) hfile data mode, h.files,
    h.stub.step rfl rfl (fun _ _ => by rw [hentry]) (hentry _)⟩

theorem rollback_nothing (w : World) : rollback {} w = w := by
  rw [rollback, createdInOrder, List.mergeSort_nil]
  rfl

/-- The index and the directory of the stub are remembered first. -/
theorem begin_stub (hout : Outset base part w) (more : List Target) :
    (∃ failure w', Recovered base part none w w' ∧
      begin {} (.file (base.join fileName) :: .directory (stubPath base part) :: more) w
        = (.error failure, w')) ∨
    ∃ t w', Begun base part none w w' t ∧
      begin {} (.file (base.join fileName) :: .directory (stubPath base part) :: more) w
        = t.begin more w' := by
  have hheld : Held base part none w w := .refl hout.plain
  rw [begin_cons]
  obtain ⟨failure, h⟩ | ⟨contents, hnoted, h⟩ :=
    backupFile_cases w (t := {}) (p := base.join fileName) rfl
  · rw [backup, h]
    refine .inl ⟨failure, _, ?_, rfl⟩
    rw [rollback_nothing]
    exact ⟨hheld, fun _ => rfl, fun _ => rfl, by simp⟩
  · rw [backup, h]
    dsimp only
    rw [begin_cons, backup]
    generalize ht :
      ({ files := [] ++ [{ path := base.join fileName, contents }] } : Transaction) = t
    have hfiles : Remembers base none w t := by
      subst ht
      exact ⟨contents, [], rfl, hnoted, rfl⟩
    have hcreated : t.created = [] := by
      subst ht
      rfl
    have hdirectories : t.directories = [] := by
      subst ht
      rfl
    obtain ⟨result, w', h, hframe, hresult⟩ := backupDirectory_cases hout hcreated hdirectories
    rw [h]
    cases result with
    | error failure =>
      refine .inl ⟨failure, _, ?_, rfl⟩
      exact recovered_of_rollback (hheld.move hframe) hout (by simp) hfiles
        (.inr ⟨hcreated, hdirectories, hresult⟩)
    | ok t' =>
      obtain ⟨hsame, hstub⟩ := hresult
      refine .inr ⟨t', w', ⟨hheld.move hframe, ?_, hstub⟩, rfl⟩
      rw [Remembers, hsame]
      exact hfiles

/-- Of a file that is there its contents are remembered. -/
theorem backup_edited {w' : World} (hout : Outset base part w) {t : Transaction}
    (h : Begun base part none w w' t) {p : Path} (hp : Editable base part w p) :
    (∃ failure, t.backupFile p w' = (.error failure, w')) ∨
      ∃ t', Begun base part (some p) w w' t' ∧ t.backupFile p w' = (.ok t', w') := by
  obtain ⟨contents, more, hfiles, hnoted, rfl⟩ := h.files
  have hnew : t.files.any (·.path.same p) = false := by
    rw [hfiles, List.any_cons, List.any_nil, Bool.or_false, ← Bool.not_eq_true]
    intro hsame
    refine Held.not_le_of_index hp.outside ?_
    rw [← Path.place_of_same hsame, (under_index base).place w.cwd]
    exact List.prefix_refl _
  obtain ⟨data, mode, hold⟩ := hp.isFile
  have hfile := (locate_of_find? hout.plain hold true).2
  have hnow := h.held.find?_of_editable hout.plain hp
  rw [h.held.outside _ data mode hp.outside (by simp) hfile] at hnow
  obtain ⟨failure, hrun⟩ | ⟨contents', hnoted', hrun⟩ := backupFile_cases w' hnew
  · exact .inl ⟨failure, hrun⟩
  · obtain rfl : contents' = some data := by
      cases contents' with
      | none =>
        rw [Noted, hnow] at hnoted'
        cases hnoted'
      | some data' =>
        obtain ⟨mode', hnoted'⟩ := hnoted'
        rw [hnow] at hnoted'
        cases hnoted'
        rfl
    refine .inr ⟨_, ⟨h.held.edit hp.outside ⟨data, mode, hfile⟩, ?_, ?_⟩, hrun⟩
    · exact ⟨contents, _, by rw [hfiles]; rfl, hnoted, data, mode, rfl, hold⟩
    · exact h.stub.step rfl rfl (fun _ _ => Iff.rfl) rfl

/-- A transaction before the change of a stub is begun, or everything is as it was. -/
theorem begin_cases (hout : Outset base part w) {edited : Option Path}
    (hedited : ∀ p ∈ edited, Editable base part w p) :
    ∃ result w', begin {} (.file (base.join fileName) :: .directory (stubPath base part) ::
        edited.toList.map .file) w = (result, w') ∧
      match result with
      | .error _ => Recovered base part none w w'
      | .ok t => Begun base part edited w w' t := by
  obtain ⟨failure, w', hrecovered, hrun⟩ | ⟨t, w', hbegun, hrun⟩ :=
    begin_stub hout (edited.toList.map .file)
  · exact ⟨_, w', hrun, hrecovered⟩
  · rw [hrun]
    cases edited with
    | none => exact ⟨.ok t, w', rfl, hbegun⟩
    | some p =>
      rw [Option.toList_some, List.map_singleton, begin_cons, backup]
      obtain ⟨failure, h⟩ | ⟨t', hbegun', h⟩ := backup_edited hout hbegun (hedited p rfl)
      · rw [h]
        exact ⟨_, _, rfl, hbegun.recovered hout (by simp)⟩
      · rw [h]
        exact ⟨.ok t', w', rfl, hbegun'⟩

end Transaction

end StubManager
