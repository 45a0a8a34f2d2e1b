import StubManager.Proofs.Registry.Saving
import StubManager.Proofs.Transaction.Beginning

/-!
# What transactions keep of an index

A transaction that begins with the index and remembers beside it only what lies beside
(`Covers`) brings the contents of the index back, whatever the change in between wrote to it:
`Covers.rollback`. What a transaction does before and after a change keeps the index
(`begin_covers`, `Covers.commit`).
-/

namespace StubManager

open Node World Registry Running

namespace Transaction

variable {base : Path} {w w' : World} {t : Transaction}

/-- Whether a transaction brings back the index as it was, and beside it only what lies beside. -/
structure Covers (base : Path) (w : World) (t : Transaction) : Prop where
  files : ∃ contents more, t.files = { path := base.join fileName, contents } :: more ∧
    Noted w (base.join fileName) contents ∧
    ∀ backup ∈ more, backup.path.place w.cwd ≠ indexPlace (base.place w.cwd)
  created : ∀ p ∈ t.created, Beside base w.cwd (p.place w.cwd)
  directories : ∀ backup ∈ t.directories, Beside base w.cwd (backup.path.place w.cwd) ∧
    Beside base w.cwd (backup.preserved.place w.cwd)

/-! ## Bringing back -/

theorem foldl_keeps {α : Type} {I : World → Prop} {f : World → α → World} {xs : List α}
    (hf : ∀ x ∈ xs, ∀ w, I w → I (f w x)) (hw : I w) : I (xs.foldl f w) := by
  induction xs generalizing w with
  | nil => exact hw
  | cons x xs ih =>
    rw [List.forall_mem_cons] at hf
    exact ih hf.2 (hf.1 w hw)

section

variable {I : World → Prop} {cwd : List String} {idle free loose : List String → Prop}

/-- Bringing a file back keeps what writing and removing files keep. -/
theorem restoreFile_lasting (h : Lasting I cwd idle free) {backup : FileBackup}
    (hfree : free (backup.path.place cwd)) (hw : I w) : I (restoreFile w backup) := by
  rw [restoreFile]
  split
  · exact h.keeps_writeWith hfree none _ w hw
  · split
    · exact h.keeps_removeFile hfree w hw
    · exact hw

theorem removeCreated_enduring (h : Enduring I cwd idle free loose) {p : Path}
    (hp : loose (p.place cwd)) (hw : I w) : I (removeCreated w p) := by
  rw [removeCreated]
  split
  · exact h.keeps_removeTree hp w hw
  · exact hw

end

/-- An index that was not there is not there afterwards. -/
theorem not_fileAt_restoreFile (h : Settled base w') (hvalid : Valid (base.join fileName)) :
    ¬ (restoreFile w' { path := base.join fileName, contents := none }).root.FileAt
      (indexPlace (base.place w'.cwd)) := by
  have hplace : (base.join fileName).place w'.cwd = base.place w'.cwd ++ [fileName] :=
    (under_index base).place w'.cwd
  have hfind := h.find?_index hvalid
  rintro ⟨data, mode, hfile⟩
  cases hnow : w'.root.get? (indexPlace (base.place w'.cwd)) with
  | none =>
    rw [hnow] at hfind
    rw [restoreFile, World.exists?, hfind] at hfile
    simp only [Option.isSome_none, Bool.false_eq_true, if_false, hnow, reduceCtorEq] at hfile
  | some node =>
    rw [hnow] at hfind
    cases node with
    | link target => exact h.plain.linkless _ _ hnow
    | file old mode' =>
      rw [restoreFile_none h.plain hfind, hplace] at hfile
      have hgone : (w'.erase (base.place w'.cwd ++ [fileName])).root.get?
          (base.place w'.cwd ++ [fileName]) = none :=
        h.plain.get?_alter_self (dirAt_of_get? hnow)
      rw [indexPlace, hgone] at hfile
      cases hfile
    | directory entries =>
      have hsame : restoreFile w' { path := base.join fileName, contents := none } = w' := by
        rw [restoreFile]
        dsimp only
        obtain ⟨fault, hrun⟩ | ⟨hfile', -⟩ := Files.removeFile_cases h.plain (base.join fileName)
        · rw [quietly_apply, hrun, ite_self]
        · exact absurd ⟨entries, hplace ▸ hnow⟩ hfile'.not_dirAt
      rw [hsame, hnow] at hfile
      cases hfile

/-- The index is brought back where a file is in its place still. -/
theorem kept_restore_index (hsettled : Settled base w) (h : Guarded base w w')
    {contents : Option ByteArray} (hnoted : Noted w (base.join fileName) contents) :
    Kept base w (restoreFile w' { path := base.join fileName, contents }) where
  toRemains := restoreFile_lasting (lasting_remains base w) trivial h.toRemains
  index hvalid data := by
    have hsettled' := hsettled.remains h.toRemains
    cases contents with
    | none =>
      have hnot := not_fileAt_restoreFile hsettled' hvalid
      rw [h.cwd] at hnot
      refine iff_of_false (fun hfile => hnot ⟨data, hfile⟩) ?_
      rintro ⟨mode, hfile⟩
      rw [← hsettled.find?_index hvalid, show w.find? _ = none from hnoted] at hfile
      cases hfile
    | some old =>
      obtain ⟨mode, hold⟩ := hnoted
      rw [hsettled.find?_index hvalid] at hold
      obtain ⟨now, mode', hnow⟩ := h.index hvalid ⟨old, mode, hold⟩
      have hfind : w'.find? (base.join fileName) = some (.file now mode') := by
        rw [hsettled'.find?_index hvalid, h.cwd, hnow]
      have hplace : (base.join fileName).place w'.cwd = base.place w.cwd ++ [fileName] := by
        rw [h.cwd]
        exact (under_index base).place w.cwd
      have hthere : (w'.put (base.place w.cwd ++ [fileName]) (.file old mode')).root.get?
          (base.place w.cwd ++ [fileName]) = some (.file old mode') :=
        h.plain.get?_alter_self (dirAt_of_get? hnow)
      rw [restoreFile_some h.plain hfind, hplace, indexPlace, HasFile, HasFile, hthere,
        ← indexPlace, hold]
      simp

/-- A rollback brings the index back. -/
theorem Covers.rollback (ht : Covers base w t) (hsettled : Settled base w) (h : Guarded base w w') :
    Kept base w (t.rollback w') := by
  obtain ⟨contents, more, hfiles, hnoted, hmore⟩ := ht.files
  -- The index is the first file, so it is back before anything else is.
  have hindex := kept_restore_index hsettled h hnoted
  have hrestored : Kept base w (t.files.foldl restoreFile w') := by
    rw [hfiles, List.foldl_cons]
    exact foldl_keeps (fun backup hbackup _ =>
      restoreFile_lasting (enduring_kept base w).toLasting (hmore backup hbackup)) hindex
  refine foldl_keeps (fun backup hbackup w'' => ?_) (foldl_keeps (fun p hp w'' hw => ?_) hrestored)
  · obtain ⟨hpath, hpreserved⟩ := ht.directories backup hbackup
    exact (enduring_kept base w).keeps_moveOver hpreserved hpath w''
  · exact removeCreated_enduring (enduring_kept base w) (ht.created p (List.mem_mergeSort.1 hp)) hw

theorem Covers.commit (ht : Covers base w t) (hcwd : w'.cwd = w.cwd) (hplain : w'.root.Plain) :
    Kept base w' (t.commit w') := by
  refine foldl_keeps (fun backup hbackup => ?_) (.refl base hplain)
  have hpreserved := (ht.directories backup hbackup).2
  rw [← hcwd] at hpreserved
  exact (enduring_kept base w').keeps_removeTree hpreserved

/-! ## Beginning -/

/-- Whether a target is a file that is not the index, or a directory beside it. -/
def Target.Apart (base : Path) (cwd : List String) : Target → Prop
  | .file p => p.place cwd ≠ indexPlace (base.place cwd)
  | .directory p => Beside base cwd (p.place cwd) ∧ Beside base cwd ((preservedPath p).place cwd)

/-- Remembering one more target keeps the index, and the transaction still brings it back. -/
theorem Covers.backup (ht : Covers base w t) (h : Kept base w w') {target : Target}
    (htarget : target.Apart base w.cwd) :
    ∃ result w'', t.backup target w' = (result, w'') ∧ Kept base w w'' ∧
      ∀ t', result = .ok t' → Covers base w t' := by
  cases target with
  | file p =>
    rw [Transaction.backup]
    cases hnew : t.files.any (·.path.same p) with
    | true =>
      refine ⟨.ok t, w', ?_, h, fun t' heq => Except.ok.inj heq ▸ ht⟩
      rw [backupFile, hnew]
      rfl
    | false =>
      obtain ⟨failure, hrun⟩ | ⟨contents, -, hrun⟩ := backupFile_cases w' hnew
      · exact ⟨_, _, hrun, h, fun _ => of_error_eq_ok⟩
      · refine ⟨_, _, hrun, h, fun t' heq => ?_⟩
        cases heq
        obtain ⟨first, more, hfiles, hnoted, hmore⟩ := ht.files
        refine ⟨⟨first, _, congrArg (· ++ _) hfiles, hnoted, fun backup hbackup => ?_⟩,
          ht.created, ht.directories⟩
        obtain hbackup | hbackup := List.mem_append.1 hbackup
        · exact hmore backup hbackup
        · rw [List.mem_singleton.1 hbackup]
          exact htarget
  | directory p =>
    rw [Transaction.backup, backupDirectory]
    split
    · exact ⟨.ok t, w', rfl, h, fun t' heq => Except.ok.inj heq ▸ ht⟩
    rw [bind_apply, ask_apply]
    dsimp only
    split
    · refine ⟨.ok (t.track p), w', rfl, h, fun t' heq => ?_⟩
      cases heq
      rw [track]
      split
      · exact ht
      · refine ⟨ht.files, fun q hq => ?_, ht.directories⟩
        obtain hq | hq := List.mem_append.1 hq
        · exact ht.created q hq
        · rw [List.mem_singleton.1 hq]
          exact htarget.1
    · have hmoved := (enduring_kept base w).keeps_moveOver htarget.1 htarget.2 w' h
      rw [bind_apply, adapt_apply]
      generalize Files.moveOver p (preservedPath p) w' = step at hmoved
      obtain ⟨result, w''⟩ := step
      cases result with
      | error fault => exact ⟨_, _, rfl, hmoved, fun _ => of_error_eq_ok⟩
      | ok _ =>
        refine ⟨_, _, rfl, hmoved, fun t' heq => ?_⟩
        cases heq
        refine ⟨ht.files, ht.created, fun backup hbackup => ?_⟩
        obtain hbackup | hbackup := List.mem_append.1 hbackup
        · exact ht.directories backup hbackup
        · rw [List.mem_singleton.1 hbackup]
          exact htarget

theorem Covers.begin (hsettled : Settled base w) {targets : List Target}
    (htargets : ∀ target ∈ targets, target.Apart base w.cwd) (ht : Covers base w t)
    (h : Kept base w w') :
    ∃ result w'', t.begin targets w' = (result, w'') ∧ Kept base w w'' ∧
      ∀ t', result = .ok t' → Covers base w t' := by
  induction targets generalizing t w' with
  | nil => exact ⟨.ok t, w', rfl, h, fun t' heq => Except.ok.inj heq ▸ ht⟩
  | cons target targets ih =>
    rw [List.forall_mem_cons] at htargets
    obtain ⟨result, w'', hrun, hw'', hresult⟩ := ht.backup h htargets.1
    rw [begin_cons, hrun]
    cases result with
    | error failure =>
      exact ⟨_, _, rfl, ht.rollback hsettled hw''.guarded, fun _ => of_error_eq_ok⟩
    | ok t' => exact ih htargets.2 (hresult t' rfl) hw''

/-- A transaction that is begun with the index brings it back, and beginning it keeps the index. -/
theorem begin_covers (hsettled : Settled base w) {targets : List Target}
    (htargets : ∀ target ∈ targets, target.Apart base w.cwd) :
    ∃ result w', begin {} (.file (base.join fileName) :: targets) w = (result, w') ∧
      Kept base w w' ∧ ∀ t, result = .ok t → Covers base w t := by
  have hw := Kept.refl base hsettled.plain
  rw [begin_cons, backup]
  obtain ⟨failure, hrun⟩ | ⟨contents, hnoted, hrun⟩ :=
    backupFile_cases w (t := {}) (p := base.join fileName) rfl
  · rw [hrun]
    refine ⟨_, _, rfl, ?_, fun _ => of_error_eq_ok⟩
    rw [rollback_nothing]
    exact hw
  · rw [hrun]
    refine Covers.begin hsettled htargets ⟨⟨contents, [], rfl, hnoted, ?_⟩, ?_, ?_⟩ hw
    · simp
    · simp
    · simp

end Transaction

end StubManager
