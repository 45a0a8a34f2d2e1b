import StubManager.Proofs.Transaction.Keeping

/-!
# What transactions touch

A transaction remembers nothing but the targets that it is given (`Within`), and changes nothing but
those and the siblings that directories are moved to. So it keeps every property that leaves them
alone, whether it is begun (`keeps_begin`), taken back (`Within.rollback`) or given up
(`Within.commit`), and so does a change that it protects (`Work.keeps_protecting`).
-/

namespace StubManager

open Node World Running

namespace Transaction

variable {I : World → Prop} {cwd : List String} {idle free loose : List String → Prop}
variable {targets : Target → Prop} {t t' : Transaction} {target : Target} {w w' : World}

/-- Whether a transaction remembers targets of the given kind only. -/
structure Within (targets : Target → Prop) (t : Transaction) : Prop where
  files : ∀ backup ∈ t.files, targets (.file backup.path)
  created : ∀ p ∈ t.created, targets (.directory p)
  directories : ∀ backup ∈ t.directories,
    targets (.directory backup.path) ∧ backup.preserved = preservedPath backup.path

/-- Whether a property leaves a directory alone as it is moved aside. -/
def Movable (loose : List String → Prop) (cwd : List String) (p : Path) : Prop :=
  loose (p.place cwd) ∧ loose ((preservedPath p).place cwd)

/-- Whether a property leaves a target alone as it is remembered and brought back. -/
def Target.Alone (free loose : List String → Prop) (cwd : List String) : Target → Prop
  | .file p => free (p.place cwd)
  | .directory p => Movable loose cwd p

theorem within_empty (targets : Target → Prop) : Within targets {} := by
  constructor <;> simp

theorem Within.track (h : Within targets t) {p : Path} (hp : targets (.directory p)) :
    Within targets (t.track p) := by
  rw [Transaction.track]
  split
  · exact h
  · refine ⟨h.files, ?_, h.directories⟩
    rw [List.forall_mem_append, List.forall_mem_singleton]
    exact ⟨h.created, hp⟩

/-! ## Remembering -/

/-- A file is remembered without a change. -/
theorem backupFile_within (h : Within targets t) {p : Path} (hp : targets (.file p)) (w : World) :
    ∃ result, t.backupFile p w = (result, w) ∧ ∀ t', result = .ok t' → Within targets t' := by
  cases hnew : t.files.any (·.path.same p) with
  | true =>
    refine ⟨.ok t, ?_, fun t' heq => Except.ok.inj heq ▸ h⟩
    rw [backupFile, hnew]
    rfl
  | false =>
    obtain ⟨failure, hrun⟩ | ⟨contents, -, hrun⟩ := backupFile_cases w hnew
    · exact ⟨_, hrun, fun _ => of_error_eq_ok⟩
    · refine ⟨_, hrun, fun t' heq => ?_⟩
      cases heq
      refine ⟨?_, h.created, h.directories⟩
      rw [List.forall_mem_append, List.forall_mem_singleton]
      exact ⟨h.files, hp⟩

/-- A directory is moved aside, unless it was before, or is not there. -/
theorem backupDirectory_outcome (t : Transaction) (p : Path) (w : World) :
    t.directories.any (·.path.same p) = true ∧ t.backupDirectory p w = (.ok t, w) ∨
      t.directories.any (·.path.same p) = false ∧ w.isDirectory p = false ∧
        t.backupDirectory p w = (.ok (t.track p), w) ∨
      t.directories.any (·.path.same p) = false ∧ w.isDirectory p = true ∧
        ((∃ fault w', Files.moveOver p (preservedPath p) w = (.error fault, w') ∧
            t.backupDirectory p w = (.error (.writeFailed p.text fault.message), w')) ∨
          ∃ w', Files.moveOver p (preservedPath p) w = (.ok (), w') ∧
            t.backupDirectory p w = (.ok { t with directories :=
              t.directories ++ [{ path := p, preserved := preservedPath p }] }, w')) := by
  rw [backupDirectory]
  cases t.directories.any (·.path.same p) with
  | true => exact .inl ⟨rfl, rfl⟩
  | false =>
    rw [if_neg Bool.false_ne_true, bind_apply, ask_apply]
    dsimp only
    cases w.isDirectory p with
    | false => exact .inr (.inl ⟨rfl, rfl, rfl⟩)
    | true =>
      refine .inr (.inr ⟨rfl, rfl, ?_⟩)
      rw [Bool.not_true, if_neg Bool.false_ne_true, bind_apply, adapt_apply]
      obtain ⟨_ | _, w'⟩ := Files.moveOver p (preservedPath p) w
      · exact .inl ⟨_, w', rfl, rfl⟩
      · exact .inr ⟨w', rfl, rfl⟩

/-- A directory is moved aside, and nothing else happens. -/
theorem backupDirectory_within (hI : Enduring I cwd idle free loose) (h : Within targets t)
    {p : Path} (hp : targets (.directory p)) (hmovable : Movable loose cwd p) (hw : I w) :
    ∃ result w', t.backupDirectory p w = (result, w') ∧ I w' ∧
      ∀ t', result = .ok t' → Within targets t' := by
  have hmoved := hI.keeps_moveOver hmovable.1 hmovable.2 w hw
  obtain ⟨-, hrun⟩ | ⟨-, -, hrun⟩ | ⟨-, -, ⟨fault, w', hmove, hrun⟩ | ⟨w', hmove, hrun⟩⟩ :=
    t.backupDirectory_outcome p w
  · exact ⟨_, _, hrun, hw, fun t' heq => Except.ok.inj heq ▸ h⟩
  · exact ⟨_, _, hrun, hw, fun t' heq => Except.ok.inj heq ▸ h.track hp⟩
  · rw [hmove] at hmoved
    exact ⟨_, _, hrun, hmoved, fun _ => of_error_eq_ok⟩
  · rw [hmove] at hmoved
    refine ⟨_, _, hrun, hmoved, fun t' heq => ?_⟩
    cases heq
    refine ⟨h.files, h.created, ?_⟩
    rw [List.forall_mem_append, List.forall_mem_singleton]
    exact ⟨h.directories, hp, rfl⟩

theorem backup_within (hI : Enduring I cwd idle free loose) (h : Within targets t)
    (htarget : targets target)
    (hmovable : ∀ p, targets (.directory p) → Movable loose cwd p) (hw : I w) :
    ∃ result w', t.backup target w = (result, w') ∧ I w' ∧
      ∀ t', result = .ok t' → Within targets t' := by
  cases target with
  | file p =>
    obtain ⟨result, hrun, hwithin⟩ := backupFile_within h htarget w
    exact ⟨result, w, hrun, hw, hwithin⟩
  | directory p => exact backupDirectory_within hI h htarget (hmovable p htarget) hw

/-! ## Bringing back and giving up -/

theorem Within.rollback (hI : Enduring I cwd idle free loose) (h : Within targets t)
    (halone : ∀ target, targets target → target.Alone free loose cwd) (hw : I w) :
    I (t.rollback w) := by
  refine foldl_keeps (fun backup hbackup w₂ => ?_) (foldl_keeps (fun p hp w₁ hw₁ => ?_)
    (foldl_keeps (fun backup hbackup _ => ?_) hw))
  · obtain ⟨hpath, hpreserved⟩ := h.directories backup hbackup
    obtain ⟨hloose, hloose'⟩ := halone _ hpath
    rw [← hpreserved] at hloose'
    exact hI.keeps_moveOver hloose' hloose w₂
  · exact removeCreated_enduring hI (halone _ (h.created p (List.mem_mergeSort.1 hp))).1 hw₁
  · exact restoreFile_lasting hI.toLasting (halone _ (h.files backup hbackup))

/-- Only the places that directories are moved to matter when a transaction is given up. -/
theorem Within.commit_preserved (hI : Enduring I cwd idle free loose) (h : Within targets t)
    (hpreserved : ∀ p, targets (.directory p) → loose ((preservedPath p).place cwd)) (hw : I w) :
    I (t.commit w) := by
  refine foldl_keeps (fun backup hbackup => ?_) hw
  obtain ⟨hpath, heq⟩ := h.directories backup hbackup
  refine hI.keeps_removeTree ?_
  rw [heq]
  exact hpreserved _ hpath

theorem Within.commit (hI : Enduring I cwd idle free loose) (h : Within targets t)
    (hmovable : ∀ p, targets (.directory p) → Movable loose cwd p) (hw : I w) :
    I (t.commit w) := h.commit_preserved hI (fun p hp => (hmovable p hp).2) hw

/-! ## Beginning -/

/-- A transaction that is begun has changed at most the directories among its targets. -/
theorem begin_within (hI : Enduring I cwd idle free loose) {more : List Target}
    (hmore : ∀ target ∈ more, targets target)
    (hmovable : ∀ p, targets (.directory p) → Movable loose cwd p) (h : Within targets t)
    (hw : I w) (hrun : t.begin more w = (.ok t', w')) : I w' ∧ Within targets t' := by
  induction more generalizing t w with
  | nil =>
    cases hrun
    exact ⟨hw, h⟩
  | cons target more ih =>
    rw [List.forall_mem_cons] at hmore
    obtain ⟨result, w₁, hstep, hw₁, hwithin⟩ := backup_within hI h hmore.1 hmovable hw
    rw [begin_cons, hstep] at hrun
    cases result with
    | error failure => cases hrun
    | ok t₁ => exact ih hmore.2 (hwithin t₁ rfl) hw₁ hrun

/-- Files are remembered without a change. -/
theorem begin_files {files : List Path}
    (hrun : t.begin (files.map .file) w = (.ok t', w')) : w' = w := by
  induction files generalizing t with
  | nil =>
    cases hrun
    rfl
  | cons p files ih =>
    rw [List.map_cons, begin_cons, backup] at hrun
    cases hnew : t.files.any (·.path.same p) with
    | true =>
      rw [backupFile, hnew] at hrun
      exact ih hrun
    | false =>
      obtain ⟨failure, hstep⟩ | ⟨contents, -, hstep⟩ := backupFile_cases w hnew
      · rw [hstep] at hrun
        cases hrun
      · rw [hstep] at hrun
        exact ih hrun

/-- Beginning a transaction keeps what leaves its targets alone, also when it fails. -/
theorem keeps_begin (hI : Enduring I cwd idle free loose) {more : List Target}
    (hmore : ∀ target ∈ more, targets target)
    (halone : ∀ target, targets target → target.Alone free loose cwd) (h : Within targets t) :
    Keeps I (t.begin more) := by
  intro w hw
  induction more generalizing t w with
  | nil => exact hw
  | cons target more ih =>
    rw [List.forall_mem_cons] at hmore
    obtain ⟨result, w₁, hstep, hw₁, hwithin⟩ :=
      backup_within hI h hmore.1 (fun p hp => halone _ hp) hw
    rw [begin_cons, hstep]
    cases result with
    | error failure => exact h.rollback hI halone hw₁
    | ok t₁ => exact ih hmore.2 (hwithin t₁ rfl) w₁ hw₁

end Transaction

/-! ## Protected changes -/

namespace Work

open Transaction

variable {α : Type} {I : World → Prop} {cwd : List String} {idle free loose : List String → Prop}
variable {targets : List Target} {body : Work α} {site site' : Site} {a : α}

/-- A protected change keeps what it keeps itself and what leaves its targets alone. -/
theorem keeps_protecting (hI : Enduring I cwd idle free loose)
    (halone : ∀ target ∈ targets, target.Alone free loose cwd) (hw : I site.world)
    (hbody : ∀ w', I w' → I (body { site with world := w' }).2.world) :
    I (protecting targets body site).2.world := by
  have hmovable : ∀ p, .directory p ∈ targets → Movable loose cwd p := fun p hp => halone _ hp
  have hbegin := keeps_begin hI (fun _ => id) halone (within_empty (· ∈ targets)) site.world hw
  have hwithin : ∀ t w', begin {} targets site.world = (.ok t, w') →
      Within (· ∈ targets) t := fun t w' hrun =>
    (begin_within hI (fun _ => id) hmovable (within_empty _) hw hrun).2
  rw [protecting, bind_apply, liftM_apply]
  generalize begin {} targets site.world = step at hbegin hwithin
  obtain ⟨result, w'⟩ := step
  cases result with
  | error failure => exact hbegin
  | ok t =>
    have ht := hwithin t w' rfl
    have hstep := hbody w' hbegin
    dsimp only
    generalize body { site with world := w' } = ended at hstep
    obtain ⟨_ | a, site'⟩ := ended
    · exact ht.rollback hI halone hstep
    · exact ht.commit hI hmovable hstep

/-- A protected change that succeeds is made once its targets are remembered, and before they are
given up. -/
theorem begin_of_protecting_eq_ok (hrun : protecting targets body site = (.ok a, site')) :
    ∃ t w' site'', begin {} targets site.world = (.ok t, w') ∧
      body { site with world := w' } = (.ok a, site'') ∧
      site' = { site'' with world := t.commit site''.world } := by
  rw [protecting, bind_apply, liftM_apply] at hrun
  cases hbegin : begin {} targets site.world with
  | mk result w' =>
    rw [hbegin] at hrun
    cases result with
    | error failure => cases hrun
    | ok t =>
      dsimp only at hrun
      cases hbody : body { site with world := w' } with
      | mk result site'' =>
        rw [hbody] at hrun
        cases result with
        | error failure => cases hrun
        | ok b =>
          cases hrun
          exact ⟨t, w', site'', rfl, hbody, rfl⟩

theorem exists_of_protecting_eq_ok (h : protecting targets body site = (.ok a, site')) :
    ∃ site₁ site₂, body site₁ = (.ok a, site₂) := by
  obtain ⟨t, w', site'', -, hbody, -⟩ := begin_of_protecting_eq_ok h
  exact ⟨_, site'', hbody⟩

/-- A protected change that succeeds is made after the directories among its targets are moved
aside, and before those are given up. -/
theorem of_protecting_eq_ok (hI : Enduring I cwd idle free loose)
    (hmovable : ∀ p, .directory p ∈ targets → Movable loose cwd p) (hw : I site.world)
    (hrun : protecting targets body site = (.ok a, site')) :
    ∃ t w' site'', Within (· ∈ targets) t ∧ I w' ∧
      body { site with world := w' } = (.ok a, site'') ∧
      site' = { site'' with world := t.commit site''.world } := by
  obtain ⟨t, w', site'', hbegin, hbody, hend⟩ := begin_of_protecting_eq_ok hrun
  obtain ⟨hw', ht⟩ := begin_within hI (fun _ => id) hmovable (within_empty _) hw hbegin
  exact ⟨t, w', site'', ht, hw', hbody, hend⟩

end Work

end StubManager
