import Mathlib.Data.List.Nodup
import Mathlib.Logic.Relation
import StubManager.Proofs.Transaction.Scattering

/-!
# First snapshots

What a transaction remembers of scattered paths while they are remembered, also more than once, and
changed (`Course.Run`). A rollback brings a file back as it was when it was first remembered, and a
directory as long as no file is in its place (`Course.rollback_eq_first_iff`). A directory that was
not there is not even kept away if it was made and remembered again (`Course.lost_of_repetition`).
-/

namespace StubManager

open Node World Running Files Registry

namespace Transaction

/-- The path of a target. -/
def Target.path : Target → Path
  | .file p => p
  | .directory p => p

/-- A transaction in the course of changes, with what was there at each path when it was first
remembered. -/
structure Course where
  transaction : Transaction
  world : World
  first : Path → Option (Target × Option Node)

namespace Course

/-- The beginning. -/
def start (w : World) : Course where
  transaction := {}
  world := w
  first _ := none

/-- A target is remembered, unless that fails. -/
def backup (c : Course) (target : Target) : Course :=
  match c.transaction.backup target c.world with
  | (.ok t, w) =>
    { transaction := t
      world := w
      first := fun p => (c.first p).or
        (if p = target.path then some (target, c.world.find? p) else none) }
  | (.error _, w) => { c with world := w }

/-- A directory is remembered as one that is made by the changes. -/
def track (c : Course) (p : Path) : Course := { c with transaction := c.transaction.track p }

/-- What can happen in the course of a transaction. Changes are made at and below the paths; one
that was first remembered as a file does not become a directory. -/
inductive Step (paths : Path → Prop) (c : Course) : Course → Prop
  | backup (target : Target) (hpath : paths target.path) : Step paths c (c.backup target)
  | track (p : Path) (hp : paths p) : Step paths c (c.track p)
  | change (w : World)
      (hframe : Frame (fun t => ∃ p, paths p ∧ t = p.place c.world.cwd) c.world w)
      (hfiles : ∀ p, paths p → (c.first p).map Prod.fst = some (.file p) →
        w.isDirectory p = false) : Step paths c { c with world := w }

/-- Everything that happens in the course of a transaction. -/
def Run (paths : Path → Prop) : Course → Course → Prop := Relation.ReflTransGen (Step paths)

end Course

variable {paths : Path → Prop} {cwd : List String} {p q : Path} {w w' : World}
variable {t t' : Transaction} {first : Option (Target × Option Node)} {c c' : Course}

/-! ## Single paths -/

/-- Whether a transaction can bring a path back, by what was there when it was first remembered: a
file from its contents, a directory from the sibling that it was moved to. One that was not there
can be removed. -/
def Recalls (t : Transaction) (w : World) (p : Path) : Option (Target × Option Node) → Prop
  | none => p ∉ t.files.map (·.path) ∧ p ∉ t.directories.map (·.path)
  | some (.file _, node?) => p ∉ t.directories.map (·.path) ∧ w.isDirectory p = false ∧
      ∃ contents, { path := p, contents } ∈ t.files ∧ Holds contents node?
  | some (.directory _, node?) =>
    if node?.any Node.isDirectory then
      p ∈ t.directories.map (·.path) ∧ w.find? (preservedPath p) = node?
    else p ∈ t.created

/-- Whether all that a transaction remembers of a path is there. -/
structure Faithful (t : Transaction) (w : World) (p : Path)
    (first : Option (Target × Option Node)) : Prop where
  named : ∀ target node?, first = some (target, node?) → target.path = p
  kept : p ∈ t.directories.map (·.path) →
    ∃ entries, w.find? (preservedPath p) = some (.directory entries)
  recalls : Recalls t w p first

/-- Whether a transaction remembers a path as another one does. -/
structure Agrees (p : Path) (t t' : Transaction) : Prop where
  files : ∀ contents, { path := p, contents } ∈ t'.files ↔ { path := p, contents } ∈ t.files
  created : p ∈ t.created → p ∈ t'.created
  directories : p ∈ t'.directories.map (·.path) ↔ p ∈ t.directories.map (·.path)

theorem mem_map_path {files : List FileBackup} :
    p ∈ files.map (·.path) ↔ ∃ contents, { path := p, contents } ∈ files := by
  rw [List.mem_map]
  constructor
  · rintro ⟨backup, hmem, rfl⟩
    exact ⟨backup.contents, hmem⟩
  · rintro ⟨contents, hmem⟩
    exact ⟨_, hmem, rfl⟩

namespace Agrees

theorem refl (p : Path) (t : Transaction) : Agrees p t t := ⟨fun _ => .rfl, id, .rfl⟩

theorem track (p : Path) (t : Transaction) (q : Path) : Agrees p t (t.track q) := by
  rw [Transaction.track]
  split
  · exact .refl p t
  · exact ⟨fun _ => .rfl, List.mem_append_left _, .rfl⟩

/-- A file that is remembered is no other path. -/
theorem file (hne : p ≠ q) (t : Transaction) (contents : Option ByteArray) :
    Agrees p t { t with files := t.files ++ [{ path := q, contents }] } where
  files _ := by
    rw [List.mem_append, List.mem_singleton]
    exact or_iff_left fun heq => hne (congrArg FileBackup.path heq)
  created := id
  directories := .rfl

/-- A directory that is moved aside is no other path. -/
theorem directory (hne : p ≠ q) (t : Transaction) (preserved : Path) :
    Agrees p t { t with directories := t.directories ++ [{ path := q, preserved }] } where
  files _ := .rfl
  created := id
  directories := by
    rw [List.map_append, List.mem_append, List.map_singleton, List.mem_singleton]
    exact or_iff_left hne

end Agrees

/-- What is remembered of a path depends on nothing else. -/
theorem Faithful.step (h : Faithful t w p first) (hagrees : Agrees p t t')
    (hsibling : p ∈ t.directories.map (·.path) →
      w'.find? (preservedPath p) = w.find? (preservedPath p))
    (hfile : ∀ node?, first = some (.file p, node?) →
      w.isDirectory p = false → w'.isDirectory p = false) : Faithful t' w' p first where
  named := h.named
  kept hmem := by
    rw [hagrees.directories] at hmem
    rw [hsibling hmem]
    exact h.kept hmem
  recalls := by
    have hrecalls := h.recalls
    match first with
    | none =>
      refine ⟨fun hmem => hrecalls.1 ?_, fun hmem => hrecalls.2 (hagrees.directories.1 hmem)⟩
      obtain ⟨contents, hmem⟩ := mem_map_path.1 hmem
      exact mem_map_path.2 ⟨contents, (hagrees.files contents).1 hmem⟩
    | some (.file q, node?) =>
      obtain ⟨hnot, hdirectory, contents, hmem, hholds⟩ := hrecalls
      have hpath : q = p := h.named _ _ rfl
      exact ⟨fun hmem => hnot (hagrees.directories.1 hmem),
        hfile node? (by rw [hpath]) hdirectory, contents, (hagrees.files contents).2 hmem, hholds⟩
    | some (.directory _, node?) =>
      rw [Recalls] at hrecalls ⊢
      split at hrecalls
      · next hdirectory =>
        rw [if_pos hdirectory]
        exact ⟨hagrees.directories.2 hrecalls.1, (hsibling hrecalls.1).trans hrecalls.2⟩
      · next hdirectory =>
        rw [if_neg hdirectory]
        exact hagrees.created hrecalls

/-- A file is remembered that was not remembered so before. -/
theorem Faithful.file (h : Faithful t w p first) (hnew : p ∉ t.files.map (·.path))
    {contents : Option ByteArray} (hholds : Holds contents (w.find? p)) :
    Faithful { t with files := t.files ++ [{ path := p, contents }] } w p
      (first.or (some (.file p, w.find? p))) where
  named := by
    cases first with
    | none => rintro _ _ ⟨⟩; rfl
    | some noted => exact h.named
  kept := h.kept
  recalls := by
    have hrecalls := h.recalls
    match first with
    | none =>
      refine ⟨hrecalls.2, ?_, contents, List.mem_append_right _ (List.mem_singleton_self _),
        hholds⟩
      rw [World.isDirectory]
      cases contents with
      | none =>
        rw [show w.find? p = none from hholds]
        rfl
      | some data =>
        obtain ⟨mode, hfind⟩ := hholds
        rw [hfind]
        rfl
    | some (.file q, node?) =>
      obtain ⟨-, -, contents, hmem, -⟩ := hrecalls
      exact absurd (mem_map_path.2 ⟨contents, hmem⟩) hnew
    | some (.directory _, node?) => exact hrecalls

/-- A directory that is not there is remembered as one that is made. -/
theorem Faithful.absent (h : Faithful t w p first) (hmade : p ∈ (t.track p).created)
    (hnot : w.isDirectory p = false) :
    Faithful (t.track p) w p (first.or (some (.directory p, w.find? p))) := by
  have hstep := h.step (.track p t p) (fun _ => rfl) fun _ _ => id
  cases first with
  | none =>
    refine ⟨by rintro _ _ ⟨⟩; rfl, hstep.kept, ?_⟩
    rw [World.isDirectory] at hnot
    rw [Option.none_or, Recalls, hnot, if_neg Bool.false_ne_true]
    exact hmade
  | some noted => exact hstep

/-- A directory is remembered by the sibling that it was moved aside to. -/
theorem Faithful.moved (h : Faithful t w p first) (hnew : p ∉ t.directories.map (·.path))
    {entries : List (String × Node)} (hthere : w.find? p = some (.directory entries))
    (hmoved : w'.find? (preservedPath p) = some (.directory entries)) :
    Faithful { t with directories :=
      t.directories ++ [{ path := p, preserved := preservedPath p }] } w' p
      (first.or (some (.directory p, w.find? p))) where
  named := by
    cases first with
    | none => rintro _ _ ⟨⟩; rfl
    | some noted => exact h.named
  kept _ := ⟨entries, hmoved⟩
  recalls := by
    have hrecalls := h.recalls
    match first with
    | none =>
      have hdirectory : (some (.directory entries) : Option Node).any Node.isDirectory = true := rfl
      rw [Option.none_or, Recalls, hthere, if_pos hdirectory]
      exact ⟨by simp, hmoved⟩
    | some (.file _, node?) =>
      have hnot := hrecalls.2.1
      rw [World.isDirectory, hthere] at hnot
      cases hnot
    | some (.directory _, node?) =>
      rw [Recalls] at hrecalls
      rw [Option.some_or, Recalls]
      split at hrecalls
      · exact absurd hrecalls.1 hnew
      · next hother =>
        rw [if_neg hother]
        exact hrecalls

/-! ## Courses -/

/-- What holds in the course of a transaction. -/
structure Course.Sound (paths : Path → Prop) (cwd : List String) (c : Course) : Prop where
  grounded : Grounded paths cwd c.world
  coherent : Coherent paths c.transaction
  opened : ∀ backup ∈ c.transaction.files, backup.contents ≠ none →
    Valid backup.path ∧ c.world.root.DirAt ((holder backup.path).place cwd)
  faithful : ∀ p, paths p → Faithful c.transaction c.world p (c.first p)

theorem Coherent.track (h : Coherent paths t) (hp : paths p) : Coherent paths (t.track p) := by
  rw [Transaction.track]
  split
  · exact h
  · refine { h with created := ?_ }
    rw [List.forall_mem_append, List.forall_mem_singleton]
    exact ⟨h.created, hp⟩

theorem Coherent.file (h : Coherent paths t) (hp : paths p) (hnew : p ∉ t.files.map (·.path))
    (contents : Option ByteArray) :
    Coherent paths { t with files := t.files ++ [{ path := p, contents }] } where
  files := by
    rw [List.forall_mem_append, List.forall_mem_singleton]
    exact ⟨h.files, hp⟩
  files_once := by
    rw [List.map_append, List.map_singleton]
    exact h.files_once.append (List.nodup_singleton _) (by simpa using hnew)
  created := h.created
  directories := h.directories
  directories_once := h.directories_once

theorem Coherent.directory (h : Coherent paths t) (hp : paths p) (hvalid : Valid p)
    (hnew : p ∉ t.directories.map (·.path)) :
    Coherent paths { t with directories :=
      t.directories ++ [{ path := p, preserved := preservedPath p }] } where
  files := h.files
  files_once := h.files_once
  created := h.created
  directories := by
    rw [List.forall_mem_append, List.forall_mem_singleton]
    exact ⟨h.directories, hp, hvalid, rfl⟩
  directories_once := by
    rw [List.map_append, List.map_singleton]
    exact h.directories_once.append (List.nodup_singleton _) (by simpa using hnew)

theorem files_track (t : Transaction) (p : Path) : (t.track p).files = t.files := by
  rw [Transaction.track]
  split <;> rfl

theorem Scattered.mem_created_track (hs : Scattered paths cwd)
    (hcreated : ∀ q ∈ t.created, paths q) (hp : paths p) : p ∈ (t.track p).created := by
  rw [Transaction.track]
  split
  · next hmade => simpa using (hs.any_same_iff (f := id) hcreated hp).1 hmade
  · exact List.mem_append_right _ (List.mem_singleton_self p)

/-- A directory that is moved aside leaves other paths, also if it stays. -/
theorem Grounded.moveAside (h : Grounded paths cwd w) (hs : Scattered paths cwd) (hq : paths q)
    {result : Except FileFault Unit} (hmove : moveOver q (preservedPath q) w = (result, w')) :
    Spared (fun _ => False) (Standing paths w) w w' ∧ ∀ p, paths p → p ≠ q →
      w'.find? p = w.find? p ∧ w'.find? (preservedPath p) = w.find? (preservedPath p) := by
  have hspared : ∀ {kept : List String → Prop}, (∀ place, Owned q cwd place → ∀ other,
      kept other → ¬ other <+: place ∧ ¬ place <+: other) →
      Spared kept (Standing paths w) w w' := by
    intro kept hkept
    have hspared := spared_of_apart h hs hq hkept
      (f := fun w => (moveOver q (preservedPath q) w).2)
      fun hI _ hloose hloose' hw => hI.keeps_moveOver hloose hloose' _ hw
    rwa [hmove] at hspared
  refine ⟨hspared fun _ _ _ => False.elim, fun p hp hne => ?_⟩
  exact h.find?_of_spared hs hp (hspared (hs.owned_apart hq hp (Ne.symm hne)))

/-- A directory that is moved aside is then in the place of the sibling. -/
theorem find?_of_moveOver (h : Grounded paths cwd w) (hs : Scattered paths cwd) (hp : paths p)
    {entries : List (String × Node)} (hthere : w.find? p = some (.directory entries))
    (hmove : moveOver p (preservedPath p) w = (.ok (), w')) (h' : Grounded paths cwd w') :
    w'.find? (preservedPath p) = some (.directory entries) := by
  obtain ⟨name, hunder, hpreserved⟩ := hs.exists_under hp
  have hturns := h.turns_apart hs hp hunder (.inr rfl)
  obtain ⟨result, w₁, hrun, -, hcases, -⟩ := Files.moveOver_cases h.plain hturns hunder hpreserved
    (previousName_ne name)
  rw [hmove] at hrun
  cases hrun
  obtain ⟨-, hvalid', node, hnode, hmoved, -⟩ := hcases
  rw [h'.find?_eq hp hunder hpreserved hvalid', ← h.start, hmoved, ← hnode, ← hthere,
    h.find?_eq hp hunder hunder ((find?_eq_some_iff h.plain).1 hthere).1, h.start]

namespace Course

theorem sound_start (h : Grounded paths cwd w) : (Course.start w).Sound paths cwd where
  grounded := h
  coherent := by constructor <;> simp [Course.start]
  opened := by simp [Course.start]
  faithful p _ := ⟨by simp [Course.start], by simp [Course.start],
    List.not_mem_nil, List.not_mem_nil⟩

namespace Sound

theorem opened_of (h : c.Sound paths cwd)
    (hdirs : ∀ place, Standing paths c.world place → w.root.DirAt place) :
    ∀ backup ∈ c.transaction.files, backup.contents ≠ none →
      Valid backup.path ∧ w.root.DirAt ((holder backup.path).place cwd) := by
  intro backup hbackup hsome
  obtain ⟨hvalid, hdir⟩ := h.opened backup hbackup hsome
  rw [← h.grounded.start] at hdir ⊢
  exact ⟨hvalid, hdirs _ ⟨⟨_, h.coherent.files backup hbackup, .inr rfl⟩, hdir⟩⟩

/-- A change of the world. -/
theorem move (h : c.Sound paths cwd) (hplain : w.root.Plain) (hcwd : w.cwd = c.world.cwd)
    (hdirs : ∀ place, Standing paths c.world place → w.root.DirAt place)
    (hfaithful : ∀ p, paths p → Faithful c.transaction w p (c.first p)) :
    Sound paths cwd { c with world := w } where
  grounded := h.grounded.step hplain hcwd hdirs
  coherent := h.coherent
  opened := h.opened_of hdirs
  faithful := hfaithful

theorem change (h : c.Sound paths cwd) (hs : Scattered paths cwd)
    (hframe : Frame (fun t => ∃ p, paths p ∧ t = p.place c.world.cwd) c.world w)
    (hfiles : ∀ p, paths p → (c.first p).map Prod.fst = some (.file p) →
      w.isDirectory p = false) : Sound paths cwd { c with world := w } := by
  obtain rfl := h.grounded.start
  have hdirs : ∀ place, Standing paths c.world place → w.root.DirAt place := by
    rintro place ⟨hway, hdir⟩
    refine hframe.dir place ?_ hdir
    rintro t ⟨q, hq, heq⟩
    rw [heq]
    exact hs.not_le_way hq (.inl rfl) hway
  have h' := h.grounded.step (hframe.plain h.grounded.plain) hframe.cwd hdirs
  refine h.move (hframe.plain h.grounded.plain) hframe.cwd hdirs fun p hp => ?_
  refine (h.faithful p hp).step (.refl p _) (fun _ => ?_) fun node? hfirst _ =>
    hfiles p hp (by rw [hfirst]; rfl)
  obtain ⟨name, hunder, hpreserved⟩ := hs.exists_under hp
  refine h.grounded.find?_congr h' hp hunder hpreserved (hframe.apart _ ?_)
  rintro t ⟨q, hq, heq⟩
  rw [heq]
  by_cases hne : q = p
  · rw [hne]
    exact hs.self_apart hp
  · exact (hs.beside p q hp hq (Ne.symm hne)).symm

theorem track (h : c.Sound paths cwd) (hq : paths q) : (c.track q).Sound paths cwd where
  grounded := h.grounded
  coherent := h.coherent.track hq
  opened := by
    rw [Course.track, files_track]
    exact h.opened
  faithful p hp := (h.faithful p hp).step (.track p _ q) (fun _ => rfl) fun _ _ => id

/-! ### Remembering -/

/-- A target is remembered, and other paths as before. -/
theorem backup_of_eq_ok {target : Target}
    (hrun : c.transaction.backup target c.world = (.ok t, w)) (hgrounded : Grounded paths cwd w)
    (hcoherent : Coherent paths t)
    (hopened : ∀ backup ∈ t.files, backup.contents ≠ none →
      Valid backup.path ∧ w.root.DirAt ((holder backup.path).place cwd))
    (hothers : ∀ p, paths p → p ≠ target.path → Faithful t w p (c.first p))
    (hself : Faithful t w target.path
      ((c.first target.path).or (some (target, c.world.find? target.path)))) :
    (c.backup target).Sound paths cwd := by
  rw [Course.backup, hrun]
  refine ⟨hgrounded, hcoherent, hopened, fun p hp => ?_⟩
  dsimp only
  by_cases hne : p = target.path
  · rw [if_pos hne, hne]
    exact hself
  · rw [if_neg hne, Option.or_none]
    exact hothers p hp hne

/-- A path that was remembered in its way is remembered so again. -/
theorem backup_of_known (h : c.Sound paths cwd) {target : Target} (hpath : paths target.path)
    (hrun : c.transaction.backup target c.world = (.ok c.transaction, c.world))
    (hknown : c.first target.path ≠ none) : (c.backup target).Sound paths cwd := by
  refine backup_of_eq_ok hrun h.grounded h.coherent h.opened (fun p hp _ => h.faithful p hp) ?_
  have hself := h.faithful _ hpath
  cases hfirst : c.first target.path with
  | none => exact absurd hfirst hknown
  | some noted =>
    rw [hfirst] at hself
    exact hself

theorem backupFile (h : c.Sound paths cwd) (hs : Scattered paths cwd) (hq : paths q) :
    (c.backup (.file q)).Sound paths cwd := by
  have hself := h.faithful q hq
  have hmem := hs.any_same_iff h.coherent.files hq
  cases hnew : c.transaction.files.any (·.path.same q) with
  | true =>
    have hrun : c.transaction.backup (.file q) c.world = (.ok c.transaction, c.world) := by
      rw [Transaction.backup, Transaction.backupFile, hnew]
      rfl
    refine h.backup_of_known hq hrun fun hfirst => ?_
    have hrecalls := hself.recalls
    rw [show c.first q = none from hfirst] at hrecalls
    exact hrecalls.1 (hmem.1 hnew)
  | false =>
    rw [hnew] at hmem
    have hnot : q ∉ c.transaction.files.map (·.path) := fun hin => Bool.false_ne_true (hmem.2 hin)
    obtain ⟨failure, hrun⟩ | ⟨contents, hnoted, hrun⟩ := backupFile_cases c.world hnew
    · have hrun' : c.transaction.backup (.file q) c.world = (.error failure, c.world) := hrun
      rw [Course.backup, hrun']
      exact h
    · rw [noted_iff] at hnoted
      refine backup_of_eq_ok hrun h.grounded (h.coherent.file hq hnot contents) ?_
        (fun p hp hne => (h.faithful p hp).step (.file hne _ contents) (fun _ => rfl)
          fun _ _ => id) ?_
      · rw [List.forall_mem_append, List.forall_mem_singleton]
        refine ⟨h.opened, fun hsome => ?_⟩
        cases contents with
        | none => exact absurd rfl hsome
        | some data =>
          obtain ⟨mode, hfind⟩ := hnoted
          exact h.grounded.opened hs hq hfind
      · exact hself.file hnot hnoted

theorem backupDirectory (h : c.Sound paths cwd) (hs : Scattered paths cwd) (hq : paths q) :
    (c.backup (.directory q)).Sound paths cwd := by
  have hself := h.faithful q hq
  have hmem := hs.any_same_iff (fun backup hin => (h.coherent.directories backup hin).path) hq
  obtain ⟨hknown, hrun⟩ | ⟨hnew, hnot, hrun⟩ |
      ⟨hnew, hdirectory, ⟨fault, w, hmove, hrun⟩ | ⟨w, hmove, hrun⟩⟩ :=
    c.transaction.backupDirectory_outcome q c.world
  · refine h.backup_of_known hq hrun fun hfirst => ?_
    have hrecalls := hself.recalls
    rw [show c.first q = none from hfirst] at hrecalls
    exact hrecalls.2 (hmem.1 hknown)
  · have hmade := hs.mem_created_track h.coherent.created hq
    refine backup_of_eq_ok hrun h.grounded (h.coherent.track hq) ?_
      (fun p hp _ => (h.faithful p hp).step (.track p _ q) (fun _ => rfl) fun _ _ => id)
      (hself.absent hmade hnot)
    rw [files_track]
    exact h.opened
  · -- The directory stays, and the transaction remembers nothing of it.
    have hrun' : c.transaction.backup (.directory q) c.world = (.error _, w) := hrun
    rw [Course.backup, hrun']
    obtain ⟨hway, hothers⟩ := h.grounded.moveAside hs hq hmove
    refine h.move hway.plain hway.cwd hway.dir fun p hp => ?_
    by_cases hne : p = q
    · rw [hne]
      refine hself.step (.refl q _) (fun hin => ?_) fun _ _ hnot => ?_
      · rw [hmem.2 hin] at hnew
        cases hnew
      · rw [hdirectory] at hnot
        cases hnot
    · obtain ⟨hsame, hsibling⟩ := hothers p hp hne
      refine (h.faithful p hp).step (.refl p _) (fun _ => hsibling) fun _ _ hnot => ?_
      rw [World.isDirectory, hsame]
      exact hnot
  · obtain ⟨hway, hothers⟩ := h.grounded.moveAside hs hq hmove
    obtain ⟨entries, hthere⟩ := isDirectory_iff.1 hdirectory
    have hnot : q ∉ c.transaction.directories.map (·.path) := by
      rw [← hmem, hnew]
      exact Bool.false_ne_true
    have hgrounded := h.grounded.spared hway
    have hmoved := find?_of_moveOver h.grounded hs hq hthere hmove hgrounded
    have hvalid := (h.grounded.opened hs hq hthere).1
    refine backup_of_eq_ok hrun hgrounded (h.coherent.directory hq hvalid hnot)
      (h.opened_of hway.dir) (fun p hp hne => ?_) (hself.moved hnot hthere hmoved)
    obtain ⟨hsame, hsibling⟩ := hothers p hp hne
    refine (h.faithful p hp).step (.directory hne _ _) (fun _ => hsibling) fun _ _ hfile => ?_
    rw [World.isDirectory, hsame]
    exact hfile

/-- What can happen keeps what holds. -/
theorem step (h : c.Sound paths cwd) (hs : Scattered paths cwd) (hstep : Step paths c c') :
    c'.Sound paths cwd := by
  cases hstep with
  | backup target hpath =>
    cases target with
    | file p => exact h.backupFile hs hpath
    | directory p => exact h.backupDirectory hs hpath
  | track p hp => exact h.track hp
  | change w hframe hfiles => exact h.change hs hframe hfiles

theorem run (h : c.Sound paths cwd) (hs : Scattered paths cwd) (hrun : Run paths c c') :
    c'.Sound paths cwd := by
  induction hrun with
  | refl => exact h
  | tail _ hstep ih => exact ih.step hs hstep

end Sound

/-! ## Rollbacks -/

/-- Whether a rollback brings a path back to what was there when it was first remembered. A file
always comes back. A directory does unless, once the files are back, a file is in its place. If
there was no directory, then none may have been made and remembered again, and a file that was there
must not have changed. -/
def Recoverable (c : Course) (p : Path) : Target × Option Node → Prop
  | (.file _, _) => True
  | (.directory _, none) => ¬ (c.transaction.refiled c.world).isFile p ∧
      p ∉ c.transaction.directories.map (·.path)
  | (.directory _, some (.directory _)) => ¬ (c.transaction.refiled c.world).isFile p
  | (.directory _, some node) =>
    ((c.transaction.refiled c.world).find? p).map withoutMode = some node.withoutMode

theorem withoutMode_of_holds {contents : Option ByteArray} {here there : Option Node}
    (hhere : Holds contents here) (hthere : Holds contents there) :
    here.map withoutMode = there.map withoutMode := by
  match contents with
  | none => exact congrArg _ (Eq.trans hhere (Eq.symm hthere))
  | some data =>
    obtain ⟨mode, rfl⟩ := hhere
    obtain ⟨mode', rfl⟩ := hthere
    rfl

theorem directory_ne_withoutMode (entries : List (String × Node)) {node : Node}
    (hnode : node.isDirectory = false) : directory entries ≠ node.withoutMode := by
  cases node with
  | directory entries' => cases hnode
  | file data mode => exact fun heq => nomatch heq
  | link target => exact fun heq => nomatch heq

theorem map_withoutMode_ne (hplain : w.root.Plain) (hfile : ¬ w.isFile p) {node : Node}
    (hnode : node.isDirectory = false) : (w.find? p).map withoutMode ≠ some node.withoutMode := by
  cases hfind : w.find? p with
  | none => simp
  | some there =>
    cases there with
    | file data mode => exact absurd (isFile_iff.2 ⟨data, mode, hfind⟩) hfile
    | link target => exact absurd (locate_of_find? hplain hfind true).2 (hplain.linkless _ _)
    | directory entries =>
      exact fun heq => directory_ne_withoutMode entries hnode (Option.some.inj heq)

namespace Sound

/-- A file comes back. -/
theorem rollback_file (h : c.Sound paths cwd) (hs : Scattered paths cwd) (hp : paths p)
    {node? : Option Node} (hfirst : c.first p = some (.file q, node?)) :
    ((c.transaction.rollback c.world).find? p).map withoutMode = node?.map withoutMode := by
  have hfaithful := h.faithful p hp
  rw [hfirst] at hfaithful
  obtain ⟨hnot, hdirectory, contents, hmem, hholds⟩ := hfaithful.recalls
  have hback : Holds contents ((c.transaction.refiled c.world).find? p) :=
    holds_foldl_restoreFile h.grounded hs hp h.coherent.files h.coherent.files_once hmem hdirectory
      (h.opened _ hmem)
  refine withoutMode_of_holds ?_ hholds
  rw [h.coherent.find?_rollback h.grounded hs hp hfaithful.kept, if_neg hnot]
  split
  · exact hback
  · next hfile =>
    -- If no file comes back then there was none.
    match contents with
    | none =>
      rw [show (c.transaction.refiled c.world).find? p = none from hback, ite_self]
      rfl
    | some data =>
      obtain ⟨mode, hthere⟩ := hback
      exact absurd (isFile_iff.2 ⟨data, mode, hthere⟩) hfile

/-- A directory comes back as far as it can be brought back. -/
theorem rollback_directory_iff (h : c.Sound paths cwd) (hs : Scattered paths cwd) (hp : paths p)
    {node? : Option Node} (hfirst : c.first p = some (.directory q, node?)) :
    ((c.transaction.rollback c.world).find? p).map withoutMode = node?.map withoutMode ↔
      c.Recoverable p (.directory q, node?) := by
  have hfaithful := h.faithful p hp
  rw [hfirst] at hfaithful
  obtain ⟨-, hkept, hrecalls⟩ := hfaithful
  rw [Recalls] at hrecalls
  have hplain : (c.transaction.refiled c.world).root.Plain :=
    (sibling_foldl_restoreFile h.grounded hs hp h.coherent.files).1.plain
  rw [h.coherent.find?_rollback h.grounded hs hp hkept]
  by_cases hfile : (c.transaction.refiled c.world).isFile p
  · -- A file is in the place of the directory.
    obtain ⟨data, mode, hthere⟩ := isFile_iff.1 hfile
    rw [if_pos hfile]
    match node? with
    | none => simp [Recoverable, hfile, hthere]
    | some (.directory entries) => simp [Recoverable, hfile, hthere, withoutMode]
    | some (.file ..) => rfl
    | some (.link _) => rfl
  · rw [if_neg hfile]
    have hnothing : ∀ node : Node, node.isDirectory = false → p ∈ c.transaction.created →
        (if p ∈ c.transaction.directories.map (·.path) then c.world.find? (preservedPath p)
          else if p ∈ c.transaction.created then none
          else (c.transaction.refiled c.world).find? p).map withoutMode
            ≠ some node.withoutMode := by
      intro node hnode hmade
      by_cases hmem : p ∈ c.transaction.directories.map (·.path)
      · obtain ⟨entries, hthere⟩ := hkept hmem
        rw [if_pos hmem, hthere]
        exact fun heq => directory_ne_withoutMode entries hnode (Option.some.inj heq)
      · rw [if_neg hmem, if_pos hmade]
        simp
    match node? with
    | none =>
      rw [if_neg (by simp)] at hrecalls
      by_cases hmem : p ∈ c.transaction.directories.map (·.path)
      · obtain ⟨entries, hthere⟩ := hkept hmem
        rw [if_pos hmem, hthere]
        simp [Recoverable, hmem]
      · rw [if_neg hmem, if_pos hrecalls]
        simp [Recoverable, hmem, hfile]
    | some (.directory entries) =>
      have hdirectory : (some (.directory entries) : Option Node).any Node.isDirectory = true := rfl
      rw [if_pos hdirectory] at hrecalls
      rw [if_pos hrecalls.1, hrecalls.2]
      simp [Recoverable, hfile]
    | some (.file data mode) =>
      exact iff_of_false (hnothing _ rfl hrecalls) (map_withoutMode_ne hplain hfile rfl)
    | some (.link target) =>
      exact iff_of_false (hnothing _ rfl hrecalls) (map_withoutMode_ne hplain hfile rfl)

end Sound

/-- After a rollback a path leads to what was there when it was first remembered, up to the
permission of a file, exactly if that can be brought back. -/
theorem rollback_eq_first_iff (hs : Scattered paths w.cwd) (h : Grounded paths w.cwd w)
    (hrun : Run paths (start w) c) (hp : paths p) {target : Target} {node? : Option Node}
    (hfirst : c.first p = some (target, node?)) :
    ((c.transaction.rollback c.world).find? p).map withoutMode = node?.map withoutMode ↔
      c.Recoverable p (target, node?) := by
  have hsound := (sound_start h).run hs hrun
  cases target with
  | file q => exact iff_of_true (hsound.rollback_file hs hp hfirst) trivial
  | directory q => exact hsound.rollback_directory_iff hs hp hfirst

/-- Something is put in the place of a path. -/
def put (c : Course) (p : Path) (node : Node) : Course :=
  { c with world := c.world.put (p.place c.world.cwd) node }

theorem step_put {node : Node} (hs : Scattered paths cwd) (hp : paths p) (hnode : node.Plain)
    (hfiles : ∀ q, paths q → (c.first q).map Prod.fst = some (.file q) →
      (c.put p node).world.isDirectory q = false) : Step paths c (c.put p node) := by
  refine .change _ ((Frame.refl _ c.world).put ⟨p, hp, rfl⟩ (List.prefix_refl _) ?_ hnode) hfiles
  intro last hlast
  obtain ⟨name, hname, hends⟩ := hs.named p hp
  obtain ⟨parent, hplace⟩ := Path.exists_place hname hends c.world.cwd
  rw [hplace, List.getLast?_concat] at hlast
  exact Option.some.inj hlast ▸ hname

/-- A file `a` beside a directory `d`. -/
def smallTree : World where
  root := .directory [("a", .file .empty false), ("d", .directory [("f", .file .empty true)])]
  cwd := []
  tempDir := ⟨"tmp"⟩
  clock := { year := 2025, month := 1, day := 1, hour := 0, minute := 0, second := 0
             nanosecond := 0 }

/-- Paths that can be remembered in it. -/
def smallPaths : List Path := [⟨"a"⟩, ⟨"d"⟩, ⟨"e"⟩]

/-- A file with other contents. -/
def newFile : Node := .file "new".toUTF8 false

theorem scattered_small : Scattered (· ∈ smallPaths) smallTree.cwd :=
  .of_straight (by decide +kernel) (by decide +kernel) (by decide +kernel)

theorem grounded_small : Grounded (· ∈ smallPaths) smallTree.cwd smallTree := by
  refine .of_straight ?_ (by decide +kernel)
  have hinner : (Node.directory [("f", .file .empty true)]).Plain := by
    simp [plain_directory_iff, plain_file, IsName]
  refine plain_directory_iff.2 ⟨?_, (by decide : ["a", "d"].Pairwise (· < ·))⟩
  simp [hinner, plain_file, IsName]

theorem newFile_plain : newFile.Plain := plain_file _ _

theorem directory_plain : (Node.directory [("g", newFile)]).Plain := by
  simp [plain_directory_iff, newFile, plain_file, IsName]

/-- Both are remembered, changed and remembered again. -/
def reworked : Course :=
  ((((((start smallTree).backup (.directory ⟨"d"⟩)).put ⟨"d"⟩ (.directory [("g", newFile)])).backup
    (.file ⟨"a"⟩)).put ⟨"a"⟩ newFile).backup (.file ⟨"a"⟩)).backup (.directory ⟨"d"⟩)

theorem rollback_eq_first_of_reworked :
    reworked.world.find? ⟨"a"⟩ = some newFile ∧
      reworked.world.find? ⟨"d"⟩ = some (.directory [("g", newFile)]) ∧
      ((reworked.transaction.rollback reworked.world).find? ⟨"a"⟩).map withoutMode
        = some (.file .empty false) ∧
      ((reworked.transaction.rollback reworked.world).find? ⟨"d"⟩).map withoutMode
        = some (.directory [("f", .file .empty true)]) := by
  have hrun : Run (· ∈ smallPaths) (start smallTree) reworked := by
    refine ((((((Relation.ReflTransGen.refl.tail (.backup (.directory ⟨"d"⟩) ?_)).tail
      (step_put scattered_small (p := ⟨"d"⟩) ?_ directory_plain ?_)).tail
      (.backup (.file ⟨"a"⟩) ?_)).tail
      (step_put scattered_small (p := ⟨"a"⟩) ?_ newFile_plain ?_)).tail
      (.backup (.file ⟨"a"⟩) ?_)).tail (.backup (.directory ⟨"d"⟩) ?_)) <;>
    decide +kernel
  have hfile : reworked.first ⟨"a"⟩ = some (.file ⟨"a"⟩, smallTree.find? ⟨"a"⟩) := rfl
  have hdirectory : reworked.first ⟨"d"⟩ = some (.directory ⟨"d"⟩, smallTree.find? ⟨"d"⟩) := rfl
  refine ⟨rfl, rfl, ?_, ?_⟩
  · exact (rollback_eq_first_iff scattered_small grounded_small hrun (by decide +kernel) hfile).2
      trivial
  · have hnone : reworked.Recoverable ⟨"d"⟩ (.directory ⟨"d"⟩, smallTree.find? ⟨"d"⟩) :=
      (by decide +kernel : ¬ (reworked.transaction.refiled reworked.world).isFile ⟨"d"⟩ = true)
    exact (rollback_eq_first_iff scattered_small grounded_small hrun (by decide +kernel)
      hdirectory).2 hnone

/-- A directory is made where none was remembered, and remembered again. -/
def remade : Course :=
  (((start smallTree).backup (.directory ⟨"e"⟩)).put ⟨"e"⟩ (.directory [("g", newFile)])).backup
    (.directory ⟨"e"⟩)

/-- A file is put in the place of a directory. -/
def replaced : Course := ((start smallTree).backup (.directory ⟨"d"⟩)).put ⟨"d"⟩ newFile

/-- A file is remembered below the sibling that a directory is moved aside to. -/
def sunk : Course :=
  ((start smallTree).backup (.file ⟨".previous-d/f"⟩)).backup (.directory ⟨"d"⟩)

/-- A directory that was not there is there after a rollback, one that was there is a file, and one
that was not even changed has lost a file. -/
theorem lost_of_repetition :
    Scattered (· ∈ smallPaths) smallTree.cwd ∧ Grounded (· ∈ smallPaths) smallTree.cwd smallTree ∧
      (Run (· ∈ smallPaths) (start smallTree) remade ∧
        remade.first ⟨"e"⟩ = some (.directory ⟨"e"⟩, none) ∧
        (remade.transaction.rollback remade.world).isDirectory ⟨"e"⟩) ∧
      (Run (· ∈ smallPaths) (start smallTree) replaced ∧
        replaced.first ⟨"d"⟩
          = some (.directory ⟨"d"⟩, some (.directory [("f", .file .empty true)])) ∧
        (replaced.transaction.rollback replaced.world).isFile ⟨"d"⟩) ∧
      Run (· ∈ [⟨".previous-d/f"⟩, ⟨"d"⟩]) (start smallTree) sunk ∧
        sunk.first ⟨"d"⟩ = some (.directory ⟨"d"⟩, some (.directory [("f", .file .empty true)])) ∧
        ¬ (sunk.transaction.rollback sunk.world).exists? ⟨"d/f"⟩ := by
  refine ⟨scattered_small, grounded_small, ⟨?_, rfl, by decide +kernel⟩,
    ⟨?_, rfl, by decide +kernel⟩, ?_, rfl, by decide +kernel⟩
  · refine ((Relation.ReflTransGen.refl.tail (.backup (.directory ⟨"e"⟩) ?_)).tail
      (step_put scattered_small (p := ⟨"e"⟩) ?_ directory_plain ?_)).tail
      (.backup (.directory ⟨"e"⟩) ?_) <;>
    decide +kernel
  · refine (Relation.ReflTransGen.refl.tail (.backup (.directory ⟨"d"⟩) ?_)).tail
      (step_put scattered_small (p := ⟨"d"⟩) ?_ newFile_plain ?_) <;>
    decide +kernel
  · refine (Relation.ReflTransGen.refl.tail (.backup (.file ⟨".previous-d/f"⟩) ?_)).tail
      (.backup (.directory ⟨"d"⟩) ?_) <;>
    decide +kernel

end Course

end Transaction

end StubManager
