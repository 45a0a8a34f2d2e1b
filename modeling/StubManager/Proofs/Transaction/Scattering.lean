import StubManager.Proofs.FileTree.Sparing
import StubManager.Proofs.Transaction.Targets

/-!
# Paths that lie apart

What happens to one of some scattered paths (`Scattered`), or to the sibling that it is moved aside
to, leaves the others alone. So a rollback brings each of them back on its own: first files are
written, then directories that were made are removed, then those that were moved aside come back
(`find?_rollback`).
-/

namespace StubManager

open Node World Running Files Registry

/-- A path that ends with a name lies in the directory that holds it. -/
theorem Path.under_holder {p : Path} {name : String} (hname : IsName name)
    (hends : p.EndsWith name) : (holder p).Under [] name p where
  isName := by simpa using hname
  names := (names_holder hname hends).1
  isAbsolute := (names_holder hname hends).2
  endsWith := hends

namespace Transaction

/-! ## Places -/

/-- Whether paths lie apart: each ends with a name, and turns back neither in another nor in the
sibling that another is moved aside to; and none of them lies in another or in such a sibling, nor
is one. -/
structure Scattered (paths : Path → Prop) (cwd : List String) : Prop where
  named : ∀ p, paths p → ∃ name, IsName name ∧ p.EndsWith name
  turns : ∀ p q turn, paths p → paths q → p.TurnsAt cwd turn →
    ¬ q.place cwd <+: turn ∧ ¬ (preservedPath q).place cwd <+: turn
  apart : ∀ p q, paths p → paths q → p ≠ q → ¬ p.place cwd <+: q.place cwd
  beside : ∀ p q, paths p → paths q → p ≠ q →
    ¬ (preservedPath p).place cwd <+: q.place cwd ∧ ¬ q.place cwd <+: (preservedPath p).place cwd

/-- The directories that some paths go over: where they turn back, and where they end in. -/
def Ways (paths : Path → Prop) (cwd place : List String) : Prop :=
  ∃ p, paths p ∧ (p.TurnsAt cwd place ∨ place = (holder p).place cwd)

/-- The places that belong to a path: its own, and that of the sibling. -/
def Owned (p : Path) (cwd place : List String) : Prop :=
  place = p.place cwd ∨ place = (preservedPath p).place cwd

variable {paths : Path → Prop} {cwd : List String} {p q : Path} {w w' : World}
variable {t : Transaction}

namespace Scattered

theorem exists_under (h : Scattered paths cwd) (hp : paths p) : ∃ name,
    (holder p).Under [] name p ∧ (holder p).Under [] (previousName name) (preservedPath p) := by
  obtain ⟨name, hname, hends⟩ := h.named p hp
  have hunder := Path.under_holder hname hends
  have hpreserved := hunder.withFileName (isName_previousName hname)
  rw [preservedPath, hunder.fileName?]
  exact ⟨name, hunder, hpreserved⟩

theorem exists_place (h : Scattered paths cwd) (hp : paths p) : ∃ name,
    p.place cwd = (holder p).place cwd ++ [name] ∧
      (preservedPath p).place cwd = (holder p).place cwd ++ [previousName name] := by
  obtain ⟨name, hunder, hpreserved⟩ := h.exists_under hp
  exact ⟨name, hunder.place cwd, hpreserved.place cwd⟩

theorem eq_of_place (h : Scattered paths cwd) (hp : paths p) (hq : paths q)
    (hplace : p.place cwd = q.place cwd) : p = q := by
  by_contra hne
  have hapart := h.apart p q hp hq hne
  rw [hplace] at hapart
  exact hapart (List.prefix_refl _)

/-- Paths are remembered as the same only if they are. -/
theorem same_iff (h : Scattered paths cwd) (hp : paths p) (hq : paths q) :
    p.same q = true ↔ p = q := by
  constructor
  · exact fun hsame => h.eq_of_place hp hq (Path.place_of_same hsame cwd)
  · rintro rfl
    exact beq_self_eq_true _

/-- Whether one of some things has a path. -/
theorem any_same_iff {α : Type} {xs : List α} {f : α → Path} (h : Scattered paths cwd)
    (hxs : ∀ x ∈ xs, paths (f x)) (hp : paths p) :
    xs.any (fun x => (f x).same p) = true ↔ p ∈ xs.map f := by
  rw [List.any_eq_true, List.mem_map]
  exact exists_congr fun x => and_congr_right fun hx => h.same_iff (hxs x hx) hp

/-- A path and its sibling are apart. -/
theorem self_apart (h : Scattered paths cwd) (hp : paths p) :
    ¬ p.place cwd <+: (preservedPath p).place cwd ∧
      ¬ (preservedPath p).place cwd <+: p.place cwd := by
  obtain ⟨name, hplace, hpreserved⟩ := h.exists_place hp
  rw [hplace, hpreserved, List.prefix_append_right_inj, List.prefix_append_right_inj]
  simp [previousName_ne, Ne.symm (previousName_ne name)]

/-- So are the siblings of two paths. -/
theorem preserved_apart (h : Scattered paths cwd) (hp : paths p) (hq : paths q) (hne : p ≠ q) :
    ¬ (preservedPath p).place cwd <+: (preservedPath q).place cwd := by
  obtain ⟨name, hplace, hpreserved⟩ := h.exists_place hp
  obtain ⟨name', hplace', hpreserved'⟩ := h.exists_place hq
  have hbeside := (h.beside p q hp hq hne).1
  rw [hplace', hpreserved] at hbeside
  rw [hpreserved, hpreserved', List.prefix_concat_iff]
  rintro (heq | hle)
  · obtain ⟨hholder, hlast⟩ := List.append_inj' heq rfl
    have hname : name = name' := by simpa [previousName] using hlast
    exact hne (h.eq_of_place hp hq (by rw [hplace, hplace', hholder, hname]))
  · exact hbeside (hle.trans (List.prefix_append _ _))

theorem not_le_way (h : Scattered paths cwd) (hp : paths p) {place way : List String}
    (hplace : Owned p cwd place) (hway : Ways paths cwd way) : ¬ place <+: way := by
  obtain ⟨q, hq, hturn | hholder⟩ := hway
  · obtain ⟨hnot, hnot'⟩ := h.turns q p way hq hp hturn
    obtain heq | heq := hplace
    · rw [heq]
      exact hnot
    · rw [heq]
      exact hnot'
  · rw [hholder]
    obtain ⟨name, hname, -⟩ := h.exists_place hq
    have habove : (holder q).place cwd <+: q.place cwd := by
      rw [hname]
      exact List.prefix_append _ _
    intro hle
    by_cases heq : q = p
    · obtain ⟨name, hown, hpreserved⟩ := h.exists_place hp
      have hlength := hle.length_le
      rw [heq] at hlength
      obtain hplace | hplace := hplace
      · rw [hplace, hown, List.length_append, List.length_singleton] at hlength
        omega
      · rw [hplace, hpreserved, List.length_append, List.length_singleton] at hlength
        omega
    · obtain hplace | hplace := hplace
      · rw [hplace] at hle
        exact h.apart p q hp hq (Ne.symm heq) (hle.trans habove)
      · rw [hplace] at hle
        exact (h.beside p q hp hq (Ne.symm heq)).1 (hle.trans habove)

/-- What belongs to a path is apart from what belongs to another. -/
theorem owned_apart (h : Scattered paths cwd) (hp : paths p) (hq : paths q) (hne : p ≠ q)
    (place : List String) (hplace : Owned p cwd place) (other : List String)
    (hother : Owned q cwd other) : ¬ other <+: place ∧ ¬ place <+: other := by
  obtain ⟨hbeside, hbeside'⟩ := h.beside p q hp hq hne
  obtain hother | hother := hother <;> rw [hother] <;> obtain hplace | hplace := hplace <;>
    rw [hplace]
  · exact ⟨h.apart q p hq hp hne.symm, h.apart p q hp hq hne⟩
  · exact ⟨hbeside', hbeside⟩
  · exact h.beside q p hq hp hne.symm
  · exact ⟨h.preserved_apart hq hp hne.symm, h.preserved_apart hp hq hne⟩

/-- Paths that never turn back. -/
theorem of_straight {list : List Path} (hnamed : ∀ p ∈ list, IsName (p.fileName?.getD "") ∧
      p.parts.getLast? = some (p.fileName?.getD "").toList)
    (hstraight : ∀ p ∈ list, ".." ∉ p.names)
    (hapart : ∀ p ∈ list, ∀ q ∈ list, p ≠ q → ¬ p.place cwd <+: q.place cwd ∧
      ¬ (preservedPath p).place cwd <+: q.place cwd ∧
      ¬ q.place cwd <+: (preservedPath p).place cwd) : Scattered (· ∈ list) cwd where
  named p hp := ⟨_, hnamed p hp⟩
  turns p _ turn hp _ hturn :=
    absurd hturn (Path.not_turnsAt_of_not_mem (hstraight p hp) cwd turn)
  apart p q hp hq hne := (hapart p hp q hq hne).1
  beside p q hp hq hne := (hapart p hp q hq hne).2

end Scattered

/-! ## Worlds -/

/-- Whether some paths turn back at directories only. -/
structure Grounded (paths : Path → Prop) (cwd : List String) (w : World) : Prop where
  plain : w.root.Plain
  start : w.cwd = cwd
  turns : ∀ p turn, paths p → p.TurnsAt cwd turn → w.root.DirAt turn

/-- The directories on the ways of some paths that are there. -/
def Standing (paths : Path → Prop) (w : World) (place : List String) : Prop :=
  Ways paths w.cwd place ∧ w.root.DirAt place

namespace Grounded

variable {kept : List String → Prop} {entry : String}

theorem of_straight {list : List Path} (hplain : w.root.Plain)
    (hstraight : ∀ p ∈ list, ".." ∉ p.names) : Grounded (· ∈ list) w.cwd w where
  plain := hplain
  start := rfl
  turns p turn hp hturn :=
    absurd hturn (Path.not_turnsAt_of_not_mem (hstraight p hp) w.cwd turn)

theorem step (h : Grounded paths cwd w) (hplain : w'.root.Plain) (hcwd : w'.cwd = w.cwd)
    (hdirs : ∀ place, Standing paths w place → w'.root.DirAt place) : Grounded paths cwd w' where
  plain := hplain
  start := hcwd.trans h.start
  turns p turn hp hturn := by
    refine hdirs turn ⟨⟨p, hp, .inl ?_⟩, h.turns p turn hp hturn⟩
    rw [h.start]
    exact hturn

theorem spared (h : Grounded paths cwd w) (hspared : Spared kept (Standing paths w) w w') :
    Grounded paths cwd w' := h.step hspared.plain hspared.cwd hspared.dir

theorem turns_holder (h : Grounded paths cwd w) (hp : paths p) {name : String}
    (hunder : (holder p).Under [] name p) {turn : List String}
    (hturn : (holder p).TurnsAt w.cwd turn) : w.root.DirAt turn := by
  rw [h.start] at hturn
  refine h.turns p turn hp (hturn.extend ?_ hunder.isAbsolute.symm)
  rw [hunder.names]
  exact List.prefix_append _ _

/-- What belongs to a path does not lie above a place where the path turns back. -/
theorem turns_apart (h : Grounded paths cwd w) (hs : Scattered paths cwd) (hp : paths p)
    {name : String} (hunder : (holder p).Under [] name p) {place : List String}
    (hplace : Owned p w.cwd place) (turn : List String) (hturn : (holder p).TurnsAt w.cwd turn) :
    w.root.DirAt turn ∧ ¬ place <+: turn := by
  refine ⟨h.turns_holder hp hunder hturn, ?_⟩
  rw [h.start] at hplace hturn
  refine hs.not_le_way hp hplace ⟨p, hp, .inl (hturn.extend ?_ hunder.isAbsolute.symm)⟩
  rw [hunder.names]
  exact List.prefix_append _ _

/-- A path, or its sibling, leads to what is at its place. -/
theorem find?_eq (h : Grounded paths cwd w) (hp : paths p) {name : String}
    (hunder : (holder p).Under [] name p) (hq : (holder p).Under [] entry q) (hvalid : Valid q) :
    w.find? q = w.root.get? (q.place cwd) := by
  rw [find?_of_under h.plain hq (fun turn hturn => h.turns_holder hp hunder hturn) hvalid, h.start]

/-- What a path leads to has a directory that holds it. -/
theorem opened (h : Grounded paths cwd w) (hs : Scattered paths cwd) (hp : paths p) {node : Node}
    (hfind : w.find? p = some node) : Valid p ∧ w.root.DirAt ((holder p).place cwd) := by
  obtain ⟨name, hplace, -⟩ := hs.exists_place hp
  have hthere := (locate_of_find? h.plain hfind true).2
  rw [h.start, hplace] at hthere
  exact ⟨((find?_eq_some_iff h.plain).1 hfind).1, dirAt_of_get? hthere⟩

theorem find?_congr (h : Grounded paths cwd w) (h' : Grounded paths cwd w') (hp : paths p)
    {name : String} (hunder : (holder p).Under [] name p) (hq : (holder p).Under [] entry q)
    (hsame : w'.root.get? (q.place cwd) = w.root.get? (q.place cwd)) :
    w'.find? q = w.find? q := by
  by_cases hvalid : Valid q
  · rw [h.find?_eq hp hunder hq hvalid, h'.find?_eq hp hunder hq hvalid, hsame]
  · rw [find?_of_not_valid h.plain hvalid, find?_of_not_valid h'.plain hvalid]

/-- What spares what belongs to a path leaves the path and its sibling. -/
theorem find?_of_spared (h : Grounded paths cwd w) (hs : Scattered paths cwd) (hp : paths p)
    (hspared : Spared (Owned p cwd) (Standing paths w) w w') :
    w'.find? p = w.find? p ∧ w'.find? (preservedPath p) = w.find? (preservedPath p) := by
  obtain ⟨name, hunder, hpreserved⟩ := hs.exists_under hp
  have h' := h.spared hspared
  exact ⟨h.find?_congr h' hp hunder hunder (hspared.same _ (.inl rfl)),
    h.find?_congr h' hp hunder hpreserved (hspared.same _ (.inr rfl))⟩

/-- What spares the sibling of a path leaves that. -/
theorem sibling_of_spared (h : Grounded paths cwd w) (hs : Scattered paths cwd) (hp : paths p)
    (hspared : Spared (· = (preservedPath p).place cwd) (Standing paths w) w w') :
    w'.find? (preservedPath p) = w.find? (preservedPath p) := by
  obtain ⟨name, hunder, hpreserved⟩ := hs.exists_under hp
  exact h.find?_congr (h.spared hspared) hp hunder hpreserved (hspared.same _ rfl)

theorem refl_spared (h : Grounded paths cwd w) (kept : List String → Prop) :
    Spared kept (Standing paths w) w w := .refl kept h.plain fun _ hplace => hplace.2

end Grounded

/-! ## Files that come back -/

/-- Whether contents are those of a file, or nothing is there and there are none. -/
def Holds : Option ByteArray → Option Node → Prop
  | none, here => here = none
  | some data, here => ∃ mode, here = some (.file data mode)

theorem noted_iff {contents : Option ByteArray} :
    Noted w p contents ↔ Holds contents (w.find? p) := by
  cases contents <;> rfl

/-- A file is brought back where no directory is, and one that was there where its directory is. -/
theorem holds_restoreFile (h : Grounded paths cwd w) (hs : Scattered paths cwd) (hp : paths p)
    {contents : Option ByteArray} (hnot : w.isDirectory p = false)
    (hopen : contents ≠ none → Valid p ∧ w.root.DirAt ((holder p).place cwd)) :
    Holds contents ((restoreFile w { path := p, contents }).find? p) := by
  obtain ⟨name, hunder, -⟩ := hs.exists_under hp
  have hrestored : Spared (fun _ => False) (Standing paths w) w
      (restoreFile w { path := p, contents }) :=
    restoreFile_lasting (enduring_spared _ _ w).toLasting (fun _ hfalse => hfalse.elim)
      (h.refl_spared _)
  have h' := h.spared hrestored
  have hplace : p.place cwd = (holder p).place cwd ++ [name] := hunder.place cwd
  -- A file that is written or removed is seen at its place.
  have hseen : ∀ f : Option Node → Option Node, Valid p →
      w.root.DirAt ((holder p).place cwd) →
      restoreFile w { path := p, contents } = w.alter f (p.place cwd) →
      (restoreFile w { path := p, contents }).find? p = f (w.root.get? (p.place cwd)) := by
    intro f hvalid hparent hrun
    rw [h'.find?_eq hp hunder hunder hvalid, hrun, hplace, get?_alter_self h.plain hparent]
  cases hfind : w.find? p with
  | none =>
    cases contents with
    | none =>
      have hmissing : w.exists? p = false := by rw [World.exists?, hfind]; rfl
      rw [restoreFile, hmissing]
      exact hfind
    | some data =>
      obtain ⟨hvalid, hparent⟩ := hopen (Option.some_ne_none data)
      have hvacant := h.find?_eq hp hunder hunder hvalid
      rw [hfind, hplace] at hvacant
      have hrun := write_of_vacant h.plain hunder.isName_entry hunder.endsWith
        (fun turn hturn => h.turns_holder hp hunder (hunder.turnsAt hturn)) hvalid
        (h.start.symm ▸ hplace) hparent hvacant.symm data
      refine ⟨false, hseen (fun _ => some (.file data false)) hvalid hparent ?_⟩
      rw [restoreFile]
      dsimp only
      rw [quietly_apply, hrun, hplace, ← h.start]
      rfl
  | some node =>
    obtain ⟨hvalid, hparent⟩ := h.opened hs hp hfind
    cases node with
    | link target =>
      exact absurd (locate_of_find? h.plain hfind true).2 (h.plain.linkless _ _)
    | directory entries =>
      rw [World.isDirectory, hfind] at hnot
      cases hnot
    | file old mode =>
      cases contents with
      | none =>
        refine hseen (fun _ => none) hvalid hparent ?_
        rw [restoreFile_none h.plain hfind, h.start]
        rfl
      | some data =>
        refine ⟨mode, hseen (fun _ => some (.file data mode)) hvalid hparent ?_⟩
        rw [restoreFile_some h.plain hfind, h.start]
        rfl

/-! ## Rollbacks -/

/-- What happens to a path and its sibling leaves places that are apart from both. -/
theorem spared_of_apart (h : Grounded paths cwd w) (hs : Scattered paths cwd) (hq : paths q)
    {kept : List String → Prop} (hkept : ∀ place, Owned q cwd place → ∀ other, kept other →
      ¬ other <+: place ∧ ¬ place <+: other) {f : World → World}
    (hf : ∀ {I : World → Prop} {idle free loose : List String → Prop},
      Enduring I w.cwd idle free loose → free (q.place w.cwd) → loose (q.place w.cwd) →
      loose ((preservedPath q).place w.cwd) → I w → I (f w)) :
    Spared kept (Standing paths w) w (f w) := by
  obtain rfl := h.start
  have haloof : ∀ place, Owned q w.cwd place → Aloof kept (Standing paths w) place :=
    fun place hplace => ⟨hkept place hplace, fun way hway => hs.not_le_way hq hplace hway.1⟩
  exact hf (enduring_spared kept (Standing paths w) w) (haloof _ (.inl rfl)).outside
    (haloof _ (.inl rfl)) (haloof _ (.inr rfl)) (h.refl_spared _)

/-- What happens to a path and its sibling leaves another path. -/
theorem spared_of_ne (h : Grounded paths cwd w) (hs : Scattered paths cwd) (hp : paths p)
    (hq : paths q) (hne : q ≠ p) {f : World → World}
    (hf : ∀ {I : World → Prop} {idle free loose : List String → Prop},
      Enduring I w.cwd idle free loose → free (q.place w.cwd) → loose (q.place w.cwd) →
      loose ((preservedPath q).place w.cwd) → I w → I (f w)) :
    Spared (Owned p cwd) (Standing paths w) w (f w) :=
  spared_of_apart h hs hq (hs.owned_apart hq hp hne) hf

/-- What happens to a path alone leaves all siblings. -/
theorem spared_sibling (h : Grounded paths cwd w) (hs : Scattered paths cwd) (hp : paths p)
    (hq : paths q) {f : World → World}
    (hf : ∀ {I : World → Prop} {idle free loose : List String → Prop},
      Enduring I w.cwd idle free loose → free (q.place w.cwd) → loose (q.place w.cwd) →
      I w → I (f w)) :
    Spared (· = (preservedPath p).place cwd) (Standing paths w) w (f w) := by
  obtain rfl := h.start
  have haloof : Aloof (· = (preservedPath p).place w.cwd) (Standing paths w) (q.place w.cwd) := by
    refine ⟨?_, fun way hway => hs.not_le_way hq (.inl rfl) hway.1⟩
    intro place hplace
    rw [hplace]
    by_cases heq : q = p
    · rw [heq]
      exact (hs.self_apart hp).symm
    · exact (hs.beside p q hp hq (Ne.symm heq))
  exact hf (enduring_spared _ (Standing paths w) w) haloof.outside haloof (h.refl_spared _)

/-! ### Files -/

section

variable {backup : FileBackup} {backups : List FileBackup}

theorem spared_restoreFile (h : Grounded paths cwd w) (hs : Scattered paths cwd) (hp : paths p)
    (hpath : paths backup.path) (hne : backup.path ≠ p) :
    Spared (Owned p cwd) (Standing paths w) w (restoreFile w backup) :=
  spared_of_ne h hs hp hpath hne (f := (restoreFile · backup)) fun hI hfree _ _ =>
    restoreFile_lasting hI.toLasting hfree

/-- Files that come back leave the siblings of all paths. -/
theorem sibling_foldl_restoreFile (h : Grounded paths cwd w) (hs : Scattered paths cwd)
    (hp : paths p) (hpaths : ∀ backup ∈ backups, paths backup.path) :
    Grounded paths cwd (backups.foldl restoreFile w) ∧
      (backups.foldl restoreFile w).find? (preservedPath p) = w.find? (preservedPath p) := by
  refine foldl_keeps (I := fun w' => Grounded paths cwd w' ∧
    w'.find? (preservedPath p) = w.find? (preservedPath p)) ?_ ⟨h, rfl⟩
  rintro backup hbackup w' ⟨h', hsame⟩
  have hspared := spared_sibling h' hs hp (hpaths backup hbackup) (f := (restoreFile · backup))
    fun hI hfree _ => restoreFile_lasting hI.toLasting hfree
  exact ⟨h'.spared hspared, (h'.sibling_of_spared hs hp hspared).trans hsame⟩

theorem find?_foldl_restoreFile (h : Grounded paths cwd w) (hs : Scattered paths cwd)
    (hp : paths p) (hpaths : ∀ backup ∈ backups, paths backup.path)
    (hnot : p ∉ backups.map (·.path)) : (backups.foldl restoreFile w).find? p = w.find? p := by
  refine (foldl_keeps (I := fun w' => Grounded paths cwd w' ∧ w'.find? p = w.find? p) ?_
    ⟨h, rfl⟩).2
  rintro backup hbackup w' ⟨h', hsame⟩
  have hne : backup.path ≠ p := fun heq => hnot (heq ▸ List.mem_map_of_mem hbackup)
  have hspared := spared_restoreFile h' hs hp (hpaths backup hbackup) hne
  exact ⟨h'.spared hspared, (h'.find?_of_spared hs hp hspared).1.trans hsame⟩

/-- Among other files a file is brought back as it was. -/
theorem holds_foldl_restoreFile (h : Grounded paths cwd w) (hs : Scattered paths cwd)
    (hp : paths p) (hpaths : ∀ backup ∈ backups, paths backup.path)
    (hnodup : (backups.map (·.path)).Nodup) {contents : Option ByteArray}
    (hmem : { path := p, contents } ∈ backups) (hnot : w.isDirectory p = false)
    (hopen : contents ≠ none → Valid p ∧ w.root.DirAt ((holder p).place cwd)) :
    Holds contents ((backups.foldl restoreFile w).find? p) := by
  induction backups generalizing w with
  | nil => cases hmem
  | cons backup backups ih =>
    rw [List.forall_mem_cons] at hpaths
    rw [List.map_cons, List.nodup_cons] at hnodup
    rw [List.foldl_cons]
    obtain rfl | hmem := List.mem_cons.1 hmem
    · -- The others leave what this one brings back.
      have hrestored := h.spared (spared_sibling h hs hp hp
        (f := (restoreFile · { path := p, contents }))
        fun hI hfree _ => restoreFile_lasting hI.toLasting hfree)
      rw [find?_foldl_restoreFile hrestored hs hp hpaths.2 hnodup.1]
      exact holds_restoreFile h hs hp hnot hopen
    · have hne : backup.path ≠ p := fun heq => hnodup.1 (heq ▸ List.mem_map_of_mem hmem)
      have hspared := spared_restoreFile h hs hp hpaths.1 hne
      have hsame := (h.find?_of_spared hs hp hspared).1
      refine ih (h.spared hspared) hpaths.2 hnodup.2 hmem ?_ fun hsome => ?_
      · rw [World.isDirectory, hsame]
        exact hnot
      · obtain ⟨hvalid, hparent⟩ := hopen hsome
        rw [← h.start] at hparent ⊢
        exact ⟨hvalid, hspared.dir _ ⟨⟨p, hp, .inr rfl⟩, hparent⟩⟩

end

/-! ### Directories that were made -/

theorem find?_removeCreated (h : Grounded paths cwd w) (hs : Scattered paths cwd) (hp : paths p)
    (hq : paths q) : Grounded paths cwd (removeCreated w q) ∧
      (removeCreated w q).find? (preservedPath p) = w.find? (preservedPath p) ∧
      (removeCreated w q).find? p = if q = p ∧ w.isDirectory p then none else w.find? p := by
  have hsibling := spared_sibling h hs hp hq (f := (removeCreated · q)) fun hI _ hloose =>
    removeCreated_enduring hI hloose
  refine ⟨h.spared hsibling, h.sibling_of_spared hs hp hsibling, ?_⟩
  by_cases hne : q = p
  · subst hne
    simp only [true_and]
    split
    · next hdirectory =>
      obtain ⟨entries, hfind⟩ := isDirectory_iff.1 hdirectory
      obtain ⟨name, hunder, -⟩ := hs.exists_under hp
      have hvalid := ((find?_eq_some_iff h.plain).1 hfind).1
      have hthere := (locate_of_find? h.plain hfind true).2
      have hplace : q.place w.cwd = (holder q).place w.cwd ++ [name] := hunder.place w.cwd
      have hrun := removeTree_of_isDirectory h.plain hfind
      rw [hplace] at hthere hrun
      have hseen := (h.spared hsibling).find?_eq hp hunder hunder hvalid
      rw [← h.start, hplace] at hseen
      rw [hseen, removeCreated, if_pos hdirectory, quietly_apply, hrun]
      exact get?_alter_self h.plain (dirAt_of_get? hthere) fun _ => none
    · next hnot => rw [removeCreated, if_neg hnot]
  · rw [if_neg fun hboth => hne hboth.1]
    exact (h.find?_of_spared hs hp (spared_of_ne h hs hp hq hne (f := (removeCreated · q))
      fun hI _ hloose _ => removeCreated_enduring hI hloose)).1

/-- A directory that was made is removed, and nothing else. -/
theorem find?_foldl_removeCreated (h : Grounded paths cwd w) (hs : Scattered paths cwd)
    (hp : paths p) {made : List Path} (hpaths : ∀ q ∈ made, paths q) :
    Grounded paths cwd (made.foldl removeCreated w) ∧
      (made.foldl removeCreated w).find? (preservedPath p) = w.find? (preservedPath p) ∧
      (made.foldl removeCreated w).find? p
        = if p ∈ made ∧ w.isDirectory p then none else w.find? p := by
  induction made generalizing w with
  | nil => exact ⟨h, rfl, by simp⟩
  | cons q made ih =>
    rw [List.forall_mem_cons] at hpaths
    obtain ⟨h', hsibling, hstep⟩ := find?_removeCreated h hs hp hpaths.1
    obtain ⟨h'', hsibling', hrest⟩ := ih h' hpaths.2
    refine ⟨h'', hsibling'.trans hsibling, ?_⟩
    rw [List.foldl_cons, hrest, World.isDirectory, World.isDirectory, hstep, World.isDirectory]
    by_cases hq : q = p
    · by_cases hdirectory : (w.find? p).any Node.isDirectory
      · simp [hq, hdirectory]
      · simp [hq, hdirectory]
    · simp [hq, Ne.symm hq]

/-! ### Directories that were moved aside -/

/-- Whether a directory was moved aside to the sibling of its path. -/
structure Moved (paths : Path → Prop) (backup : DirectoryBackup) : Prop where
  path : paths backup.path
  valid : Valid backup.path
  preserved : backup.preserved = preservedPath backup.path

section

variable {backup : DirectoryBackup} {backups : List DirectoryBackup}

/-- A directory that comes back takes its own place only. -/
theorem Moved.spared (hmoved : Moved paths backup) (h : Grounded paths cwd w)
    (hs : Scattered paths cwd) {kept : List String → Prop}
    (hkept : ∀ place, Owned backup.path cwd place → ∀ other, kept other →
      ¬ other <+: place ∧ ¬ place <+: other) :
    Spared kept (Standing paths w) w (restoreDirectory w backup) :=
  spared_of_apart h hs hmoved.path hkept (f := (restoreDirectory · backup))
    fun hI _ hloose hloose' hw =>
      hI.keeps_moveOver (by rw [hmoved.preserved]; exact hloose') hloose w hw

theorem Moved.spared_of_ne (hmoved : Moved paths backup) (h : Grounded paths cwd w)
    (hs : Scattered paths cwd) (hp : paths p) (hne : backup.path ≠ p) :
    Spared (Owned p cwd) (Standing paths w) w (restoreDirectory w backup) :=
  hmoved.spared h hs (hs.owned_apart hmoved.path hp hne)

theorem Moved.grounded (hmoved : Moved paths backup) (h : Grounded paths cwd w)
    (hs : Scattered paths cwd) : Grounded paths cwd (restoreDirectory w backup) := by
  have hspared : Spared (fun _ => False) (Standing paths w) w (restoreDirectory w backup) :=
    hmoved.spared h hs fun _ _ _ => False.elim
  exact h.spared hspared

/-- A directory comes back in the place of its path, unless there is a file. -/
theorem Moved.find?_restoreDirectory (hmoved : Moved paths backup) (h : Grounded paths cwd w)
    (hs : Scattered paths cwd) {entries : List (String × Node)}
    (hkept : w.find? (preservedPath backup.path) = some (.directory entries)) :
    (restoreDirectory w backup).find? backup.path
      = if w.isFile backup.path then w.find? backup.path
        else w.find? (preservedPath backup.path) := by
  have h' := hmoved.grounded h hs
  obtain ⟨name, hunder, hpreserved⟩ := hs.exists_under hmoved.path
  have hvalid' := ((find?_eq_some_iff h.plain).1 hkept).1
  have hseen := h.find?_eq hmoved.path hunder hunder hmoved.valid
  have hseen' := h.find?_eq hmoved.path hunder hpreserved hvalid'
  have hafter := h'.find?_eq hmoved.path hunder hunder hmoved.valid
  have hturns := h.turns_apart hs hmoved.path hunder (.inl rfl)
  rw [← h.start] at hafter hseen hseen'
  rw [hseen'] at hkept
  rw [hafter]
  split
  · next hfile =>
    -- A file is in the way of the move.
    obtain ⟨data, mode, hthere⟩ := isFile_iff.1 hfile
    obtain ⟨w₁, -, hiff, hrun⟩ := Files.moveOver_steps h.plain (preservedPath backup.path)
      (fun turn hturn => (hturns turn hturn).1) hunder
    rw [hseen] at hthere
    have hstays := (hiff data mode).2 hthere
    obtain ⟨⟨fault, hrun⟩, -⟩ | ⟨-, hnone⟩ := hrun
    · rw [restoreDirectory, hmoved.preserved, quietly_apply, hrun, hstays, hseen, hthere]
    · rw [hnone hmoved.valid] at hstays
      cases hstays
  · next hfile =>
    obtain ⟨result, w₁, hrun, -, hcases, hok⟩ := Files.moveOver_cases h.plain hturns hpreserved
      hunder (previousName_ne name).symm
    have hnot : ¬ w.root.FileAt (backup.path.place w.cwd) := by
      rintro ⟨data, mode, hthere⟩
      exact hfile (isFile_iff.2 ⟨data, mode, hseen.trans hthere⟩)
    obtain rfl := hok hvalid' hmoved.valid hnot ⟨_, hkept⟩
    obtain ⟨-, -, node, hnode, hthere, -⟩ := hcases
    rw [restoreDirectory, hmoved.preserved, quietly_apply, hrun, hthere, hseen', hnode]

theorem find?_foldl_restoreDirectory_of_not_mem (h : Grounded paths cwd w)
    (hs : Scattered paths cwd) (hp : paths p) (hmoved : ∀ backup ∈ backups, Moved paths backup)
    (hnot : p ∉ backups.map (·.path)) :
    (backups.foldl restoreDirectory w).find? p = w.find? p := by
  refine (foldl_keeps (I := fun w' => Grounded paths cwd w' ∧ w'.find? p = w.find? p) ?_
    ⟨h, rfl⟩).2
  rintro backup hbackup w' ⟨h', hsame⟩
  have hne : backup.path ≠ p := fun heq => hnot (heq ▸ List.mem_map_of_mem hbackup)
  have hspared := (hmoved backup hbackup).spared_of_ne h' hs hp hne
  exact ⟨h'.spared hspared, (h'.find?_of_spared hs hp hspared).1.trans hsame⟩

/-- Among other directories a directory comes back, unless there is a file. -/
theorem find?_foldl_restoreDirectory (h : Grounded paths cwd w) (hs : Scattered paths cwd)
    (hp : paths p) (hmoved : ∀ backup ∈ backups, Moved paths backup)
    (hnodup : (backups.map (·.path)).Nodup)
    (hkept : p ∈ backups.map (·.path) →
      ∃ entries, w.find? (preservedPath p) = some (.directory entries)) :
    (backups.foldl restoreDirectory w).find? p
      = if p ∈ backups.map (·.path) ∧ ¬ w.isFile p then w.find? (preservedPath p)
        else w.find? p := by
  induction backups generalizing w with
  | nil => simp
  | cons backup backups ih =>
    rw [List.forall_mem_cons] at hmoved
    rw [List.map_cons, List.nodup_cons] at hnodup
    rw [List.foldl_cons]
    by_cases heq : backup.path = p
    · subst heq
      obtain ⟨entries, hentries⟩ := hkept List.mem_cons_self
      rw [find?_foldl_restoreDirectory_of_not_mem (hmoved.1.grounded h hs) hs hp hmoved.2 hnodup.1,
        hmoved.1.find?_restoreDirectory h hs hentries]
      by_cases hfile : w.isFile backup.path <;> simp [hfile]
    · have hspared := hmoved.1.spared_of_ne h hs hp heq
      obtain ⟨hsame, hsibling⟩ := h.find?_of_spared hs hp hspared
      have hmem : p ∈ (backup :: backups).map (·.path) ↔ p ∈ backups.map (·.path) := by
        rw [List.map_cons, List.mem_cons, or_iff_right (Ne.symm heq)]
      have hrest := ih (h.spared hspared) hmoved.2 hnodup.2
        fun hin => hsibling ▸ hkept (hmem.2 hin)
      rw [World.isFile, hsame, hsibling, ← World.isFile] at hrest
      simpa only [hmem] using hrest

end

/-! ### Everything -/

/-- Whether a transaction remembers each of some paths once in each way, and a directory only with
the sibling that it was moved aside to. -/
structure Coherent (paths : Path → Prop) (t : Transaction) : Prop where
  files : ∀ backup ∈ t.files, paths backup.path
  files_once : (t.files.map (·.path)).Nodup
  created : ∀ p ∈ t.created, paths p
  directories : ∀ backup ∈ t.directories, Moved paths backup
  directories_once : (t.directories.map (·.path)).Nodup

/-- The world in which the files of a transaction are brought back. -/
def refiled (t : Transaction) (w : World) : World := t.files.foldl restoreFile w

/-- After a rollback a path leads to the file there, or to the directory that was moved aside, or to
nothing if a directory was made there. -/
theorem Coherent.find?_rollback (ht : Coherent paths t) (h : Grounded paths cwd w)
    (hs : Scattered paths cwd) (hp : paths p)
    (hkept : p ∈ t.directories.map (·.path) →
      ∃ entries, w.find? (preservedPath p) = some (.directory entries)) :
    (t.rollback w).find? p
      = if (t.refiled w).isFile p then (t.refiled w).find? p
        else if p ∈ t.directories.map (·.path) then w.find? (preservedPath p)
        else if p ∈ t.created then none
        else (t.refiled w).find? p := by
  obtain ⟨h₁, hsibling₁⟩ := sibling_foldl_restoreFile h hs hp ht.files
  have hmade : ∀ q, q ∈ t.createdInOrder ↔ q ∈ t.created := fun _ => List.mem_mergeSort
  obtain ⟨h₂, hsibling₂, hsame₂⟩ := find?_foldl_removeCreated h₁ hs hp
    fun q hq => ht.created q ((hmade q).1 hq)
  simp only [hmade] at hsame₂
  rw [rollback, find?_foldl_restoreDirectory h₂ hs hp ht.directories ht.directories_once, hsibling₂,
    hsibling₁, World.isFile, hsame₂, ← refiled, World.isFile, World.isDirectory]
  · cases hfind : (t.refiled w).find? p with
    | none => simp
    | some node =>
      cases node with
      | link target => exact absurd (locate_of_find? h₁.plain hfind true).2 (h₁.plain.linkless _ _)
      | file data mode => simp [Node.isDirectory, Node.isFile]
      | directory entries =>
        by_cases hmade : p ∈ t.created <;> simp [Node.isDirectory, Node.isFile, hmade]
  · rw [hsibling₂, hsibling₁]
    exact hkept

end Transaction

end StubManager
