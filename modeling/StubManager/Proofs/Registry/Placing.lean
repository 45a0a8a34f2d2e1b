import StubManager.Proofs.FileTree.Copying
import StubManager.Proofs.FileTree.Lodging
import StubManager.Proofs.Registry.Saving
import StubManager.Proofs.Registry.Sparing
import StubManager.Proofs.Registry.Staging

/-!
# What is put in place

A stub that is staged is its source without caches (`Bundle.staged_of_stage`), and what is installed
is what was staged (`Registry.get?_of_install`), whatever was there before.
-/

namespace StubManager

open Node Running World

variable {w w' : World}

/-! ## Staging -/

namespace Files

/-- A temporary directory is made where nothing was, and its path leads there. -/
theorem of_makeTemporary_eq_ok (hplain : w.root.Plain) {stem : String}
    (hstem : '/' ∉ stem.toList ∧ 2 < stem.length) {p : Path}
    (hrun : makeTemporary stem w = (.ok p, w')) :
    ∃ name ∈ temporaryNames stem, p = w.tempDir.join name ∧
      p.place w.cwd = w.tempDir.place w.cwd ++ [name] ∧ w.root.get? (p.place w.cwd) = none ∧
      w.root.DirAt (w.tempDir.place w.cwd) ∧ w' = w.put (p.place w.cwd) (.directory []) ∧
      ∀ turn, p.TurnsAt w.cwd turn → w'.root.DirAt turn := by
  rw [makeTemporary, bind_apply, ask_apply] at hrun
  dsimp only at hrun
  rw [bind_apply, ask_apply] at hrun
  dsimp only at hrun
  cases hfree : freeName? w.tempDir stem w with
  | none =>
    rw [hfree] at hrun
    cases hrun
  | some name =>
    rw [hfree] at hrun
    have hmem := (of_freeName? hfree).1
    have hname := isName_of_mem_temporaryNames hstem.1 hstem.2 hmem
    dsimp only at hrun
    rw [bind_apply, adapt_apply, makeDirectory, bind_apply, orFault_apply] at hrun
    cases hlocate : w.locate false (w.tempDir.join name) with
    | error fault =>
      rw [hlocate] at hrun
      cases hrun
    | ok place =>
      rw [hlocate] at hrun
      cases place with
      | node place => cases hrun
      | vacant parent last asDirectory =>
        cases hrun
        let l : Lodging w :=
          ⟨_, parent, last, asDirectory, hlocate, name, hname, Path.endsWith_join w.tempDir hname⟩
        obtain ⟨hplace, hparent, hvacant, hlast, -⟩ := of_locate_eq_vacant hplain hlocate
        have hmade := (frame_makeDirectory hplain hlast hparent hvacant (List.prefix_refl _)).plain
          hplain
        obtain ⟨entries, hentries⟩ := l.holds_put.dirAt
        have hfind : (w.put l.place (.directory [])).find? l.path = some (.directory entries) := by
          rw [find?, l.holds_put.locate_path true]
          exact hentries
        have hat := Path.place_join w.tempDir hname w.cwd
        rw [hplace] at hat
        obtain ⟨rfl, -⟩ := List.append_inj' hat rfl
        rw [hplace]
        exact ⟨name, hmem, rfl, hat, hvacant, hparent, rfl, fun turn hturn =>
          dirAt_of_turnsAt hmade hfind hturn⟩

end Files

namespace Bundle

variable {source : StubSource} {bundle : Bundle}

/-- A stub that was found acceptable has been copied, and nothing else was done. -/
theorem of_fill_eq_ok {staging : Path} (hrun : fill source staging w = (.ok bundle, w')) :
    bundle.staging = staging ∧
      Files.copyTree Files.caches source.directory (staging.join "stub") w = (.ok (), w') := by
  have hsame : ∀ {α : Type} {x : Action Failure α} {w w' : World} {a : α},
      Keeps (· = w) x → x w = (.ok a, w') → w' = w := by
    intro α x w w' a hx hrun
    have hend := hx w rfl
    rwa [hrun] at hend
  refine ⟨fill_staging (by rw [hrun]), ?_⟩
  rw [fill, bind_eq_ok_iff] at hrun
  obtain ⟨⟨⟩, w₁, hcopy, hrun⟩ := hrun
  rw [bind_eq_ok_iff] at hrun
  obtain ⟨metadata, w₂, hload, hrun⟩ := hrun
  obtain rfl := hsame ((Metadata.keeps_load _).adapt _) hload
  rw [bind_eq_ok_iff] at hrun
  obtain ⟨⟨⟩, w₃, hdigest, hrun⟩ := hrun
  obtain rfl := hsame (keeps_checkDigest _ _ _) hdigest
  rw [of_adapt_eq_ok hcopy]
  cases hname : source.name <|> metadata.name <|> source.directory.fileName? with
  | none =>
    rw [hname] at hrun
    cases hrun
  | some name =>
    rw [hname, bind_eq_ok_iff] at hrun
    obtain ⟨⟨⟩, w₄, hcheck, hrun⟩ := hrun
    obtain rfl := hsame (keeps_ofExcept _) hcheck
    cases hrun
    rfl

/-- A stub that was found acceptable goes by the first name it has, and that one can be used. -/
theorem named_of_fill {staging : Path} (hrun : fill source staging w = (.ok bundle, w')) :
    (source.name <|> bundle.metadata.name <|> source.directory.fileName?) = some bundle.name ∧
      isValidName bundle.name := by
  rw [fill, bind_eq_ok_iff] at hrun
  obtain ⟨⟨⟩, w₁, -, hrun⟩ := hrun
  rw [bind_eq_ok_iff] at hrun
  obtain ⟨metadata, w₂, -, hrun⟩ := hrun
  rw [bind_eq_ok_iff] at hrun
  obtain ⟨⟨⟩, w₃, -, hrun⟩ := hrun
  cases hname : source.name <|> metadata.name <|> source.directory.fileName? with
  | none =>
    rw [hname] at hrun
    cases hrun
  | some name =>
    rw [hname, bind_eq_ok_iff] at hrun
    obtain ⟨⟨⟩, w₄, hcheck, hrun⟩ := hrun
    rw [ofExcept_apply, checkName] at hcheck
    by_cases hvalid : isValidName name
    · cases hrun
      exact ⟨hname, hvalid⟩
    · rw [if_neg hvalid] at hcheck
      cases hcheck

/-- A stub that is staged was found acceptable in a temporary directory. -/
theorem of_stage_eq_ok (hrun : stage source w = (.ok bundle, w')) : ∃ staging w₁,
    Files.makeTemporary "mpstubs-stage-" w = (.ok staging, w₁) ∧
      fill source staging w₁ = (.ok bundle, w') := by
  have hstaged : ∀ {w₀}, (do
      let staging ← Files.makeTemporary "mpstubs-stage-"
      try fill source staging
      catch failure =>
        modify (discard staging)
        throw failure : Action Failure Bundle) w₀ = (.ok bundle, w') → ∃ staging w₁,
      Files.makeTemporary "mpstubs-stage-" w₀ = (.ok staging, w₁) ∧
        fill source staging w₁ = (.ok bundle, w') := by
    intro w₀ hrun
    rw [bind_eq_ok_iff] at hrun
    obtain ⟨staging, w₁, hmake, hrun⟩ := hrun
    refine ⟨staging, w₁, hmake, ?_⟩
    rw [tryCatch_apply] at hrun
    split at hrun
    · next hfill => rw [hfill, hrun]
    · cases hrun
  rw [stage] at hrun
  cases hname : source.name with
  | none =>
    rw [hname] at hrun
    exact hstaged hrun
  | some name =>
    rw [hname] at hrun
    dsimp only at hrun
    rw [bind_apply, ofExcept_apply] at hrun
    cases hcheck : checkName ((some name).getD source.origin) name with
    | error failure =>
      rw [hcheck] at hrun
      cases hrun
    | ok _ =>
      rw [hcheck] at hrun
      exact hstaged hrun

/-- Whether a bundle is a tree without caches, in a temporary directory that was made for it. -/
structure Staged (tree : Node) (bundle : Bundle) (w w' : World) : Prop where
  temporary : ∃ name ∈ Files.temporaryNames "mpstubs-stage-",
    bundle.staging.place w.cwd = w.tempDir.place w.cwd ++ [name]
  vacant : w.root.get? (bundle.staging.place w.cwd) = none
  frame : Frame (bundle.staging.place w.cwd <+: ·) w w'
  path : bundle.path.place w.cwd = bundle.staging.place w.cwd ++ ["stub"]
  copy : w'.root.get? (bundle.path.place w.cwd) = some (tree.prune Files.caches)

/-- What is staged is the source without caches. -/
theorem staged_of_stage (hplain : w.root.Plain) {tree : Node}
    (htree : w.root.get? (source.directory.place w.cwd) = some tree)
    (hapart : ¬ source.directory.place w.cwd <+: w.tempDir.place w.cwd)
    (hrun : stage source w = (.ok bundle, w')) : Staged tree bundle w w' := by
  obtain ⟨staging, w₁, hmake, hfill⟩ := of_stage_eq_ok hrun
  obtain ⟨name, hmem, -, hplace, hvacant, hparent, rfl, hturns⟩ :=
    Files.of_makeTemporary_eq_ok hplain (proper_of_stem List.mem_cons_self) hmake
  obtain ⟨rfl, hcopy⟩ := of_fill_eq_ok hfill
  have hname := Files.isName_of_mem_temporaryNames (by decide) (by decide) hmem
  have hstub : bundle.path.place w.cwd = bundle.staging.place w.cwd ++ ["stub"] :=
    Path.place_join bundle.staging (by decide) w.cwd
  rw [hplace] at hturns hcopy hstub
  rw [hplace] at hvacant
  have hmade := frame_makeDirectory hplain hname hparent hvacant (List.prefix_refl _)
  have hnew : (w.put (w.tempDir.place w.cwd ++ [name]) (.directory [])).root.get?
      (w.tempDir.place w.cwd ++ [name]) = some (.directory []) :=
    get?_alter_self hplain hparent _
  -- The source lies beside the new directory.
  have hbelow : ¬ w.tempDir.place w.cwd ++ [name] <+: source.directory.place w.cwd :=
    not_le_of_get?_ne_none (by rw [htree]; exact Option.some_ne_none _) hvacant
  have habove : ¬ source.directory.place w.cwd <+: w.tempDir.place w.cwd ++ [name] := by
    rw [List.prefix_concat_iff]
    rintro (heq | hle)
    · exact hbelow (heq ▸ List.prefix_refl _)
    · exact hapart hle
  rw [← hmade.get?_beside (fun _ heq => heq ▸ List.prefix_refl _) hbelow habove] at htree
  have hfree : (w.put (w.tempDir.place w.cwd ++ [name]) (.directory [])).root.get?
      (bundle.path.place w.cwd) = none := by
    rw [hstub, get?_append, hnew]
    rfl
  have hnot : ¬ source.directory.place w.cwd <+: bundle.path.place w.cwd := by
    rw [hstub]
    simpa using not_le_append habove hbelow [] ["stub"]
  obtain ⟨hframe, node, hnode, hcopied⟩ := Files.copies_copyTreeWithin Files.caches pathLimit
    (hmade.plain hplain) (by decide : IsName "stub") (Path.endsWith_join bundle.staging (by decide))
    (fun turn hturn => hturns turn ((Path.turnsAt_join (by decide)).1 hturn)) hfree hnot hcopy
  obtain rfl := Option.some.inj (htree.symm.trans hnode)
  refine ⟨⟨name, hmem, hplace⟩, hplace ▸ hvacant, ?_, by rw [hstub, hplace], hcopied⟩
  rw [hplace]
  refine (hmade.mono fun t heq => ⟨t, heq ▸ List.prefix_refl _, List.prefix_refl _⟩).trans
    (hframe.mono fun t hle => ⟨t, ?_, List.prefix_refl _⟩)
  have hinside : w.tempDir.place w.cwd ++ [name] <+: bundle.path.place w.cwd := by
    rw [hstub]
    exact List.prefix_append _ _
  exact hinside.trans hle

namespace Staged

variable {tree : Node} {kept dirs : List String → Prop} {base : Path}

/-- What is there, and does not hold the directory for temporary ones, is apart from where a stub was
staged. -/
theorem aloof (h : Staged tree bundle w w')
    (hthere : ∀ place, kept place → w.root.get? place ≠ none)
    (hapart : ∀ place, kept place → ¬ place <+: w.tempDir.place w.cwd)
    (hdirs : ∀ place, dirs place → w.root.DirAt place) :
    Aloof kept dirs (bundle.staging.place w.cwd) where
  kept place hplace := by
    have hnot := not_le_of_get?_ne_none (hthere place hplace) h.vacant
    obtain ⟨name, -, heq⟩ := h.temporary
    refine ⟨fun hle => ?_, hnot⟩
    rw [heq] at hnot hle
    rw [List.prefix_concat_iff] at hle
    exact hle.elim (fun heq => hnot (heq ▸ List.prefix_refl _)) (hapart place hplace)
  dirs place hplace hle := not_dirAt_of_none h.vacant ((hdirs place hplace).of_below hle)

theorem spared (h : Staged tree bundle w w') (hkept : Registry.Kept base w w')
    (haloof : Aloof kept dirs (bundle.staging.place w.cwd))
    (hdirs : ∀ place, dirs place → w.root.DirAt place) : Spared kept dirs w w' where
  cwd := hkept.cwd
  tempDir := hkept.tempDir
  plain := hkept.plain
  same place hplace := h.frame.get?_beside (fun _ => id) (haloof.kept place hplace).2
    (haloof.kept place hplace).1
  dir place hplace := h.frame.dir place (fun _ ht hle => haloof.dirs place hplace (ht.trans hle))
    (hdirs place hplace)

end Staged

/-- Staging keeps an index. -/
theorem kept_of_stage {base : Path} (h : Registry.Settled base w)
    (hrun : stage source w = (.ok bundle, w')) : Registry.Kept base w w' := by
  obtain ⟨result, w₁, hstage, hkept, -⟩ := stage_spacious (Registry.enduring_kept base w)
    (.refl base h.plain) (h.spacious List.mem_cons_self) source
  rw [hrun] at hstage
  cases hstage
  exact hkept

end Bundle

namespace Registry

variable {base : Path} {part : String}

/-! ## Putting in place -/

/-- What comes to lie in the place of a stub is what was copied. -/
theorem get?_of_place (h : Steady base part w) (hpart : IsName part) {source : Path}
    (hapart : ¬ source.place w.cwd <+: entryPlace (base.place w.cwd) (incomingName part))
    (hrun : place source (stubPath base part) w = (.ok (), w')) :
    Valid (stubPath base part) ∧ ∃ node, w.root.get? (source.place w.cwd) = some node ∧
      w'.root.get? (entryPlace (base.place w.cwd) part) = some node := by
  have hincoming := (under_stub base hpart).withFileName (isName_incomingName hpart)
  rw [place, (under_stub base hpart).fileName?] at hrun
  dsimp only [Option.getD_some] at hrun
  rw [← incomingName] at hrun
  generalize (stubPath base part).withFileName (incomingName part) = incoming at hincoming hrun
  rw [bind_eq_ok_iff] at hrun
  obtain ⟨⟨⟩, w₁, hclear, hrun⟩ := hrun
  have h₁ := confined_clear_incoming h hincoming
  rw [hclear] at h₁
  dsimp only at h₁
  replace hclear := of_adapt_eq_ok hclear
  have hw₁ := h.confined h₁
  have hcopy := frame_copyTree hw₁ hincoming source
  rw [bind_apply, run_apply] at hrun
  cases hcopied : Files.copyTree [] source incoming w₁ with
  | mk result w₂ =>
    rw [hcopied] at hrun hcopy
    cases result with
    | error fault =>
      dsimp only at hrun
      rw [bind_eq_ok_iff] at hrun
      obtain ⟨_, w₃, -, hthrow⟩ := hrun
      cases hthrow
    | ok _ =>
      dsimp only at hrun hcopy
      have h₂ : Confined (base.place w₁.cwd) part w₁ w₂ :=
        .of_incoming (hcopy.mono fun t ht => ⟨_, rfl, ht.1⟩)
      have hw₂ := hw₁.confined h₂
      have hmove := of_adapt_eq_ok hrun
      have hturns : ∀ turn, base.TurnsAt w₂.cwd turn →
          w₂.root.DirAt turn ∧ ¬ (stubPath base part).place w₂.cwd <+: turn := by
        intro turn hturn
        rw [place_stubPath base hpart]
        exact (hw₂.turns turn hturn).imp_right fun hclear => hclear part (.inl rfl)
      obtain ⟨result, w₃, hrun', -, hmoved, -⟩ := Files.moveOver_cases hw₂.plain hturns hincoming
        (under_stub base hpart) (incomingName_ne part).symm
      rw [hrun'] at hmove
      cases hmove
      obtain ⟨hvalid, hvalid', node', hnode', hnew, -⟩ := hmoved
      -- Nothing is left where the stub comes in, so that it is a copy of the source alone.
      have hgone := Files.get?_of_clear h.plain (fun turn hturn => (h.turns turn hturn).1)
        hincoming hvalid hclear
      have hplace := place_of_under hincoming w.cwd
      rw [place_stubPath base hpart, h₂.frame.cwd, h₁.frame.cwd] at hnew
      rw [h₂.frame.cwd, h₁.frame.cwd, hplace] at hnode'
      rw [hplace] at hgone
      obtain ⟨-, copied, hfound, hcopied⟩ := Files.copies_copyTreeWithin [] pathLimit hw₁.plain
        (isName_incomingName hpart) hincoming.endsWith
        (fun turn hturn => (hw₁.turns turn (hincoming.turnsAt hturn)).1)
        (by rw [h₁.frame.cwd, hplace, hgone]) (by rwa [h₁.frame.cwd, hplace]) hcopied
      rw [h₁.frame.cwd] at hfound hcopied
      rw [hplace, hnode', prune_nil] at hcopied
      cases hcopied
      have hbelow : ¬ entryPlace (base.place w.cwd) (incomingName part) <+: source.place w.cwd :=
        not_le_of_get?_ne_none (by rw [hfound]; exact Option.some_ne_none _) hgone
      have hcleared := Files.frame_clear h.plain incoming
      rw [hclear, hplace] at hcleared
      rw [hcleared.get?_beside (fun _ heq => heq ▸ List.prefix_refl _) hbelow hapart] at hfound
      exact ⟨hvalid', node', hfound, hnew⟩

/-! ## Installing -/

/-- The way to the index goes into no entry beside the stubs. -/
theorem Settled.outside_entry (h : Settled base w) {place : List String}
    (hpasses : (base.join fileName).Passes w.cwd place) (entry : String) :
    Outside (· = entryPlace (base.place w.cwd) entry) place := by
  rintro _ rfl hle
  obtain hpasses | rfl := Path.passes_join (by decide) hpasses
  · obtain ⟨turn, hturn, hle'⟩ | hle' := hpasses.le
    · exact (h.turns turn hturn).2 entry (hle.trans hle')
    · exact (h.beside_entry entry).way _ (.inr rfl) (hle.trans hle')
  · exact not_entryPlace_le_indexPlace entry hle

/-- Saving the records leaves the entries beside the stubs. -/
theorem spared_save_entry {registry : Registry} (h : Settled registry.home w) (entry : String) :
    Keeps (Spared (· = entryPlace (registry.home.place w.cwd) entry)
      (registry.home.TurnsAt w.cwd) w) registry.save := by
  refine Keeps.adapt (spared_replace (by decide) (Path.endsWith_join _ (by decide))
    (fun place hpasses => h.outside_entry hpasses entry) ?_ _) _
  rintro _ rfl
  exact undrafted_entry _ _

/-- An installation puts a copy in place, takes the time and saves changed records. -/
theorem of_install_eq_ok {site site' : Site} {bundle : Bundle} {record : Record}
    (hrun : install bundle site = (.ok record, site')) : ∃ directory w₁,
      site.registry.directory bundle.name = .ok directory ∧
      place bundle.path directory site.world = (.ok (), w₁) ∧ ∃ registry : Registry,
        registry.home = site.registry.home ∧
        site'.world = (registry.save (Files.now w₁).2).2 := by
  rw [install, bind_apply, Work.registry_apply] at hrun
  dsimp only at hrun
  rw [bind_apply, ofExcept_apply] at hrun
  cases hdirectory : site.registry.directory bundle.name with
  | error failure =>
    rw [hdirectory] at hrun
    cases hrun
  | ok directory =>
    rw [hdirectory] at hrun
    dsimp only at hrun
    rw [bind_eq_ok_iff] at hrun
    obtain ⟨⟨⟩, site₁, hplace, hrun⟩ := hrun
    rw [Work.liftM_apply, Prod.mk.injEq] at hplace
    obtain ⟨hok, rfl⟩ := hplace
    rw [bind_eq_ok_iff] at hrun
    obtain ⟨time, site₂, hnow, hrun⟩ := hrun
    rw [Work.liftM_apply, Prod.mk.injEq] at hnow
    obtain ⟨-, rfl⟩ := hnow
    rw [bind_apply, Work.changeRegistry_apply] at hrun
    dsimp only at hrun
    rw [bind_apply, Work.registry_apply] at hrun
    dsimp only at hrun
    rw [bind_eq_ok_iff] at hrun
    obtain ⟨⟨⟩, site₃, hsave, hrun⟩ := hrun
    cases hrun
    rw [Work.liftM_apply, Prod.mk.injEq] at hsave
    obtain ⟨-, rfl⟩ := hsave
    refine ⟨directory, _, rfl, Prod.ext hok rfl, site.registry.upsert (bundle.record time),
      upsert_home _ _, ?_⟩
    dsimp only

/-- What is installed is what was staged. -/
theorem get?_of_install {registry : Registry} {site' : Site} {bundle : Bundle} {record : Record}
    (h : Settled registry.home w)
    (hapart : ¬ bundle.path.place w.cwd <+:
      entryPlace (registry.home.place w.cwd) (incomingName (directoryName bundle.name)))
    (hrun : install bundle { world := w, registry } = (.ok record, site')) :
    IsName (directoryName bundle.name) ∧
      registry.directory bundle.name = .ok (stubPath registry.home (directoryName bundle.name)) ∧
      Valid (stubPath registry.home (directoryName bundle.name)) ∧
      Guarded registry.home w site'.world ∧
      ∃ node, w.root.get? (bundle.path.place w.cwd) = some node ∧
        site'.world.root.get?
          (entryPlace (registry.home.place w.cwd) (directoryName bundle.name)) = some node := by
  have hsaving : Saving .registered { world := w, registry }
      (install bundle { world := w, registry }) := saving_install bundle h
  have hguarded := hsaving.guarded
  rw [hrun] at hguarded
  obtain ⟨directory, w₁, hdirectory, hplace, saved, hhome, hworld⟩ := of_install_eq_ok hrun
  dsimp only at hdirectory hplace hhome
  obtain ⟨hpart, rfl⟩ := directory_eq_ok hdirectory
  have h₁ := keeps_place h hpart bundle.path w (.refl _ h.plain)
  rw [hplace] at h₁
  dsimp only at h₁
  obtain ⟨hvalid, node, hnode, hthere⟩ := get?_of_place
    ⟨h.plain, fun turn hturn => (h.turns turn hturn).imp_right fun hclear entry _ => hclear entry⟩
    hpart hapart hplace
  refine ⟨hpart, hdirectory, hvalid, hguarded, node, hnode, ?_⟩
  have h₂ : Kept registry.home w (Files.now w₁).2 := h₁.of_root_eq rfl rfl rfl
  rw [show w₁.root = (Files.now w₁).2.root from rfl] at hthere
  rw [hworld]
  generalize (Files.now w₁).2 = w₂ at h₂ hthere
  have hsettled : Settled saved.home w₂ := hhome.symm ▸ h.remains h₂.toRemains
  have hspared := spared_save_entry hsettled (directoryName bundle.name) w₂
    (.refl _ hsettled.plain fun turn hturn => (hsettled.turns turn hturn).1)
  rw [hhome, h₂.cwd] at hspared
  exact Eq.trans (hspared.same (entryPlace _ _) rfl) hthere

end Registry

end StubManager
