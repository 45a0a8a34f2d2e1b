import StubManager.Proofs.Registry.Keeping
import StubManager.Proofs.Registry.Store

/-!
# What is saved and loaded

A registry is loaded from the contents of its index alone (`load_apply`), so it is loaded as before
wherever the index was kept (`Settled.load_kept`), and as the records in hand where those were saved
(`Saved.load`). `store_saving`: installing and removing a stub either fail and leave an index in
place, or change the records in hand and save them.
-/

namespace StubManager

open Node Running World

namespace World

/-- The contents of the file that a path leads to. -/
def contents? (w : World) (p : Path) : Option ByteArray :=
  match w.find? p with
  | some (.file data _) => some data
  | _ => none

theorem contents?_eq_some_iff {w : World} {p : Path} {data : ByteArray} :
    w.contents? p = some data ↔ ∃ mode, w.find? p = some (.file data mode) := by
  rw [contents?]
  split
  · next data' mode hfind => simp [hfind]
  · next hfind =>
    simp only [reduceCtorEq, false_iff, not_exists]
    exact fun mode hfile => hfind _ _ hfile

theorem isFile_eq (w : World) (p : Path) : w.isFile p = (w.contents? p).isSome := by
  rw [World.isFile, contents?]
  cases w.find? p with
  | none => rfl
  | some node => cases node <;> rfl

end World

namespace Registry

variable {base : Path} {w w' : World} {site site' : Site}

/-! ## Loading -/

/-- What the contents of an index stand for. Without contents nothing is installed. -/
def ofContents? (home : Path) : Option ByteArray → Except Failure Registry
  | none => .ok { home }
  | some data =>
    match String.fromUTF8? data with
    | none => .error (.readFailed (home.join fileName).text FileFault.notText.message)
    | some text =>
      match Index.parse? text with
      | some records => .ok { home, records }
      | none => .error (.configUnreadable (home.join fileName).text)

/-- A registry is what the contents of its index stand for, and loading it changes nothing. -/
theorem load_apply (home : Path) (w : World) :
    load home w = (ofContents? home (w.contents? (home.join fileName)), w) := by
  rw [load, bind_apply, ask_apply]
  dsimp only
  rw [isFile_eq]
  cases hdata : w.contents? (home.join fileName) with
  | none => rfl
  | some data =>
    obtain ⟨mode, hfind⟩ := contents?_eq_some_iff.1 hdata
    rw [Option.isSome_some, Bool.not_true, if_neg Bool.false_ne_true, bind_apply, adapt_apply,
      Files.readText, bind_apply, Files.read_of_find? hfind]
    dsimp only [ofContents?]
    cases String.fromUTF8? data with
    | none => rfl
    | some text =>
      dsimp only
      change (match Index.parse? text with
        | some records => pure { home, records }
        | none => throw (.configUnreadable (home.join fileName).text) :
          Action Failure Registry) w = _
      cases Index.parse? text <;> rfl

theorem Settled.contents?_eq_some_iff (h : Settled base w) {data : ByteArray} :
    w.contents? (base.join fileName) = some data ↔
      Valid (base.join fileName) ∧ w.root.HasFile (indexPlace (base.place w.cwd)) data := by
  rw [World.contents?_eq_some_iff]
  by_cases hvalid : Valid (base.join fileName)
  · simp only [h.find?_index hvalid, hvalid, true_and]
    rfl
  · simp [find?_of_not_valid h.plain hvalid, hvalid]

theorem Settled.contents?_kept (h : Settled base w) (hw : Kept base w w') :
    w'.contents? (base.join fileName) = w.contents? (base.join fileName) := by
  refine Option.ext fun data => ?_
  rw [h.contents?_eq_some_iff,
    (h.remains hw.toRemains).contents?_eq_some_iff, hw.cwd]
  exact and_congr_right fun hvalid => hw.index hvalid data

theorem Settled.load_kept (h : Settled base w) (hw : Kept base w w') :
    (load base w').1 = (load base w).1 := by
  rw [load_apply, load_apply, h.contents?_kept hw]

/-! ## Saving -/

/-- Whether the index has the text of the records in hand. -/
def Saved (site : Site) : Prop :=
  site.world.contents? site.registry.indexPath = some (Index.render site.registry.records).toUTF8

/-- Records that were saved are loaded, if their text is read back. -/
theorem Saved.load (h : Saved site)
    (hread : Index.parse? (Index.render site.registry.records) = some site.registry.records) :
    load site.registry.home site.world = (.ok site.registry, site.world) := by
  have htext : String.fromUTF8? (Index.render site.registry.records).toUTF8
      = some (Index.render site.registry.records) := dif_pos (String.isValidUTF8 _)
  rw [load_apply, ← Registry.indexPath, show site.world.contents? _ = _ from h]
  simp only [ofContents?, htext, hread]

theorem Saved.kept (h : Saved site) (hsettled : Settled site.registry.home site.world)
    (hkept : Kept site.registry.home site.world w) : Saved { site with world := w } :=
  (hsettled.contents?_kept hkept).trans h

/-- Saving fails and keeps the index, or writes the records to it. -/
theorem save_cases {registry : Registry} (h : Settled registry.home w) :
    ∃ result w', registry.save w = (result, w') ∧ match result with
      | .error _ => Kept registry.home w w'
      | .ok () => Guarded registry.home w w' ∧ Saved { world := w', registry } := by
  obtain ⟨base, records⟩ := registry
  dsimp only at h ⊢
  have hunder := under_index base
  obtain ⟨parent, w₁, hplace, hframe, -, hcases⟩ := Files.replace_cases h.plain hunder.isName_entry
    hunder.endsWith (fun turn hturn => (h.turns turn (hunder.turnsAt hturn)).1)
    (Index.render records).toUTF8
  have hindex : parent ++ [fileName] = indexPlace (base.place w.cwd) :=
    hplace.symm.trans (hunder.place w.cwd)
  obtain ⟨rfl, -⟩ := List.append_inj' hindex rfl
  have hremains : Remains base w (Files.replace (base.join fileName) (Index.render records).toUTF8
      w).2 := (lasting_remains base w).keeps_replace (fun _ _ => trivial) trivial
    (fun _ _ _ _ _ => trivial) _ w
    (.refl base h.plain)
  rw [save, adapt_apply, Registry.indexPath]
  dsimp only
  obtain ⟨fault, hrun⟩ | ⟨-, hdir, hvalid, hrun⟩ := hcases
  · rw [hrun] at hremains ⊢
    refine ⟨_, _, rfl, hremains, fun _ data => exists_congr fun mode => ?_⟩
    refine (hframe (base.place w.cwd ++ [""]) (List.prefix_append _ _)).file _ data mode ?_
    rintro t rfl
    rw [indexPlace, List.prefix_append_right_inj]
    decide
  · rw [hrun] at hremains ⊢
    rw [hplace] at hremains ⊢
    have hthere : (w₁.put (base.place w.cwd ++ [fileName])
        (.file (Index.render records).toUTF8 false)).root.HasFile (indexPlace (base.place w.cwd))
          (Index.render records).toUTF8 :=
      ⟨false, ((hframe _ (List.prefix_refl _)).plain h.plain).get?_alter_self hdir⟩
    refine ⟨_, _, rfl, ⟨hremains, fun _ _ => ⟨_, hthere⟩⟩, ?_⟩
    exact (h.remains hremains).contents?_eq_some_iff.2 ⟨hvalid, hremains.cwd ▸ hthere⟩

/-! ## Effects -/

/-- What an operation did to the records. -/
inductive Effect where
  | registered (record : Record)
  | removed (name : String)
  | nothing
deriving DecidableEq, Repr

/-- The registry in hand after an effect. -/
def Effect.on (registry : Registry) : Effect → Registry
  | registered record => registry.upsert record
  | removed name => registry.erase name
  | nothing => registry

theorem Effect.on_home (effect : Effect) (registry : Registry) :
    (effect.on registry).home = registry.home := by
  cases effect with
  | registered record => exact upsert_home registry record
  | removed name => rfl
  | nothing => rfl

/-! ## Stores -/

variable {α β : Type} {effect : α → Effect}

/-- How work ends that changes the records in hand and saves them: an index that was there is there
still, and after a success it has the text of the changed records. After a failure the records in
hand may have changed as well. -/
structure Saving (effect : α → Effect) (site : Site) (ended : Except Failure α × Site) : Prop where
  hand : ∃ change : Effect, ended.2.registry = change.on site.registry
  guarded : Guarded site.registry.home site.world ended.2.world
  saved : ∀ a, ended.1 = .ok a → effect a ≠ .nothing ∧
    ended.2.registry = (effect a).on site.registry ∧ Saved ended.2

theorem Saving.home {ended : Except Failure α × Site} (h : Saving effect site ended) :
    ended.2.registry.home = site.registry.home := by
  obtain ⟨change, heq⟩ := h.hand
  rw [heq, change.on_home]

/-- Work that fails before the records are changed. -/
theorem Saving.of_failure (failure : Failure) (hw : Kept site.registry.home site.world w) :
    Saving effect site (.error failure, { site with world := w }) :=
  ⟨⟨.nothing, rfl⟩, hw.guarded, fun _ => of_error_eq_ok⟩

/-- Steps before that keep the index do not matter. -/
theorem Saving.bind_kept (hplain : site.world.root.Plain) {x : Action Failure β} {f : β → Work α}
    (hx : Keeps (Kept site.registry.home site.world) x)
    (hf : ∀ b w', Kept site.registry.home site.world w' →
      Saving effect { site with world := w' } (f b { site with world := w' })) :
    Saving effect site ((liftM x >>= f : Work α) site) := by
  rw [bind_apply, Work.liftM_apply]
  have hstep := hx site.world (.refl _ hplain)
  generalize x site.world = step at hstep
  obtain ⟨result, w'⟩ := step
  cases result with
  | error failure => exact .of_failure failure hstep
  | ok b =>
    obtain ⟨hhand, hguarded, hsaved⟩ := hf b w' hstep
    exact ⟨hhand, hstep.guarded.trans hguarded, hsaved⟩

/-- Work on the directory of a stub. -/
theorem Saving.on_directory (hplain : site.world.root.Plain) {name : String} {f : Path → Work α}
    (hf : IsName (directoryName name) →
      Saving effect site (f (stubPath site.registry.home (directoryName name)) site)) :
    Saving effect site ((do
      let directory ← MonadExcept.ofExcept ((← Work.registry).directory name)
      f directory : Work α) site) := by
  rw [bind_apply, Work.registry_apply]
  dsimp only
  rw [bind_apply]
  cases hdirectory : site.registry.directory name with
  | error failure => exact .of_failure failure (.refl _ hplain)
  | ok directory =>
    obtain ⟨hpart, rfl⟩ := directory_eq_ok hdirectory
    exact hf hpart

/-- The records are changed and then saved. -/
theorem Saving.of_save (effect : α → Effect) (a : α) (heffect : effect a ≠ .nothing)
    (h : Settled site.registry.home site.world) : Saving effect site ((do
      Work.changeRegistry fun registry => (effect a).on registry
      (← Work.registry).save
      return a : Work α) site) := by
  have hhome := (effect a).on_home site.registry
  have hsettled : Settled ((effect a).on site.registry).home site.world := hhome ▸ h
  obtain ⟨result, w', hrun, hresult⟩ := save_cases hsettled
  have hsave : (do
      Work.changeRegistry fun registry => (effect a).on registry
      (← Work.registry).save
      return a : Work α) site
        = (result.map fun _ => a, { world := w', registry := (effect a).on site.registry }) := by
    rw [bind_apply, Work.changeRegistry_apply]
    dsimp only
    rw [bind_apply, Work.registry_apply]
    dsimp only
    rw [bind_apply, Work.liftM_apply]
    dsimp only
    rw [hrun]
    cases result <;> rfl
  rw [hsave]
  rw [hhome] at hresult
  cases result with
  | error failure => exact ⟨⟨effect a, rfl⟩, hresult.guarded, fun _ => of_error_eq_ok⟩
  | ok _ =>
    refine ⟨⟨effect a, rfl⟩, hresult.1, fun _ heq => ?_⟩
    exact Except.ok.inj heq ▸ ⟨heffect, rfl, hresult.2⟩

/-- Work that fails in the end has saved nothing that counts. -/
theorem Saving.failing {work : Work α} {effect' : β → Effect} (h : Saving effect site (work site))
    (failure : Failure) :
    Saving effect' site ((work >>= fun _ => throw failure : Work β) site) := by
  obtain ⟨hhand, hguarded, -⟩ := h
  rw [bind_apply]
  generalize work site = step at hhand hguarded
  obtain ⟨_ | _, site'⟩ := step <;> exact ⟨hhand, hguarded, fun _ => of_error_eq_ok⟩

end Registry

/-- Whether a store saves the records in hand when it changes them. -/
structure Store.Saving (store : Store) : Prop where
  install : ∀ (bundle : Bundle) (site : Site), Registry.Settled site.registry.home site.world →
    Registry.Saving .registered site (store.install bundle site)
  uninstall : ∀ (name : String) (site : Site), Registry.Settled site.registry.home site.world →
    Registry.Saving (fun _ => .removed name) site (store.uninstall name site)

namespace Registry

theorem saving_install (bundle : Bundle) (h : Settled site.registry.home site.world) :
    Saving .registered site (install bundle site) := by
  refine .on_directory h.plain fun hpart => ?_
  refine .bind_kept h.plain (keeps_place h hpart bundle.path) fun _ w₁ h₁ => ?_
  have hnow : Keeps (Kept site.registry.home w₁) Files.now := fun w hw =>
    hw.of_root_eq rfl rfl rfl
  refine .bind_kept h₁.plain hnow fun time w₂ h₂ => ?_
  exact .of_save .registered _ (by simp) (h.remains (h₁.trans h₂).toRemains)

theorem saving_uninstall (name : String) (h : Settled site.registry.home site.world) :
    Saving (fun _ => .removed name) site (uninstall name site) := by
  rw [uninstall, bind_apply, Work.registry_apply]
  dsimp only
  cases site.registry.find? name with
  | none => exact .of_failure (.notInstalled name) (.refl _ h.plain)
  | some record =>
    refine .on_directory (f := fun directory => do
      Files.stopping (Files.clear directory)
      Work.changeRegistry (·.erase name)
      (← Work.registry).save
      return record) h.plain fun hpart => ?_
    refine .bind_kept h.plain (((enduring_kept _ _).keeps_clear ?_).adapt _) fun _ w₁ h₁ => ?_
    · rw [place_stubPath _ hpart]
      exact h.beside_entry _
    · exact .of_save (fun _ => .removed name) record (by simp) (h.remains h₁.toRemains)

theorem store_saving : store.Saving :=
  ⟨fun bundle _ h => saving_install bundle h, fun name _ h => saving_uninstall name h⟩

/-- A store that fails leaves an index in place as well, whatever it did before. -/
theorem failingStore_saving (failure : Failure) (stage : Stage) :
    (failingStore failure stage).Saving := by
  cases stage with
  | nothing =>
    exact ⟨fun _ _ h => .of_failure failure (.refl _ h.plain),
      fun _ _ h => .of_failure failure (.refl _ h.plain)⟩
  | directory =>
    constructor
    · intro bundle site h
      refine .on_directory (f := fun directory => do
        place bundle.path directory
        throw failure) h.plain fun hpart => ?_
      refine .bind_kept h.plain (keeps_place h hpart bundle.path) fun _ w₁ h₁ => ?_
      exact .of_failure failure (.refl _ h₁.plain)
    · intro name site h
      refine .on_directory (f := fun directory => do
        Files.stopping (Files.clear directory)
        throw failure) h.plain fun hpart => ?_
      refine .bind_kept h.plain (((enduring_kept _ _).keeps_clear ?_).adapt _) fun _ w₁ h₁ => ?_
      · rw [place_stubPath _ hpart]
        exact h.beside_entry _
      · exact .of_failure failure (.refl _ h₁.plain)
  | everything =>
    exact ⟨fun bundle _ h => (saving_install bundle h).failing failure,
      fun name _ h => (saving_uninstall name h).failing failure⟩

end Registry

end StubManager
