import StubManager.Extraction
import StubManager.Proofs.Installation.Restoration
import StubManager.Proofs.Registry.Staging
import StubManager.Proofs.Transaction.Keeping

/-!
# How operations end

An operation on a registry that fails leaves the records on disk as they were, and one that succeeds
saves the records in hand (`Ends`). `ends_add`, `ends_installGenerated`, `ends_register` and
`ends_remove` say so of every operation, for every store that saves what it changes.
-/

namespace StubManager

open Node World Registry Running Transaction

/-- What an addition did to the records: nothing, if the stub was installed already. -/
def Added.effect (added : Added) : Effect :=
  if added.alreadyInstalled then .nothing else .registered added.record

variable {α β : Type} {effect : α → Effect} {site : Site}

theorem Work.andFinally_apply (work : Work α) (cleanup : World → World) (site : Site) :
    work.andFinally cleanup site
      = ((work site).1, { (work site).2 with world := cleanup (work site).2.world }) := rfl

theorem Work.map_apply (work : Work α) (f : α → β) (site : Site) :
    (do return f (← work) : Work β) site = ((work site).1.map f, (work site).2) := by
  rw [bind_apply]
  rcases work site with ⟨_ | _, _⟩ <;> rfl

namespace Installation

/-! ## Endings -/

/-- How an operation ends: the index has what it had before, or it has the records in hand. -/
inductive Ends (effect : α → Effect) (site : Site) : Except Failure α × Site → Prop
  /-- The records in hand may have changed all the same. -/
  | failed (failure : Failure) (site' : Site)
      (hhand : ∃ change : Effect, site'.registry = change.on site.registry)
      (hkept : Kept site.registry.home site.world site'.world) :
      Ends effect site (.error failure, site')
  | unchanged (a : α) (w' : World) (hnothing : effect a = .nothing)
      (hkept : Kept site.registry.home site.world w') :
      Ends effect site (.ok a, { site with world := w' })
  | saved (a : α) (site' : Site) (heffect : effect a ≠ .nothing)
      (hregistry : site'.registry = (effect a).on site.registry)
      (hremains : Remains site.registry.home site.world site'.world) (hsaved : Saved site') :
      Ends effect site (.ok a, site')

namespace Ends

variable {ended : Except Failure α × Site} {w' : World}

theorem of_error (failure : Failure) (hkept : Kept site.registry.home site.world w') :
    Ends effect site (.error failure, { site with world := w' }) :=
  .failed _ _ ⟨.nothing, rfl⟩ hkept

theorem hand (h : Ends effect site ended) :
    ∃ change : Effect, ended.2.registry = change.on site.registry := by
  cases h with
  | failed failure site' hhand hkept => exact hhand
  | unchanged a w' hnothing hkept => exact ⟨.nothing, rfl⟩
  | saved a site' heffect hregistry hremains hsaved => exact ⟨effect a, hregistry⟩

theorem home (h : Ends effect site ended) : ended.2.registry.home = site.registry.home := by
  obtain ⟨change, heq⟩ := h.hand
  rw [heq, change.on_home]

theorem remains (h : Ends effect site ended) :
    Remains site.registry.home site.world ended.2.world := by
  cases h with
  | failed failure site' hhand hkept => exact hkept.toRemains
  | unchanged a w' hnothing hkept => exact hkept.toRemains
  | saved a site' heffect hregistry hremains hsaved => exact hremains

/-- What keeps the index before an operation does not matter. -/
theorem of_kept (hkept : Kept site.registry.home site.world w')
    (h : Ends effect { site with world := w' } ended) : Ends effect site ended := by
  cases h with
  | failed failure site' hhand hkept' => exact .failed failure site' hhand (hkept.trans hkept')
  | unchanged a w'' hnothing hkept' => exact .unchanged a w'' hnothing (hkept.trans hkept')
  | saved a site' heffect hregistry hremains hsaved =>
    exact .saved a site' heffect hregistry (hkept.toRemains.trans hremains) hsaved

/-- Nor does what keeps it after the operation. -/
theorem then_kept (hsettled : Settled site.registry.home site.world) (h : Ends effect site ended)
    (hkept : Kept site.registry.home ended.2.world w') :
    Ends effect site (ended.1, { ended.2 with world := w' }) := by
  cases h with
  | failed failure site' hhand hkept' => exact .failed failure _ hhand (hkept'.trans hkept)
  | unchanged a w'' hnothing hkept' => exact .unchanged a w' hnothing (hkept'.trans hkept)
  | saved a site' heffect hregistry hremains hsaved =>
    have hhome : site'.registry.home = site.registry.home :=
      (congrArg Registry.home hregistry).trans ((effect a).on_home site.registry)
    refine .saved a _ heffect hregistry (hremains.trans hkept.toRemains) (hsaved.kept ?_ ?_)
    · exact hhome ▸ hsettled.remains hremains
    · exact hhome ▸ hkept

/-- An answer may be put in another form. -/
theorem map {f : α → β} {effect' : β → Effect} (hsame : ∀ a, effect' (f a) = effect a)
    (h : Ends effect site ended) : Ends effect' site (ended.1.map f, ended.2) := by
  cases h with
  | failed failure site' hhand hkept => exact .failed failure site' hhand hkept
  | unchanged a w' hnothing hkept =>
    exact .unchanged (f a) w' ((hsame a).trans hnothing) hkept
  | saved a site' heffect hregistry hremains hsaved =>
    rw [← hsame] at heffect hregistry
    exact .saved (f a) site' heffect hregistry hremains hsaved

end Ends

/-! ## Lists of projects -/

/-- Whether a list that is to be edited is kept in another file than the index. -/
def ListedApart (manifest : Option Manifest) (home : Path) (cwd : List String) : Prop :=
  ∀ m ∈ manifest, m.path.place cwd ≠ indexPlace (home.place cwd)

variable {manifest : Option Manifest}

/-- Planning changes nothing and plans no edit of the index. -/
theorem planEdit_apart (hlist : ListedApart manifest site.registry.home site.world.cwd)
    (change : ChangeSet) :
    (∃ failure, Work.planEdit manifest change site = (.error failure, site)) ∨
      ∃ edit, Work.planEdit manifest change site = (.ok edit, site) ∧
        ∀ p ∈ edit.map (·.2),
          p.place site.world.cwd ≠ indexPlace (site.registry.home.place site.world.cwd) := by
  obtain hplan | ⟨edit, hplan, -, hedit⟩ := Work.planEdit_cases manifest change site
  · exact .inl hplan
  · refine .inr ⟨edit, hplan, fun p hp => ?_⟩
    obtain ⟨m, hm, rfl⟩ := hedit p hp
    exact hlist m hm

theorem saveEdit_kept {edit : Option (Artifact × Path)} (hplain : site.world.root.Plain)
    (hedit : ∀ p ∈ edit.map (·.2),
      p.place site.world.cwd ≠ indexPlace (site.registry.home.place site.world.cwd)) :
    ∃ result w', Work.saveEdit edit site = (result, { site with world := w' }) ∧
      Kept site.registry.home site.world w' := by
  have hstart := Kept.refl site.registry.home hplain
  cases edit with
  | none => exact ⟨_, _, rfl, hstart⟩
  | some edit =>
    obtain ⟨artifact, p⟩ := edit
    have hsave : Keeps (Kept site.registry.home site.world) (artifact.save p) :=
      (keeps_replace (hedit p rfl) _).adapt _
    refine ⟨((artifact.save p site.world).1.map fun _ => true), _, ?_, hsave _ hstart⟩
    rw [Work.saveEdit, bind_apply, Work.liftM_apply]
    cases (artifact.save p site.world).1 <;> rfl

/-! ## Operations -/

/-- A change that saves what it changes is taken back if it fails. -/
theorem ends_of_protecting {targets : List Target} {body : Work α}
    (hsettled : Settled site.registry.home site.world)
    (htargets : ∀ target ∈ targets, target.Apart site.registry.home site.world.cwd)
    (hbody : ∀ w', Kept site.registry.home site.world w' →
      Saving effect { site with world := w' } (body { site with world := w' })) :
    Ends effect site
      (Work.protecting (.file (site.registry.home.join fileName) :: targets) body site) := by
  obtain ⟨result, w', hrun, hkept, ht⟩ := begin_covers hsettled htargets
  rw [Work.protecting, bind_apply, Work.liftM_apply, hrun]
  cases result with
  | error failure => exact .of_error failure hkept
  | ok t =>
    dsimp only
    replace ht := ht t rfl
    have hsaving := hbody w' hkept
    generalize body { site with world := w' } = ended at hsaving
    obtain ⟨hhand, hguarded, hsaved⟩ := hsaving
    obtain ⟨result, site'⟩ := ended
    have hguarded' := hkept.guarded.trans hguarded
    cases result with
    | error failure =>
      -- Only files are brought back: the records in hand stay as the body left them.
      exact .failed failure _ hhand (ht.rollback hsettled hguarded')
    | ok a =>
      obtain ⟨heffect, hregistry, hsaved⟩ := hsaved a rfl
      exact Ends.then_kept hsettled (.saved a site' heffect hregistry hguarded'.toRemains hsaved)
        (ht.commit hguarded'.cwd hguarded'.plain)

/-- A change of a stub that is planned and then made under protection. -/
theorem ends_of_planned {change : ChangeSet} {name : String}
    {body : Option (Artifact × Path) → Work α}
    (hsettled : Settled site.registry.home site.world)
    (hlist : ListedApart manifest site.registry.home site.world.cwd)
    (hbody : ∀ edit w', Kept site.registry.home site.world w' →
      (∀ p ∈ edit.map (·.2),
        p.place site.world.cwd ≠ indexPlace (site.registry.home.place site.world.cwd)) →
      Saving effect { site with world := w' } (body edit { site with world := w' })) :
    Ends effect site ((do
      let edit ← Work.planEdit manifest change
      let footprint ← MonadExcept.ofExcept ((← Work.registry).footprint name)
      Work.protecting (footprint.targets (edit.map (·.2))) (body edit) : Work α) site) := by
  have hstart := Kept.refl site.registry.home hsettled.plain
  rw [bind_apply]
  obtain ⟨failure, hplan⟩ | ⟨edit, hplan, hedit⟩ := planEdit_apart hlist change
  · rw [hplan]
    exact .of_error failure hstart
  rw [hplan]
  dsimp only
  rw [bind_apply, Work.registry_apply]
  dsimp only
  rw [bind_apply]
  cases hfootprint : site.registry.footprint name with
  | error failure => exact .of_error failure hstart
  | ok footprint =>
    obtain ⟨hname, hfiles, hdirectory⟩ := Registry.footprint_eq_ok hfootprint
    have hstub : Target.Apart site.registry.home site.world.cwd
        (.directory (stubPath site.registry.home (directoryName name))) := by
      rw [Target.Apart, place_stubPath _ hname, place_of_under (preservedPath_stub _ hname)]
      exact ⟨hsettled.beside_entry _, hsettled.beside_entry _⟩
    change Ends effect site (Work.protecting (footprint.targets (edit.map (·.2))) (body edit) site)
    rw [Footprint.targets, hfiles, hdirectory]
    refine ends_of_protecting hsettled (fun target htarget => ?_) fun w' hkept =>
      hbody edit w' hkept hedit
    obtain rfl | htarget := List.mem_cons.1 htarget
    · exact hstub
    · obtain ⟨p, hp, rfl⟩ := List.mem_map.1 htarget
      exact hedit p (Option.mem_toList.1 hp)

end Installation

namespace Installation

variable {manifest : Option Manifest} {store : Store}

theorem ends_listInstalled (hplain : site.world.root.Plain)
    (hlist : ListedApart manifest site.registry.home site.world.cwd) (record : Record) :
    Ends Added.effect site (listInstalled manifest record site) := by
  rw [listInstalled, bind_apply]
  obtain ⟨failure, hplan⟩ | ⟨edit, hplan, hedit⟩ := planEdit_apart hlist (.adding [record.name])
  · rw [hplan]
    exact .of_error failure (.refl _ hplain)
  · rw [hplan]
    dsimp only
    rw [bind_apply]
    obtain ⟨result, w', hrun, hkept⟩ := saveEdit_kept hplain hedit
    rw [hrun]
    cases result with
    | error failure => exact .of_error failure hkept
    | ok saved => exact .unchanged _ w' rfl hkept

theorem ends_installBundle (hstore : store.Saving)
    (hsettled : Settled site.registry.home site.world)
    (hlist : ListedApart manifest site.registry.home site.world.cwd) (bundle : Bundle) :
    Ends Added.effect site (installBundle store manifest bundle site) := by
  refine ends_of_planned hsettled hlist fun edit w' hkept hedit => ?_
  have hinstall := hstore.install bundle { site with world := w' }
    (hsettled.remains hkept.toRemains)
  rw [bind_apply]
  generalize store.install bundle { site with world := w' } = ended at hinstall
  have hhome : ended.2.registry.home = site.registry.home := hinstall.home
  obtain ⟨hhand, hguarded, hsaved⟩ := hinstall
  obtain ⟨result, site'⟩ := ended
  cases result with
  | error failure => exact ⟨hhand, hguarded, fun _ => of_error_eq_ok⟩
  | ok record =>
    obtain ⟨-, hregistry, hsaved⟩ := hsaved record rfl
    dsimp only at hhome hguarded hregistry ⊢
    have hsettled' : Settled site'.registry.home site'.world :=
      hhome ▸ (hsettled.remains hkept.toRemains).remains hguarded.toRemains
    rw [← hkept.cwd, ← hguarded.cwd, ← hhome] at hedit
    obtain ⟨result, w'', hrun, hkept'⟩ := saveEdit_kept hsettled'.plain hedit
    rw [bind_apply, hrun]
    have hguarded' := hguarded.trans (hhome ▸ hkept'.guarded)
    cases result with
    | error failure => exact ⟨hhand, hguarded', fun _ => of_error_eq_ok⟩
    | ok saved =>
      refine ⟨hhand, hguarded', fun a heq => ?_⟩
      cases heq
      exact ⟨by simp [Added.effect], hregistry, hsaved.kept hsettled' hkept'⟩

theorem ends_register (hstore : store.Saving) (hsettled : Settled site.registry.home site.world)
    (hlist : ListedApart manifest site.registry.home site.world.cwd) (bundle : Bundle)
    (force : Bool) : Ends Added.effect site (register store manifest bundle force site) := by
  rw [register, bind_apply, Work.registry_apply]
  dsimp only
  cases site.registry.find? bundle.name with
  | none => exact ends_installBundle hstore hsettled hlist bundle
  | some record =>
    cases force with
    | false => exact ends_listInstalled hsettled.plain hlist record
    | true => exact ends_installBundle hstore hsettled hlist bundle

/-- A stub is staged, registered and removed from where it was staged. -/
theorem ends_of_staged (hstore : store.Saving)
    (hsettled : Settled site.registry.home site.world)
    (hlist : ListedApart manifest site.registry.home site.world.cwd) (force : Bool)
    {stage : Action Failure Bundle}
    (hstage : ∃ result w', stage site.world = (result, w') ∧
      Kept site.registry.home site.world w' ∧ ∀ bundle, result = .ok bundle →
        Beside site.registry.home site.world.cwd (bundle.staging.place site.world.cwd)) :
    Ends Added.effect site ((do
      let bundle ← stage
      (register store manifest bundle force).andFinally (Bundle.discard bundle.staging) :
        Work Added) site) := by
  obtain ⟨result, w', hrun, hkept, hbeside⟩ := hstage
  rw [bind_apply, Work.liftM_apply, hrun]
  cases result with
  | error failure => exact .of_error failure hkept
  | ok bundle =>
    have hsettled' := hsettled.remains hkept.toRemains
    have hends : Ends Added.effect { site with world := w' }
        (register store manifest bundle force { site with world := w' }) :=
      ends_register hstore hsettled' (hkept.cwd ▸ hlist) bundle force
    have hremains := hends.remains
    dsimp only
    rw [Work.andFinally_apply]
    generalize register store manifest bundle force { site with world := w' } = ended
      at hends hremains
    refine .of_kept hkept (hends.then_kept hsettled' ?_)
    refine (enduring_kept _ _).keeps_removeTree ?_ _ (.refl _ hremains.plain)
    rw [hremains.cwd, hkept.cwd]
    exact hbeside bundle rfl

theorem ends_add (hstore : store.Saving) (hsettled : Settled site.registry.home site.world)
    (hlist : ListedApart manifest site.registry.home site.world.cwd) (catalog : Path)
    (identifier : String) (force : Bool) :
    Ends Added.effect site (add store catalog manifest identifier force site) := by
  have hstaged := ends_of_staged hstore hsettled hlist force
    (Bundle.ofIdentifier_cases catalog identifier hsettled)
  rw [add, bind_apply, Work.registry_apply]
  dsimp only
  cases site.registry.find? identifier with
  | none => exact hstaged
  | some record =>
    cases force with
    | false => exact ends_listInstalled hsettled.plain hlist record
    | true => exact hstaged

/-- What a device generated is staged like any other stub. -/
theorem stageGenerated_spacious {I : World → Prop} {idle free loose : List String → Prop}
    {w : World} (h : Enduring I w.cwd idle free loose) (hw : I w)
    (hspace : Spacious idle free loose "mpstubs-stage-" w) (port : String) (directory : Path) :
    ∃ result w', Extraction.stageGenerated port directory w = (result, w') ∧ I w' ∧
      ∀ bundle, result = .ok bundle → Workspace idle free loose w.cwd bundle.staging := by
  have hload := Metadata.keeps_load (I := (· = w)) directory w rfl
  rw [Extraction.stageGenerated, bind_apply, adapt_apply]
  generalize Metadata.load directory w = step at hload
  obtain ⟨result, w'⟩ := step
  obtain rfl : w' = w := hload
  cases result with
  | error failure => exact ⟨_, _, rfl, hw, fun _ => of_error_eq_ok⟩
  | ok metadata => exact Bundle.stage_spacious h hw hspace _

theorem ends_installGenerated (hstore : store.Saving)
    (hsettled : Settled site.registry.home site.world)
    (hlist : ListedApart manifest site.registry.home site.world.cwd) (port : String)
    (directory : Path) :
    Ends Added.effect site (Extraction.installGenerated store manifest port directory site) := by
  obtain ⟨result, w', hrun, hkept, hroom⟩ := stageGenerated_spacious
    (enduring_kept site.registry.home site.world) (.refl _ hsettled.plain)
    (hsettled.spacious List.mem_cons_self) port directory
  exact ends_of_staged hstore hsettled hlist true
    ⟨result, w', hrun, hkept, fun bundle heq => (hroom bundle heq).room.loose⟩

theorem ends_remove (hstore : store.Saving) (hsettled : Settled site.registry.home site.world)
    (hlist : ListedApart manifest site.registry.home site.world.cwd) (name : String) :
    Ends (fun _ => .removed name) site (remove store manifest name site) := by
  rw [remove, bind_apply, Work.registry_apply]
  dsimp only
  split
  · exact .of_error (.notInstalled name) (.refl _ hsettled.plain)
  · refine ends_of_planned hsettled hlist fun edit w' hkept hedit => ?_
    rw [← hkept.cwd] at hedit
    obtain ⟨result, w'', hrun, hkept'⟩ :=
      @saveEdit_kept { site with world := w' } edit hkept.plain hedit
    rw [bind_apply, hrun]
    cases result with
    | error failure => exact .of_failure failure hkept'
    | ok saved =>
      have huninstall := hstore.uninstall name { site with world := w'' }
        ((hsettled.remains hkept.toRemains).remains hkept'.toRemains)
      dsimp only
      rw [bind_apply]
      generalize store.uninstall name { site with world := w'' } = ended at huninstall
      obtain ⟨hhand, hguarded, hsaved⟩ := huninstall
      obtain ⟨result, site'⟩ := ended
      have hguarded' := hkept'.guarded.trans hguarded
      cases result with
      | error failure => exact ⟨hhand, hguarded', fun _ => of_error_eq_ok⟩
      | ok record => exact ⟨hhand, hguarded', fun _ _ => hsaved record rfl⟩

end Installation

end StubManager
