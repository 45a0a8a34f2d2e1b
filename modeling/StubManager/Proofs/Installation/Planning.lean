import StubManager.Proofs.Artifact.Reapplication
import StubManager.Proofs.Installation.Enlisting

/-!
# Changes that are no changes

A plan compares texts, and what is reported of an operation is whether the text is to be saved.
`Installation.updates_iff` says that this is whether the list changes: an edit that leaves the
values of the list as they are leaves every character of the text, and edits that change the
values one after the other do not come back to them.
-/

namespace StubManager

open Running Registry

variable {w w' : World} {site site' : Site} {m : Manifest} {add remove : List String}

/-! ## Change sets without effect -/

namespace ChangeSet

/-- Whether the names are a list that has all that is to be added and nothing that is to be
removed. -/
def Settles (add remove names : List String) : Prop :=
  (∀ name ∈ remove, name ∉ names) ∧ ∀ name ∈ add, name ∈ names

instance (add remove names : List String) : Decidable (Settles add remove names) :=
  inferInstanceAs (Decidable (_ ∧ _))

end ChangeSet

namespace Artifact

open ListText ChangeSet

variable {artifact result : Artifact} {list : ListText}

/-- Where there is nothing to do, nothing is done. -/
theorem apply_of_settles (h : artifact.locate = .ok list)
    (hvalid : (ChangeSet.ofNames add remove).validate = .ok ())
    (hsettles : Settles add remove list.values) :
    artifact.apply (.ofNames add remove) = .ok artifact := by
  rw [apply_ofNames h hvalid, foldl_remove_of_not_mem hsettles.1, withList_of_locate h,
    (foldlM_addNode h fun name hname _ => hsettles.2 name hname).1,
    foldl_extend_of_mem hsettles.2, withList_of_locate h]

/-- Each removal lowers how often a value is there, and no addition makes up for it. -/
theorem settles_of_editValues_eq {names : List String}
    (hvalid : (ChangeSet.ofNames add remove).validate = .ok ())
    (h : editValues add remove names = names) : Settles add remove names := by
  constructor
  · intro name hname
    have hcount := congrArg (List.count name) h
    rw [count_editValues fun hadd => not_mem_of_validate hvalid hadd hname] at hcount
    have hremoved := List.count_pos_iff.2 hname
    rw [← List.count_eq_zero]
    omega
  · intro name hname
    rw [← h]
    exact mem_editValues_of_mem hname ..

/-- The values stay exactly where there is nothing to do. -/
theorem entries_apply_eq_iff (h : artifact.locate = .ok list)
    (happly : artifact.apply (.ofNames add remove) = .ok result) :
    result.entries = .ok list.values ↔ Settles add remove list.values := by
  obtain ⟨hvalid, -⟩ := of_apply_eq_ok happly
  constructor
  · intro hentries
    obtain ⟨-, list', hlocate', hvalues⟩ | ⟨-, failure, hfailure⟩ := apply_cases h happly
    · rw [entries, hlocate'] at hentries
      exact settles_of_editValues_eq hvalid (hvalues.symm.trans (Except.ok.inj hentries))
    · rw [entries, hfailure] at hentries
      cases hentries
  · intro hsettles
    rw [apply_of_settles h hvalid hsettles] at happly
    cases happly
    rw [entries, h]
    rfl

/-- The text stays exactly where there is nothing to do. -/
theorem text_apply_eq_iff (h : artifact.locate = .ok list)
    (happly : artifact.apply (.ofNames add remove) = .ok result) :
    result.text = artifact.text ↔ Settles add remove list.values := by
  constructor
  · intro htext
    obtain ⟨-, -, -, hanchor, -⟩ := apply_frame h happly
    have hlocate : result.locate = .ok list := by
      rw [locate_eq_ok_iff, htext, hanchor]
      exact locate_eq_ok_iff.1 h
    rw [← entries_apply_eq_iff h happly, entries, hlocate]
    rfl
  · intro hsettles
    rw [apply_of_settles h (of_apply_eq_ok happly).1 hsettles] at happly
    cases happly
    rfl

end Artifact

/-! ## Plans -/

namespace Manifest

open ChangeSet

variable {planned : Option Artifact}

/-- A plan is none exactly where there is nothing to do, and a text that is planned has another
list or none that can be read. -/
theorem of_plan_ofNames (h : m.plan (.ofNames add remove) w = (.ok planned, w')) :
    w' = w ∧ ∃ names, m.entries w = (.ok names, w) ∧
      (planned = none ↔ Settles add remove names) ∧
      ∀ updated ∈ planned, updated.entries ≠ .ok names := by
  rw [plan, bind_eq_ok_iff] at h
  obtain ⟨current, w₁, hload, h⟩ := h
  obtain ⟨rfl, -⟩ := Artifact.of_load_eq_ok hload
  rw [bind_eq_ok_iff] at h
  obtain ⟨updated, w₂, hstep, h⟩ := h
  rw [ofExcept_apply, Prod.mk.injEq] at hstep
  obtain ⟨happly, rfl⟩ := hstep
  cases h
  obtain ⟨-, list, hlocate⟩ := Artifact.of_apply_eq_ok happly
  have htext := Artifact.text_apply_eq_iff hlocate happly
  refine ⟨rfl, list.values, ?_, ?_, fun artifact hsome => ?_⟩
  · rw [entries, bind_apply, hload]
    dsimp only
    rw [ofExcept_apply, Artifact.entries, hlocate]
    rfl
  · rw [← htext]
    split
    · next hsame => exact iff_of_true rfl hsame
    · next hdiffer => exact iff_of_false (Option.some_ne_none _) hdiffer
  · split at hsome
    · cases hsome
    · next hdiffer =>
      cases hsome
      rwa [ne_eq, Artifact.entries_apply_eq_iff hlocate happly, ← htext]

/-- A change of a list in a world, and whether it is reported to update the list: it is if there is
a text to save, which is if the list is not settled already. -/
def Updates (m : Manifest) (add remove : List String) (w : World) (updated : Bool) : Prop :=
  ∃ names planned, m.entries w = (.ok names, w) ∧
    m.plan (.ofNames add remove) w = (.ok planned, w) ∧
    updated = planned.isSome ∧ (updated = true ↔ ¬ Settles add remove names)

end Manifest

namespace Installation

open ChangeSet

variable {added : Added} {removed : Removed} {edit : Option (Artifact × Path)} {saved : Bool}

/-! ## Operations -/

theorem saved_eq_isSome (h : Work.saveEdit edit site = (.ok saved, site')) :
    saved = edit.isSome := by
  cases edit with
  | none =>
    cases h
    rfl
  | some edit =>
    obtain ⟨artifact, p⟩ := edit
    rw [Work.saveEdit, bind_eq_ok_iff] at h
    obtain ⟨⟨⟩, site₁, -, h⟩ := h
    cases h
    rfl

/-- What is planned in a world and then saved is reported. -/
theorem updates_of_planEdit {site₁ site₂ : Site}
    (hplan : Work.planEdit (some m) (.ofNames add remove) site = (.ok edit, site'))
    (hsave : Work.saveEdit edit site₁ = (.ok saved, site₂)) :
    m.Updates add remove site.world saved := by
  rw [Work.planEdit, bind_eq_ok_iff] at hplan
  obtain ⟨planned, site₃, hstep, hplan⟩ := hplan
  cases hplan
  rw [Work.liftM_apply, Prod.mk.injEq] at hstep
  obtain ⟨hok, -⟩ := hstep
  have hplan : m.plan (.ofNames add remove) site.world
      = (.ok planned, (m.plan (.ofNames add remove) site.world).2) := Prod.ext hok rfl
  obtain ⟨hsame, names, hentries, hnone, -⟩ := Manifest.of_plan_ofNames hplan
  rw [hsame] at hplan
  have hsaved : saved = planned.isSome := by rw [saved_eq_isSome hsave, Option.isSome_map]
  refine ⟨names, planned, hentries, hplan, hsaved, ?_⟩
  rw [hsaved, ← hnone, Option.isSome_iff_ne_none]

theorem updates_of_listInstalled {record : Record}
    (h : listInstalled (some m) record site = (.ok added, site')) :
    m.Updates [added.record.name] [] site.world added.manifestUpdated := by
  rw [name_of_listInstalled h]
  rw [listInstalled, bind_eq_ok_iff] at h
  obtain ⟨edit, site₁, hplan, h⟩ := h
  rw [bind_eq_ok_iff] at h
  obtain ⟨saved, site₂, hsave, h⟩ := h
  cases h
  exact updates_of_planEdit hplan hsave

theorem updates_of_installBundle {bundle : Bundle}
    (h : installBundle Registry.store (some m) bundle site = (.ok added, site')) :
    m.Updates [added.record.name] [] site.world added.manifestUpdated := by
  rw [name_of_installBundle h]
  rw [installBundle, bind_eq_ok_iff] at h
  obtain ⟨edit, site₁, hplan, h⟩ := h
  rw [bind_eq_ok_iff] at h
  obtain ⟨registry, site₂, -, h⟩ := h
  rw [bind_eq_ok_iff] at h
  obtain ⟨footprint, site₃, -, h⟩ := h
  obtain ⟨site₄, site₅, hbody⟩ := Work.exists_of_protecting_eq_ok h
  rw [bind_eq_ok_iff] at hbody
  obtain ⟨record, site₆, -, hbody⟩ := hbody
  rw [bind_eq_ok_iff] at hbody
  obtain ⟨saved, site₇, hsave, hbody⟩ := hbody
  cases hbody
  exact updates_of_planEdit hplan hsave

theorem updates_of_register {bundle : Bundle} {force : Bool}
    (h : register Registry.store (some m) bundle force site = (.ok added, site')) :
    m.Updates [added.record.name] [] site.world added.manifestUpdated := by
  rw [register, bind_apply, Work.registry_apply] at h
  dsimp only at h
  cases hrecord : site.registry.find? bundle.name with
  | none =>
    rw [hrecord] at h
    exact updates_of_installBundle h
  | some record =>
    rw [hrecord] at h
    cases force with
    | true => exact updates_of_installBundle h
    | false => exact updates_of_listInstalled h

theorem updates_of_remove {name : String}
    (h : Installation.remove Registry.store (some m) name site = (.ok removed, site')) :
    m.Updates [] [name] site.world removed.manifestUpdated := by
  rw [Installation.remove, bind_apply, Work.registry_apply] at h
  dsimp only at h
  split at h
  · cases h
  · rw [bind_eq_ok_iff] at h
    obtain ⟨edit, site₁, hplan, h⟩ := h
    rw [bind_eq_ok_iff] at h
    obtain ⟨registry, site₂, -, h⟩ := h
    rw [bind_eq_ok_iff] at h
    obtain ⟨footprint, site₃, -, h⟩ := h
    obtain ⟨site₄, site₅, hbody⟩ := Work.exists_of_protecting_eq_ok h
    rw [bind_eq_ok_iff] at hbody
    obtain ⟨saved, site₆, hsave, hbody⟩ := hbody
    rw [bind_eq_ok_iff] at hbody
    obtain ⟨record, site₇, -, hbody⟩ := hbody
    cases hbody
    exact updates_of_planEdit hplan hsave

/-- The world that an addition plans in: the one it starts in, or the one that its stub is staged
in. -/
def Addition.PlansIn (addition : Addition) (site : Site) (w : World) : Prop :=
  match addition with
  | named catalog identifier => w = site.world ∨
      ∃ bundle, Bundle.ofIdentifier catalog identifier site.world = (.ok bundle, w)
  | staged _ => w = site.world

theorem updates_of_run (addition : Addition) {force : Bool}
    (h : addition.run m force site = (.ok added, site')) :
    ∃ w, addition.PlansIn site w ∧ m.Updates [added.record.name] [] w added.manifestUpdated := by
  cases addition with
  | staged bundle => exact ⟨site.world, rfl, updates_of_register h⟩
  | named catalog identifier =>
    obtain ⟨record, -, hinstalled⟩ | ⟨-, bundle, w₁, site₂, hstage, hregister, -⟩ := add_cases h
    · exact ⟨site.world, .inl rfl, updates_of_listInstalled hinstalled⟩
    · have hupdates := updates_of_register hregister
      exact ⟨w₁, .inr ⟨bundle, hstage⟩, hupdates⟩

/-- A plan that is made is none exactly if nothing that is to be removed is in the list and all
that is to be added is, and otherwise the list is another one; an addition and a removal report
that the list is updated exactly if there was such a plan. -/
theorem updates_iff (m : Manifest) :
    (∀ {add remove : List String} {w w' : World} {planned : Option Artifact},
      m.plan (.ofNames add remove) w = (.ok planned, w') →
        w' = w ∧ ∃ names, m.entries w = (.ok names, w) ∧
          (planned = none ↔ (∀ name ∈ remove, name ∉ names) ∧ ∀ name ∈ add, name ∈ names) ∧
          ∀ updated ∈ planned, updated.entries ≠ .ok names) ∧
      (∀ (addition : Addition) {force : Bool} {site site' : Site} {added : Added},
        addition.run m force site = (.ok added, site') →
          ∃ w, addition.PlansIn site w ∧
            m.Updates [added.record.name] [] w added.manifestUpdated) ∧
      ∀ {name : String} {site site' : Site} {removed : Removed},
        Installation.remove Registry.store (some m) name site = (.ok removed, site') →
          m.Updates [] [name] site.world removed.manifestUpdated :=
  ⟨fun h => Manifest.of_plan_ofNames h, fun addition _ _ _ _ h => updates_of_run addition h,
    fun h => updates_of_remove h⟩

/-- A stub that is listed already, and the removal of one that is listed. -/
theorem updates_of_listed :
    ((manifestAt "list.py").plan (.ofNames ["x"] ["y"])
        (smallSite "home" "stubs = ['x']\n").world).1 = .ok none ∧
      (Installation.remove Registry.store (some (manifestAt "list.py")) "x"
        (smallSite "home" "stubs = ['x']\n")).1.map (·.manifestUpdated) = .ok true ∧
      ∃ names, (manifestAt "list.py").entries (smallSite "home" "stubs = ['x']\n").world
          = (.ok names, (smallSite "home" "stubs = ['x']\n").world) ∧
        "x" ∈ names ∧ "y" ∉ names := by
  obtain ⟨hplan, -, hremove⟩ := updates_iff (manifestAt "list.py")
  have hnone : ((manifestAt "list.py").plan (.ofNames ["x"] ["y"])
      (smallSite "home" "stubs = ['x']\n").world).1 = .ok none := by decide +kernel
  obtain ⟨-, names, hentries, hsettled, -⟩ := hplan (Prod.ext hnone rfl)
  obtain ⟨hgone, hthere⟩ := hsettled.1 rfl
  have hx : "x" ∈ names := hthere "x" (List.mem_singleton_self _)
  have hdone : (Installation.remove Registry.store (some (manifestAt "list.py")) "x"
      (smallSite "home" "stubs = ['x']\n")).1.toBool := by decide +kernel
  refine ⟨hnone, ?_, names, hentries, hx, hgone "y" (List.mem_singleton_self _)⟩
  cases hrun : Installation.remove Registry.store (some (manifestAt "list.py")) "x"
    (smallSite "home" "stubs = ['x']\n") with
  | mk result site' =>
    rw [hrun] at hdone
    cases result with
    | error failure => cases hdone
    | ok removed =>
      obtain ⟨names', planned, hentries', -, -, hupdated⟩ := hremove hrun
      obtain rfl : names = names' :=
        Except.ok.inj (Prod.mk.inj (hentries.symm.trans hentries')).1
      have htrue : removed.manifestUpdated = true :=
        hupdated.2 fun hsettles => hsettles.1 "x" (List.mem_singleton_self _) hx
      exact congrArg Except.ok htrue

end Installation

end StubManager
