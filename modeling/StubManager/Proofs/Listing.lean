import Mathlib.Data.List.Nodup
import Mathlib.Data.List.Sort
import StubManager.Listing
import StubManager.Proofs.FileTree.Actions

/-!
# What a listing holds

All records are grouped in one pass, those of a project family by family. Both come to the same:
the families in order, each with its records in the order of the registry (`groups_eq`). Main
statement: `load_project`, the listing of a project is the listing of everything restricted to the
names of its list, and what is not in a group is missing.
-/

namespace StubManager

namespace Registry

variable {families : List String} {records : List Record} {record : Record}

/-! ## Families -/

/-- The families of records, in order. -/
def familiesOf (records : List Record) : List String :=
  records.foldl (fun families record => insertName record.firmware families) []

theorem mem_insertName_iff {name other : String} {names : List String} :
    other ∈ insertName name names ↔ other = name ∨ other ∈ names := by
  induction names with
  | nil => simp [insertName]
  | cons first names ih =>
    rw [insertName]
    split
    · next heq => simp [heq]
    · split
      · rw [List.mem_cons]
      · rw [List.mem_cons, ih, List.mem_cons, or_left_comm]

theorem pairwise_insertName {name : String} {names : List String} (h : names.Pairwise (· < ·)) :
    (insertName name names).Pairwise (· < ·) := by
  induction names with
  | nil => simp [insertName]
  | cons first names ih =>
    obtain ⟨hfirst, hmore⟩ := List.pairwise_cons.1 h
    rw [insertName]
    split
    · exact h
    · next hne =>
      split
      · next hlt =>
        refine List.pairwise_cons.2 ⟨List.forall_mem_cons.2 ⟨hlt, fun other hother => ?_⟩, h⟩
        exact String.lt_trans hlt (hfirst other hother)
      · next hnot =>
        refine List.pairwise_cons.2 ⟨fun other hother => ?_, ih hmore⟩
        obtain rfl | hother := mem_insertName_iff.1 hother
        · grind
        · exact hfirst other hother

theorem familiesOf_concat (records : List Record) (record : Record) :
    familiesOf (records ++ [record]) = insertName record.firmware (familiesOf records) := by
  rw [familiesOf, List.foldl_append]
  rfl

theorem mem_familiesOf_iff {family : String} :
    family ∈ familiesOf records ↔ ∃ record ∈ records, record.firmware = family := by
  induction records using List.reverseRecOn with
  | nil => simp [familiesOf]
  | append_singleton records record ih =>
    rw [familiesOf_concat, mem_insertName_iff, ih]
    simp only [List.mem_append, List.mem_singleton, or_and_right, exists_or, exists_eq_left]
    rw [or_comm, eq_comm (a := family)]

theorem pairwise_familiesOf (records : List Record) : (familiesOf records).Pairwise (· < ·) := by
  induction records using List.reverseRecOn with
  | nil => exact .nil
  | append_singleton records record ih =>
    rw [familiesOf_concat]
    exact pairwise_insertName ih

/-! ## Groups -/

/-- The given families, each with its records. -/
def grouped (families : List String) (records : List Record) : Groups :=
  families.map fun family => (family, records.filter (·.firmware = family))

theorem grouped_cons (family : String) (families : List String) (records : List Record) :
    grouped (family :: families) records
      = (family, records.filter (·.firmware = family)) :: grouped families records := rfl

/-- A record of another family changes no group. -/
theorem grouped_concat_of_not_mem (h : record.firmware ∉ families) :
    grouped families (records ++ [record]) = grouped families records := by
  refine List.map_congr_left fun family hfamily => ?_
  have hne : record.firmware ≠ family := fun heq => h (heq ▸ hfamily)
  rw [List.filter_append, List.filter_cons_of_neg (by simpa using hne), List.filter_nil,
    List.append_nil]

/-- One record more goes to the end of its group; without one, it starts a group in its place. -/
theorem addToGroup_grouped (hordered : families.Pairwise (· < ·))
    (hnew : record.firmware ∉ families → ∀ other ∈ records, other.firmware ≠ record.firmware) :
    addToGroup record (grouped families records)
      = grouped (insertName record.firmware families) (records ++ [record]) := by
  have hstart : record.firmware ∉ families →
      (records ++ [record]).filter (·.firmware = record.firmware) = [record] := by
    intro hnot
    have hnone : records.filter (·.firmware = record.firmware) = [] :=
      List.filter_eq_nil_iff.2 fun other hother => by simpa using hnew hnot other hother
    simp [hnone]
  induction families with
  | nil =>
    rw [insertName, grouped_cons, hstart List.not_mem_nil]
    rfl
  | cons family families ih =>
    obtain ⟨hfamily, hmore⟩ := List.pairwise_cons.1 hordered
    rw [grouped_cons, addToGroup, insertName]
    by_cases heq : family = record.firmware
    · subst heq
      have hlater : record.firmware ∉ families := fun hmem => String.lt_irrefl _ (hfamily _ hmem)
      rw [if_pos rfl, if_pos rfl, grouped_cons, grouped_concat_of_not_mem hlater]
      simp
    rw [if_neg heq, if_neg heq]
    by_cases hlt : record.firmware < family
    · have hlater : record.firmware ∉ family :: families := by
        intro hmem
        obtain rfl | hmem := List.mem_cons.1 hmem
        · exact heq rfl
        · exact String.lt_asymm hlt (hfamily _ hmem)
      rw [if_pos hlt, if_pos hlt, grouped_cons, hstart hlater, grouped_concat_of_not_mem hlater,
        grouped_cons]
    · have hrest : record.firmware ∉ families → record.firmware ∉ family :: families :=
        fun hnot => List.not_mem_cons_of_ne_of_not_mem (Ne.symm heq) hnot
      rw [if_neg hlt, if_neg hlt, grouped_cons,
        ih hmore (fun hnot => hnew (hrest hnot)) (fun hnot => hstart (hrest hnot))]
      simp [Ne.symm heq]

/-- The one pass over all records gives each family its records. -/
theorem groups_eq (registry : Registry) :
    registry.groups = grouped (familiesOf registry.records) registry.records := by
  obtain ⟨home, records⟩ := registry
  induction records using List.reverseRecOn with
  | nil => rfl
  | append_singleton records record ih =>
    rw [groups] at ih ⊢
    rw [List.foldl_append, ih, List.foldl_cons, List.foldl_nil, familiesOf_concat]
    refine addToGroup_grouped (pairwise_familiesOf records) fun hnot other hother heq => hnot ?_
    exact mem_familiesOf_iff.2 ⟨other, hother, heq⟩

/-- Asking family by family gives the groups of all records, restricted to the names and without the
families that are left with nothing. -/
theorem map_ofFamily_eq (registry : Registry) (names : List String) :
    ((registry.families names).map fun family => (family, registry.ofFamily family names))
      = (registry.groups.map fun group =>
          (group.1, group.2.filter fun record => names.contains record.name)).filter
            fun group => !group.2.isEmpty := by
  have hrestricted : ∀ family, registry.ofFamily family names
      = (registry.records.filter (·.firmware = family)).filter
          fun record => names.contains record.name := by
    intro family
    rw [ofFamily, List.filter_filter]
    exact List.filter_congr fun record _ => Bool.and_comm ..
  have hfamilies : registry.families names = (familiesOf registry.records).filter fun family =>
      !(registry.ofFamily family names).isEmpty := by
    refine (pairwise_familiesOf _).eq_of_mem_iff ((pairwise_familiesOf _).filter _) fun family => ?_
    rw [mem_familiesOf_iff, List.mem_filter, mem_familiesOf_iff, Bool.not_eq_true',
      List.isEmpty_eq_false_iff_exists_mem]
    simp only [ofFamily, List.mem_filter, Bool.and_eq_true, decide_eq_true_iff]
    constructor
    · rintro ⟨record, ⟨hmem, hname⟩, rfl⟩
      exact ⟨⟨record, hmem, rfl⟩, record, hmem, rfl, hname⟩
    · rintro ⟨-, record, hmem, rfl, hname⟩
      exact ⟨record, ⟨hmem, hname⟩, rfl⟩
  rw [groups_eq, grouped, List.map_map, List.filter_map, hfamilies]
  simp only [hrestricted]
  rfl

end Registry

namespace Listing

open Running

variable {registry : Registry} {project : Project} {names : List String} {w w' : World}

/-! ## Listings of a project -/

theorem mem_groups_ofNames_iff {name : String} {group : String × List Record} :
    group ∈ (ofNames registry name names).groups ↔ group.2 = registry.ofFamily group.1 names ∧
      ∃ record ∈ registry.records, record.name ∈ names ∧ record.firmware = group.1 := by
  obtain ⟨family, records⟩ := group
  simp only [ofNames, List.mem_map, Registry.families, ← Registry.familiesOf.eq_def,
    Registry.mem_familiesOf_iff, List.mem_filter, List.contains_iff_mem, Prod.mk.injEq]
  constructor
  · rintro ⟨_, ⟨record, ⟨hmem, hname⟩, hfamily⟩, rfl, rfl⟩
    exact ⟨rfl, record, hmem, hname, hfamily⟩
  · rintro ⟨rfl, record, hmem, hname, hfamily⟩
    exact ⟨family, ⟨record, ⟨hmem, hname⟩, hfamily⟩, rfl, rfl⟩

/-- A record of the family and of one of the names is in the group, and no other is. -/
theorem mem_ofFamily_iff {family : String} {record : Record} :
    record ∈ registry.ofFamily family names ↔
      record ∈ registry.records ∧ record.firmware = family ∧ record.name ∈ names := by
  simp [Registry.ofFamily]

theorem mem_missing_ofNames_iff {name project : String} :
    name ∈ (ofNames registry project names).missing ↔
      name ∈ names ∧ ∀ record ∈ registry.records, record.name ≠ name := by
  simp [ofNames, Registry.find?]

/-- The listing of a project is that of everything, restricted to the names of its list and without
the families that are left with nothing. Its families ascend; a record of a listed name is in one
group, once; the groups keep the order of the registry and the missing names that of the list; and
no name is both in a group and missing. -/
theorem load_project (hnodup : (registry.records.map Record.name).Nodup)
    (hnames : project.manifest.entries w = (.ok names, w')) :
    ∃ listing everything, load registry (some project) w = (.ok listing, w') ∧
      load registry none w = (.ok everything, w) ∧
      listing.scope = .project project.name ∧
      listing.groups = (everything.groups.map fun group =>
          (group.1, group.2.filter fun record => names.contains record.name)).filter
            (fun group => !group.2.isEmpty) ∧
      (listing.groups.map Prod.fst).Pairwise (· < ·) ∧
      (∀ group ∈ listing.groups, group.2.Sublist registry.records ∧ ∀ record ∈ group.2,
        record.firmware = group.1 ∧ record.name ∈ names ∧ record.name ∉ listing.missing) ∧
      (∀ record ∈ registry.records, record.name ∈ names → ∃ group ∈ listing.groups,
        (group.2.map Record.name).count record.name = 1 ∧ record ∈ group.2 ∧
          ∀ other ∈ listing.groups, record ∈ other.2 → other = group) ∧
      listing.missing = names.filter fun name => name ∉ registry.records.map Record.name := by
  refine ⟨ofNames registry project.name names, ofRegistry registry, ?_, rfl, rfl,
    registry.map_ofFamily_eq names, ?_, ?_, ?_, ?_⟩
  · rw [load, bind_apply, hnames]
    rfl
  · rw [ofNames, List.map_map]
    have hfamilies : (registry.families names).Pairwise (· < ·) := Registry.pairwise_familiesOf _
    simpa [Function.comp_def] using hfamilies
  · intro group hgroup
    obtain ⟨hrecords, -⟩ := mem_groups_ofNames_iff.1 hgroup
    rw [hrecords]
    refine ⟨List.filter_sublist, fun record hrecord => ?_⟩
    obtain ⟨hmem, hfamily, hname⟩ := mem_ofFamily_iff.1 hrecord
    exact ⟨hfamily, hname, fun hmissing => (mem_missing_ofNames_iff.1 hmissing).2 record hmem rfl⟩
  · intro record hmem hname
    have hgroup : record ∈ registry.ofFamily record.firmware names :=
      mem_ofFamily_iff.2 ⟨hmem, rfl, hname⟩
    have honce : ((registry.ofFamily record.firmware names).map Record.name).Nodup :=
      hnodup.sublist (List.filter_sublist.map _)
    refine ⟨(record.firmware, registry.ofFamily record.firmware names),
      mem_groups_ofNames_iff.2 ⟨rfl, record, hmem, hname, rfl⟩,
      List.count_eq_one_of_mem honce (List.mem_map_of_mem hgroup), hgroup, ?_⟩
    rintro ⟨family, records⟩ hother hrecord
    obtain ⟨hrecords, -⟩ := mem_groups_ofNames_iff.1 hother
    dsimp only at hrecords hrecord
    subst hrecords
    obtain ⟨-, rfl, -⟩ := mem_ofFamily_iff.1 hrecord
    rfl
  · refine List.filter_congr fun name _ => ?_
    rw [Registry.find?, Bool.eq_iff_iff, Option.isNone_iff_eq_none, List.find?_eq_none]
    simp

/-- Two families, and a list that names one stub twice and another that is not installed. -/
def twoFamilies : Registry where
  home := ⟨"home"⟩
  records :=
    [{ name := "pico", firmware := "rp2", source := "s", installed := default },
     { name := "widget", firmware := "esp32", source := "s", installed := default },
     { name := "gadget", firmware := "esp32", source := "s", installed := default }]

theorem load_project_of_repeated :
    let w : World :=
      { root := .directory [("mpstubs.yaml",
          .file "stubs: [gadget, unknown, gadget, 'pico']\n".toUTF8 false)],
        cwd := [], tempDir := ⟨"tmp"⟩, clock := default }
    ∃ listing w', load twoFamilies (some { root := ⟨"/"⟩ }) w = (.ok listing, w') ∧
      listing.groups.map (fun group => (group.1, group.2.map Record.name))
        = [("esp32", ["gadget"]), ("rp2", ["pico"])] ∧
      listing.missing = ["unknown"] := by
  intro w
  have hnodup : (twoFamilies.records.map Record.name).Nodup := by decide +kernel
  have hnames : (({ root := ⟨"/"⟩ } : Project).manifest.entries w).1
      = .ok ["gadget", "unknown", "gadget", "pico"] := by decide +kernel
  cases hrun : ({ root := ⟨"/"⟩ } : Project).manifest.entries w with
  | mk result w' =>
    rw [hrun] at hnames
    subst hnames
    obtain ⟨listing, everything, hload, hglobal, -, hgroups, -, -, -, hmissing⟩ :=
      load_project hnodup hrun
    cases hglobal
    refine ⟨listing, w', hload, ?_, hmissing.trans (by decide +kernel)⟩
    rw [hgroups]
    decide +kernel

end Listing

end StubManager
