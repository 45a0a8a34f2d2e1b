import Mathlib.Data.List.Count
import StubManager.Proofs.Artifact.Application

/-!
# Applying a change set again

A change set that was applied changes nothing when it is applied again, with two exceptions: an
element that was there more often than it was removed loses another occurrence, and a name with a
line feed that was added has made the list unreadable. `apply_again_iff` says that there are no
others.
-/

namespace StubManager

namespace ListText

theorem count_editValues {add : List String} {name : String} (h : name ∉ add)
    (remove values : List String) :
    (editValues add remove values).count name = values.count name - remove.count name := by
  rw [← List.count_diff, List.diff_eq_foldl, editValues]
  generalize remove.foldl List.erase values = values
  induction add generalizing values with
  | nil => rfl
  | cons other add ih =>
    rw [List.mem_cons, not_or] at h
    rw [List.foldl_cons, ih h.2, withName]
    split
    · rfl
    · simp [Ne.symm h.1]

theorem mem_editValues_of_mem {add : List String} {name : String} (h : name ∈ add)
    (remove values : List String) : name ∈ editValues add remove values := by
  have hkeep : ∀ (add values : List String) (name : String), name ∈ values →
      name ∈ add.foldl withName values := by
    intro add
    induction add with
    | nil => exact fun _ _ h => h
    | cons other add ih => exact fun _ _ h => ih _ _ (mem_withName.2 (.inl h))
  obtain ⟨front, back, rfl⟩ := List.append_of_mem h
  rw [editValues, List.foldl_append, List.foldl_cons]
  exact hkeep _ _ _ (mem_withName.2 (.inr rfl))

theorem foldl_remove_of_not_mem {list : ListText} {names : List String}
    (h : ∀ name ∈ names, name ∉ list.values) : names.foldl remove list = list := by
  induction names with
  | nil => rfl
  | cons name names ih =>
    rw [List.forall_mem_cons] at h
    rw [List.foldl_cons, remove_of_not_mem h.1, ih h.2]

theorem foldl_extend_of_mem {list : ListText} {names : List String}
    (h : ∀ name ∈ names, name ∈ list.values) : names.foldl extend list = list := by
  induction names with
  | nil => rfl
  | cons name names ih =>
    rw [List.forall_mem_cons] at h
    rw [List.foldl_cons, extend_of_mem h.1, ih h.2]

end ListText

/-- An accepted change set adds no name that it removes. -/
theorem ChangeSet.not_mem_of_validate {add remove : List String}
    (h : (ChangeSet.ofNames add remove).validate = .ok ()) {name : String} (hname : name ∈ add) :
    name ∉ remove := by
  unfold validate at h
  split at h
  · cases h
  · next hnone =>
    intro hremove
    rw [contradiction?, Option.map_eq_none_iff, List.find?_eq_none] at hnone
    refine hnone (.ofName name) (List.mem_map_of_mem hname) ?_
    exact List.any_eq_true.2 ⟨_, List.mem_map_of_mem hremove, beq_self_eq_true name⟩

namespace Artifact

open ListText

/-- What is known of an application that returned: the list it leaves, and whether that list can
be read. -/
theorem apply_cases {artifact result : Artifact} {list : ListText} {add remove : List String}
    (h : artifact.locate = .ok list)
    (happly : artifact.apply (.ofNames add remove) = .ok result) :
    ((∀ name ∈ add, '\n' ∈ name.toList → name ∈ list.values) ∧
        ∃ list', result.locate = .ok list' ∧ list'.values = editValues add remove list.values) ∨
      (∃ name ∈ add, '\n' ∈ name.toList ∧ name ∉ list.values) ∧
        ∃ failure, result.locate = .error failure := by
  obtain ⟨hvalid, -⟩ := of_apply_eq_ok happly
  have htiled := (locate_eq_ok_iff.1 h).1
  obtain ⟨-, hlocate⟩ := foldlM_removeValue h remove
  rw [apply_ofNames h hvalid] at happly
  have hmem : ∀ name ∈ add,
      (name ∈ (remove.foldl ListText.remove list).values ↔ name ∈ list.values) := by
    intro name hname
    rw [htiled.values_foldl_remove, ← List.diff_eq_foldl, ← List.count_pos_iff, List.count_diff,
      List.count_eq_zero_of_not_mem (ChangeSet.not_mem_of_validate hvalid hname), Nat.sub_zero,
      List.count_pos_iff]
  obtain ⟨rfl, hall | ⟨⟨name, hname, hbreak, hnew⟩, herror⟩⟩ :=
    foldlM_addNode_cases hlocate happly
  · refine .inl ⟨fun name hname hbreak => (hmem name hname).1 (hall name hname hbreak), _,
      (foldlM_addNode hlocate hall).2, ?_⟩
    rw [((htiled.foldl_remove remove).1.foldl_extend hall).2.1, htiled.values_foldl_remove,
      editValues]
  · exact .inr ⟨⟨name, hname, hbreak, mt (hmem name hname).2 hnew⟩, herror⟩

/-- An application that returned is repeated without a change exactly when no name to remove is
left over and every name with a line feed was there before. -/
theorem apply_again_iff {artifact result : Artifact} {add remove : List String}
    (h : artifact.apply (.ofNames add remove) = .ok result) :
    ∃ list, artifact.locate = .ok list ∧
      (result.apply (.ofNames add remove) = .ok result ↔
        (∀ name ∈ remove, list.values.count name ≤ remove.count name) ∧
          ∀ name ∈ add, '\n' ∈ name.toList → name ∈ list.values) := by
  obtain ⟨hvalid, list, hlocate⟩ := of_apply_eq_ok h
  refine ⟨list, hlocate, ?_⟩
  have hdisjoint : ∀ name ∈ remove, name ∉ add :=
    fun name hremove hadd => ChangeSet.not_mem_of_validate hvalid hadd hremove
  obtain ⟨hbreaks, list', hlocate', hvalues⟩ | ⟨⟨name, hname, hbreak, hnew⟩, failure, hfailure⟩ :=
    apply_cases hlocate h
  · constructor
    · intro hagain
      refine ⟨fun name hname => ?_, hbreaks⟩
      obtain ⟨-, list'', hlocate'', hvalues'⟩ | ⟨-, failure, hfailure⟩ :=
        apply_cases hlocate' hagain
      · obtain rfl : list' = list'' := Except.ok.inj (hlocate'.symm.trans hlocate'')
        have hcount := congrArg (List.count name) hvalues'
        rw [count_editValues (hdisjoint name hname), hvalues,
          count_editValues (hdisjoint name hname)] at hcount
        have := List.count_pos_iff.2 hname
        omega
      · rw [hlocate'] at hfailure
        cases hfailure
    · rintro ⟨hcounts, -⟩
      have hgone : ∀ name ∈ remove, name ∉ list'.values := by
        intro name hname
        rw [← List.count_eq_zero, hvalues, count_editValues (hdisjoint name hname)]
        have := hcounts name hname
        omega
      have hthere : ∀ name ∈ add, name ∈ list'.values :=
        fun name hname => hvalues ▸ mem_editValues_of_mem hname ..
      rw [apply_ofNames hlocate' hvalid, foldl_remove_of_not_mem hgone, withList_of_locate hlocate',
        (foldlM_addNode hlocate' fun name hname _ => hthere name hname).1,
        foldl_extend_of_mem hthere, withList_of_locate hlocate']
  · constructor
    · intro hagain
      obtain ⟨-, list', hlocate'⟩ := of_apply_eq_ok hagain
      rw [hfailure] at hlocate'
      cases hlocate'
    · rintro ⟨-, hbreaks⟩
      exact absurd (hbreaks name hname hbreak) hnew

theorem apply_again_of_single :
    apply { text := "x = [\"b\"]\n", anchor := "x", origin := "file" } (.ofNames ["b"] ["a"])
      = .ok { text := "x = [\"b\"]\n", anchor := "x", origin := "file" } := by
  have h : apply { text := "x = ['a']\n", anchor := "x", origin := "file" } (.ofNames ["b"] ["a"])
      = .ok { text := "x = [\"b\"]\n", anchor := "x", origin := "file" } := by decide +kernel
  obtain ⟨list, hlocate, hagain⟩ := apply_again_iff h
  have hvalues : list.values = ["a"] := by
    have hentries : entries { text := "x = ['a']\n", anchor := "x", origin := "file" }
        = .ok ["a"] := by decide +kernel
    rw [entries, hlocate] at hentries
    exact Except.ok.inj hentries
  rw [hagain, hvalues]
  decide

/-- Of two elements of one value each application removes one. -/
theorem apply_again_ne_of_repeated :
    apply { text := "x = ['a', 'a']\n", anchor := "x", origin := "file" } (.ofNames [] ["a"])
        = .ok { text := "x = ['a']\n", anchor := "x", origin := "file" } ∧
      apply { text := "x = ['a']\n", anchor := "x", origin := "file" } (.ofNames [] ["a"])
        = .ok { text := "x = []\n", anchor := "x", origin := "file" } := by
  decide +kernel

end Artifact

end StubManager
