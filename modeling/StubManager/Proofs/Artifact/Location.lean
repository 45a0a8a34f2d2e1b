import StubManager.Artifact
import StubManager.Proofs.ListText.Anchoring
import StubManager.Proofs.ListText.Editing

/-!
# Where the list of an artifact is

An artifact is located at a list exactly when the list is tiled, renders to the text and stands
behind the first place of the anchor (`locate_eq_ok_iff`). An edit behind the opening bracket
leaves the anchor where it is (`anchoredList?_withList`), so the edited list is located again
(`locate_withList`).
-/

namespace StubManager

namespace Artifact

theorem locate_eq_ok_iff {artifact : Artifact} {list : ListText} :
    artifact.locate = .ok list ↔ list.Tiled ∧ list.render = artifact.text.toList ∧
      anchoredList? artifact.anchor.toList list.render = some (list.inner ++ list.rest) := by
  constructor
  · intro h
    have hrender := render_locate h
    unfold locate at h
    simp only at h
    split at h
    · cases h
    · next inside hfound =>
      split at h
      · cases h
      · next list' hscan =>
        cases h
        obtain ⟨-, htext, htiled⟩ := ListText.scan_eq_ok_iff.1 hscan
        rw [hrender, hfound, htext]
        exact ⟨htiled, rfl, rfl⟩
  · rintro ⟨htiled, hrender, hfound⟩
    have hscan : ListText.scan list.head (list.inner ++ list.rest) = .ok list :=
      ListText.scan_eq_ok_iff.2 ⟨rfl, rfl, htiled⟩
    have htake : list.render.take (list.render.length - (list.inner ++ list.rest).length)
        = list.head := by
      simp [ListText.render]
    unfold locate
    simp only [← hrender, hfound, htake, hscan]

/-- The head of a located list ends with the opening bracket. -/
theorem exists_head_of_locate {artifact : Artifact} {list : ListText}
    (h : artifact.locate = .ok list) : ∃ front, list.head = front ++ ['['] := by
  obtain ⟨-, -, hfound⟩ := locate_eq_ok_iff.1 h
  obtain ⟨front, hfront⟩ := suffix_of_anchoredList? hfound
  refine ⟨front, ?_⟩
  rw [ListText.render, List.append_assoc, List.append_cons] at hfront
  exact (List.append_cancel_right hfront).symm

/-- The anchor of an artifact names the list that takes the place of the one it was located at. -/
theorem anchoredList?_withList {artifact : Artifact} {list list' : ListText}
    (h : artifact.locate = .ok list) (hhead : list'.head = list.head) :
    anchoredList? artifact.anchor.toList list'.render = some (list'.inner ++ list'.rest) := by
  obtain ⟨front, hfront⟩ := exists_head_of_locate h
  obtain ⟨-, -, hfound⟩ := locate_eq_ok_iff.1 h
  have hrender : ∀ list' : ListText, list'.head = list.head →
      list'.render = front ++ '[' :: (list'.inner ++ list'.rest) := by
    intro list' hhead
    rw [ListText.render, hhead, hfront, List.append_assoc, List.append_assoc]
    rfl
  rw [hrender list rfl] at hfound
  rw [hrender list' hhead]
  exact anchoredList?_congr hfound _

theorem locate_withList {artifact : Artifact} {list list' : ListText}
    (h : artifact.locate = .ok list) (htiled : list'.Tiled) (hhead : list'.head = list.head) :
    (artifact.withList list').locate = .ok list' := by
  have hfound := anchoredList?_withList h hhead
  exact locate_eq_ok_iff.2 ⟨htiled, by simp [withList], hfound⟩

/-- An artifact whose list would not be read again is not located. -/
theorem locate_withList_error {artifact : Artifact} {list list' : ListText}
    (h : artifact.locate = .ok list) (hhead : list'.head = list.head) {fault : ListFault}
    (hscan : ListText.scan list'.head (list'.inner ++ list'.rest) = .error fault) :
    ∃ failure, (artifact.withList list').locate = .error failure := by
  have hfound := anchoredList?_withList h hhead
  have htake : list'.render.take (list'.render.length - (list'.inner ++ list'.rest).length)
      = list'.head := by
    simp [ListText.render]
  refine ⟨.listMalformed artifact.origin fault.reason, ?_⟩
  unfold locate
  simp only [withList, String.toList_ofList, hfound, htake, hscan]

theorem withList_of_locate {artifact : Artifact} {list : ListText}
    (h : artifact.locate = .ok list) : artifact.withList list = artifact := by
  obtain ⟨-, hrender, -⟩ := locate_eq_ok_iff.1 h
  rw [withList, hrender, String.ofList_toList]

end Artifact

end StubManager
