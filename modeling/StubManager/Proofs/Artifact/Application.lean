import StubManager.Proofs.Artifact.Editing

/-!
# Applying a change set

What a change set of plain names does to the list of an artifact. Main statements:

* `apply_refines`: the values of the list change as a list of names would, kept items stay as they
  were written and new ones are string literals;
* `apply_frame`: nothing outside the brackets changes, and the anchor still names the same list.
-/

namespace StubManager

namespace ListText

/-- The items that are left when, of each of the names in turn, the first item goes that stands
for it. -/
def keptItems (names : List String) (items : List (List Char)) : List (List Char) :=
  names.foldl (fun items name => items.eraseP (valueOf · == name)) items

/-- The change of a list of names: of each name to remove the first occurrence goes, and each name
to add comes behind the others unless it is there. -/
def editValues (add remove values : List String) : List String :=
  add.foldl withName (remove.foldl List.erase values)

/-- Whether an item is a string literal and `name` is what it stands for when unescaped. -/
def IsLiteralOf (item : List Char) (name : String) : Prop :=
  ∃ style inside, Element.literal? { raw := item, comma := false } = some (style, inside) ∧
    Literal.unescape inside = name.toList

theorem isLiteralOf_encode (style : QuoteStyle) {name : String} (h : '\n' ∉ name.toList) :
    IsLiteralOf (style.encode name.toList) name :=
  ⟨style, style.escape name.toList, literal?_encode style h, Literal.unescape_escape ..⟩

end ListText

namespace Artifact

open ListText

/-- A change set runs its removals and then its additions on the list. -/
theorem apply_ofNames {artifact : Artifact} {list : ListText} (h : artifact.locate = .ok list)
    {add remove : List String} (hvalid : (ChangeSet.ofNames add remove).validate = .ok ()) :
    artifact.apply (.ofNames add remove)
      = (add.map ChangeNode.ofName).foldlM addNode
          (artifact.withList (remove.foldl ListText.remove list)) := by
  have hremove : (remove.map ChangeNode.ofName).foldlM
      (fun a node => a.removeValue node.value) artifact
        = .ok (artifact.withList (remove.foldl ListText.remove list)) := by
    rw [List.foldlM_map]
    exact (foldlM_removeValue h remove).1
  simp only [apply, hvalid, h, bind, Except.bind]
  rw [ChangeSet.ofNames, hremove]

/-- Only an accepted change set is applied, and only to a list that is located. -/
theorem of_apply_eq_ok {artifact result : Artifact} {change : ChangeSet}
    (h : artifact.apply change = .ok result) :
    change.validate = .ok () ∧ ∃ list, artifact.locate = .ok list := by
  cases hvalid : change.validate with
  | error failure => simp [apply, hvalid, bind, Except.bind] at h
  | ok _ =>
    cases hlocate : artifact.locate with
    | error failure => simp [apply, hvalid, hlocate, bind, Except.bind] at h
    | ok list => exact ⟨rfl, list, rfl⟩

/-- Applying names without line feeds returns, and is the change of a list of names. -/
theorem apply_refines {artifact : Artifact} {list : ListText} {add remove : List String}
    (h : artifact.locate = .ok list) (hvalid : (ChangeSet.ofNames add remove).validate = .ok ())
    (hadd : ∀ name ∈ add, '\n' ∉ name.toList) :
    ∃ result list', artifact.apply (.ofNames add remove) = .ok result ∧
      result.locate = .ok list' ∧
      list'.values = editValues add remove list.values ∧
      ∃ added, list'.items = keptItems remove list.items ++ added ∧
        ∀ item ∈ added, ∃ name ∈ add, IsLiteralOf item name := by
  obtain ⟨-, hlocate⟩ := foldlM_removeValue h remove
  have hbreak : ∀ name ∈ add, '\n' ∈ name.toList →
      name ∈ (remove.foldl ListText.remove list).values :=
    fun name hname hbreak => absurd hbreak (hadd name hname)
  obtain ⟨hrun, hlocate'⟩ := foldlM_addNode hlocate hbreak
  have htiled := (locate_eq_ok_iff.1 h).1
  obtain ⟨-, hitems⟩ := htiled.foldl_remove remove
  obtain ⟨-, hvalues, added, hadded, hliteral⟩ := (htiled.foldl_remove remove).1.foldl_extend hbreak
  refine ⟨_, _, (apply_ofNames h hvalid).trans hrun, hlocate', ?_, added, ?_, ?_⟩
  · rw [hvalues, htiled.values_foldl_remove, editValues]
  · rw [hadded, hitems, keptItems]
  · intro item hitem
    obtain ⟨name, hname, hplain, style, rfl⟩ := hliteral item hitem
    exact ⟨name, hname, isLiteralOf_encode style hplain⟩

/-- A name for another in a list on several lines, with a comment of its own. -/
theorem apply_refines_of_replacement :
    ∃ result list',
      apply { text := "x = [\n  'a', # first\n  'b',\n]\n", anchor := "x", origin := "file" }
        (.ofNames ["c"] ["a"]) = .ok result ∧
      result.locate = .ok list' ∧ list'.values = ["b", "c"] := by
  have hlocate :
      locate { text := "x = [\n  'a', # first\n  'b',\n]\n", anchor := "x", origin := "file" }
        = .ok {
          head := "x = [".toList
          elements :=
            [{ lead := "\n  ".toList, raw := "'a'".toList, comma := true },
             { lead := " # first\n  ".toList, raw := "'b'".toList, comma := true }]
          trail := "\n".toList
          rest := "]\n".toList } := by decide +kernel
  obtain ⟨result, list', happly, hlocate', hvalues, -⟩ :=
    apply_refines hlocate (show (ChangeSet.ofNames ["c"] ["a"]).validate = .ok () by decide +kernel)
      (by decide)
  exact ⟨result, list', happly, hlocate', hvalues.trans (by decide +kernel)⟩

/-! ## What stays -/

theorem apply_frame {artifact result : Artifact} {list : ListText} {add remove : List String}
    (h : artifact.locate = .ok list)
    (happly : artifact.apply (.ofNames add remove) = .ok result) :
    artifact.text.toList = list.head ++ list.inner ++ list.rest ∧
      (∃ front, list.head = front ++ ['[']) ∧ (∃ after, list.rest = ']' :: after) ∧
      result.anchor = artifact.anchor ∧
      ∃ inside, result.text.toList = list.head ++ inside ++ list.rest ∧
        anchoredList? artifact.anchor.toList result.text.toList = some (inside ++ list.rest) := by
  obtain ⟨htiled, hrender, -⟩ := locate_eq_ok_iff.1 h
  obtain ⟨hvalid, -⟩ := of_apply_eq_ok happly
  rw [apply_ofNames h hvalid] at happly
  obtain ⟨-, hlocate⟩ := foldlM_removeValue h remove
  obtain ⟨rfl, -⟩ := foldlM_addNode_cases hlocate happly
  obtain ⟨hhead, hrest⟩ := list.foldl_remove_frame remove
  obtain ⟨hhead', hrest'⟩ := foldl_frame extend_frame (remove.foldl ListText.remove list) add
  generalize add.foldl extend (remove.foldl ListText.remove list) = list' at *
  rw [hhead] at hhead'
  rw [hrest] at hrest'
  refine ⟨hrender.symm, exists_head_of_locate h, htiled.rest, rfl, list'.inner, ?_, ?_⟩
  · rw [withList, String.toList_ofList, ListText.render, hhead', hrest']
  · rw [withList, String.toList_ofList, ← hrest']
    exact anchoredList?_withList h hhead'

/-- A text with another place for the anchor behind the list, and a name that looks like one. -/
theorem apply_frame_of_second_place :
    ∃ inside, anchoredList? "x".toList ("x = [".toList ++ inside ++ "] + x = [1]\n".toList)
      = some (inside ++ "] + x = [1]\n".toList) := by
  have hlocate : locate { text := "x = [] + x = [1]\n", anchor := "x", origin := "file" }
      = .ok { head := "x = [".toList, elements := [], trail := [],
              rest := "] + x = [1]\n".toList } := by decide +kernel
  have happly :
      apply { text := "x = [] + x = [1]\n", anchor := "x", origin := "file" }
        (.ofNames ["x = ["] [])
        = .ok { text := "x = [\"x = [\"] + x = [1]\n", anchor := "x", origin := "file" } := by
    decide +kernel
  obtain ⟨-, -, -, -, inside, htext, hfound⟩ := apply_frame hlocate happly
  rw [htext] at hfound
  exact ⟨inside, hfound⟩

end Artifact

end StubManager
