import StubManager.ChangeSet
import StubManager.ListText.Edit
import StubManager.ListText.Scan

/-!
# Texts with an anchored list

An `Artifact` is a text with the name its list is assigned to. `Artifact.apply` applies a change
set to the list. Each single edit reads the list anew, so a change is a sequence of edits of one
element, removals first.
-/

namespace StubManager

/-- A text whose list is assigned to `anchor`. -/
structure Artifact where
  text : String
  anchor : String
  /-- What the text is called in messages. -/
  origin : String
deriving DecidableEq, Repr

namespace Artifact

/-- Reads the anchored list. -/
def locate (artifact : Artifact) : Except Failure ListText :=
  let text := artifact.text.toList
  match anchoredList? artifact.anchor.toList text with
  | none => .error (.anchorMissing artifact.anchor artifact.origin)
  | some list =>
    match ListText.scan (text.take (text.length - list.length)) list with
    | .error fault => .error (.listMalformed artifact.origin fault.reason)
    | .ok list => .ok list

/-- The values in the list, in order. -/
def entries (artifact : Artifact) : Except Failure (List String) :=
  artifact.locate.map ListText.values

/-- The artifact after an edit of its list. -/
def withList (artifact : Artifact) (list : ListText) : Artifact :=
  { artifact with text := String.ofList list.render }

/-- Removes the first element of the given value, if there is one. -/
def removeValue (artifact : Artifact) (value : String) : Except Failure Artifact := do
  let list ← artifact.locate
  if list.values.contains value then return artifact.withList (list.remove value)
  else return artifact

/-- Appends an element for the node unless there is one of its value. -/
def addNode (artifact : Artifact) (node : ChangeNode) : Except Failure Artifact := do
  let list ← artifact.locate
  if list.values.contains node.value then return artifact
  else return artifact.withList (list.append (node.render list.style).toList)

/-- Applies a change set to the list: all removals, then all additions. -/
def apply (artifact : Artifact) (change : ChangeSet) : Except Failure Artifact := do
  change.validate
  let _ ← artifact.locate
  let removed ← change.remove.foldlM (fun a node => a.removeValue node.value) artifact
  change.add.foldlM addNode removed

/-- A list that was located renders to the text it was found in. -/
theorem render_locate {artifact : Artifact} {list : ListText} (h : artifact.locate = .ok list) :
    list.render = artifact.text.toList := by
  unfold locate at h
  simp only at h
  split at h
  · cases h
  · next inside hfound =>
    split at h
    · cases h
    · next list' hscan =>
      cases h
      obtain ⟨front, hfront⟩ := suffix_of_anchoredList? hfound
      rw [(ListText.render_scan hscan).2, ← hfront]
      have hlength : (front ++ '[' :: inside).length - inside.length = (front ++ ['[']).length := by
        simp; omega
      rw [hlength, show front ++ '[' :: inside = (front ++ ['[']) ++ inside by simp, List.take_left]

end Artifact

end StubManager
