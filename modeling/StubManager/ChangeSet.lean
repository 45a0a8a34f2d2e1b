import StubManager.Failure
import StubManager.Quoted

/-!
# Change sets

An ordered batch of names to add to and to remove from a list. A change set does not know where
its list lives.
-/

namespace StubManager

/-- One name to add or to remove. -/
structure ChangeNode where
  /-- The name the list element is matched by. -/
  value : String
  /-- The text spliced into a list that uses double quotes. -/
  fragment : String
deriving DecidableEq, Repr, Inhabited

namespace ChangeNode

/-- The node of a plain name, whose fragment is its string literal. -/
def ofName (name : String) : ChangeNode :=
  { value := name, fragment := String.ofList (QuoteStyle.double.encode name.toList) }

/-- The text of the node for a list that uses `style`. -/
def render (node : ChangeNode) : QuoteStyle → String
  | .double => node.fragment
  | .single => String.ofList (QuoteStyle.single.encode node.value.toList)

theorem render_ofName (name : String) (style : QuoteStyle) :
    ((ofName name).render style).toList = style.encode name.toList := by
  cases style <;> simp [ofName, render]

end ChangeNode

/-- Names to add and names to remove, each in order. -/
structure ChangeSet where
  add : List ChangeNode := []
  remove : List ChangeNode := []
deriving DecidableEq, Repr, Inhabited

namespace ChangeSet

/-- The change set of plain names. -/
def ofNames (add remove : List String) : ChangeSet :=
  { add := add.map ChangeNode.ofName, remove := remove.map ChangeNode.ofName }

/-- The change set that only adds. -/
def adding (names : List String) : ChangeSet := ofNames names []

/-- The change set that only removes. -/
def removing (names : List String) : ChangeSet := ofNames [] names

/-- A request for modules: without one the list is left alone, an empty one is an empty change. -/
def ofRequest? (modules : Option (List String)) : Option ChangeSet := modules.map adding

/-- Whether the change adds nothing and removes nothing. -/
def isEmpty (change : ChangeSet) : Bool := change.add.isEmpty && change.remove.isEmpty

/-- The first name to add that is also to be removed. -/
def contradiction? (change : ChangeSet) : Option String :=
  (change.add.find? fun node => change.remove.any (·.value == node.value)).map (·.value)

/-- Refuses a change set that adds and removes the same name. -/
def validate (change : ChangeSet) : Except Failure Unit :=
  match change.contradiction? with
  | some name => .error (.contradictoryChange name)
  | none => .ok ()

end ChangeSet

end StubManager
