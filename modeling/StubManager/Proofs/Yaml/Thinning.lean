import StubManager.Project

/-!
# Thinned documents

A document without the scalars of its lists (`Document.thin`) still says all that settings are read
from: `ProjectConfig.ofDocument?_thin`. A scalar that an alias refers to stays.
-/

namespace StubManager.Yaml

namespace Node

/-- A scalar that no alias refers to. -/
def isLoose : Node → Bool
  | scalar none .. => true
  | _ => false

/-- The node without the scalars of its sequences that no alias refers to. -/
def thin : Node → Node
  | sequence anchor items => sequence anchor (thinItems items)
  | mapping anchor entries => mapping anchor (thinEntries entries)
  | node => node
where
  /-- The items of a sequence that stay. -/
  thinItems : List Node → List Node
    | [] => []
    | node :: more => if node.isLoose then thinItems more else node.thin :: thinItems more
  /-- The entries of a mapping. -/
  thinEntries : List (Node × Node) → List (Node × Node)
    | [] => []
    | (key, value) :: more => (key.thin, value.thin) :: thinEntries more

/-- Nodes that differ in loose scalars of sequences at most. -/
def Alike (a b : Node) : Prop := a.thin = b.thin

theorem isLoose_thin (node : Node) : node.thin.isLoose = node.isLoose := by
  cases node <;> rfl

theorem Alike.isLoose {a b : Node} (h : a.Alike b) : a.isLoose = b.isLoose := by
  rw [← isLoose_thin, h, isLoose_thin]

theorem thinItems_of_loose {items : List Node} (h : ∀ node ∈ items, node.isLoose) :
    thin.thinItems items = [] := by
  induction items with
  | nil => rfl
  | cons node items ih =>
    rw [List.forall_mem_cons] at h
    rw [thin.thinItems, if_pos h.1, ih h.2]

/-- Items that differ in loose scalars at most. -/
def AlikeItems (items items' : List Node) : Prop := thin.thinItems items = thin.thinItems items'

/-- Entries that differ in loose scalars of sequences at most. -/
def AlikeEntries (entries entries' : List (Node × Node)) : Prop :=
  thin.thinEntries entries = thin.thinEntries entries'

theorem Alike.cons {a b : Node} {as bs : List Node} (h : a.Alike b) (hmore : AlikeItems as bs) :
    AlikeItems (a :: as) (b :: bs) := by
  rw [AlikeItems, thin.thinItems, thin.thinItems, h.isLoose, h, hmore]

theorem AlikeEntries.cons {key key' value value' : Node} {more more' : List (Node × Node)}
    (hkey : key.Alike key') (hvalue : value.Alike value') (hmore : AlikeEntries more more') :
    AlikeEntries ((key, value) :: more) ((key', value') :: more') := by
  rw [AlikeEntries, thin.thinEntries, thin.thinEntries, hkey, hvalue, hmore]

theorem AlikeItems.sequence {items items' : List Node} (h : AlikeItems items items')
    (anchor : Option Nat) : (sequence anchor items).Alike (sequence anchor items') :=
  congrArg (Node.sequence anchor) h

theorem AlikeEntries.mapping {entries entries' : List (Node × Node)}
    (h : AlikeEntries entries entries') (anchor : Option Nat) :
    (mapping anchor entries).Alike (mapping anchor entries') :=
  congrArg (Node.mapping anchor) h

/-! ### Aliases -/

mutual

theorem anchored_thin (node : Node) :
    node.thin.anchored = node.anchored.map fun (number, node) => (number, node.thin) := by
  cases node with
  | scalar anchor => cases anchor <;> rfl
  | reference => rfl
  | sequence anchor items =>
    have hitems := anchoredItems_thin items
    cases anchor <;> simp [thin, anchored, anchor?, hitems]
  | mapping anchor entries =>
    have hentries := anchoredEntries_thin entries
    cases anchor <;> simp [thin, anchored, anchor?, hentries]

theorem anchoredItems_thin (items : List Node) :
    anchored.anchoredItems (thin.thinItems items)
      = (anchored.anchoredItems items).map fun (number, node) => (number, node.thin) := by
  match items with
  | [] => rfl
  | node :: items =>
    have hnode := anchored_thin node
    have hitems := anchoredItems_thin items
    rw [thin.thinItems]
    split
    · next hloose =>
      have hnone : node.anchored = [] := by
        cases node with
        | scalar anchor => cases anchor <;> simp_all [isLoose, anchored, anchor?]
        | _ => cases hloose
      simp [anchored.anchoredItems, hitems, hnone]
    · simp [anchored.anchoredItems, hitems, hnode]

theorem anchoredEntries_thin (entries : List (Node × Node)) :
    anchored.anchoredEntries (thin.thinEntries entries)
      = (anchored.anchoredEntries entries).map fun (number, node) => (number, node.thin) := by
  match entries with
  | [] => rfl
  | (key, value) :: entries =>
    have hkey := anchored_thin key
    have hvalue := anchored_thin value
    have hentries := anchoredEntries_thin entries
    simp [thin.thinEntries, anchored.anchoredEntries, hkey, hvalue, hentries]

end

theorem thinEntries_eq_map (entries : List (Node × Node)) :
    thin.thinEntries entries = entries.map fun (key, value) => (key.thin, value.thin) := by
  induction entries with
  | nil => rfl
  | cons entry entries ih => rw [thin.thinEntries, List.map_cons, ih]

end Node

namespace Document

/-- The document without the scalars of its sequences that no alias refers to. -/
def thin (document : Document) : Document := { root := document.root.map Node.thin }

/-- Members with thinned values. -/
def thinMembers (members : List (String × Node)) : List (String × Node) :=
  members.map fun (key, value) => (key, value.thin)

variable (document : Document) (node : Node)

theorem lookup_thin (number : Nat) (nodes : List (Nat × Node)) :
    (nodes.map fun (number, node) => (number, node.thin)).lookup number
      = (nodes.lookup number).map Node.thin := by
  induction nodes with
  | nil => rfl
  | cons entry nodes ih =>
    obtain ⟨own, node⟩ := entry
    rw [List.map_cons, List.lookup_cons, List.lookup_cons, ih]
    cases number == own <;> rfl

theorem resolve_thin : document.thin.resolve node.thin = (document.resolve node).thin := by
  cases node with
  | reference number =>
    obtain ⟨_ | root⟩ := document
    · rfl
    · change ((root.thin.anchored.reverse.lookup number).getD .empty)
        = ((root.anchored.reverse.lookup number).getD .empty).thin
      rw [Node.anchored_thin, ← List.map_reverse, lookup_thin]
      cases root.anchored.reverse.lookup number <;> rfl
  | _ => rfl

theorem text?_thin : document.thin.text? node.thin = document.text? node := by
  rw [text?, text?, resolve_thin]
  cases document.resolve node <;> rfl

theorem isNothing?_thin : document.thin.isNothing? node.thin = document.isNothing? node := by
  rw [isNothing?, isNothing?, resolve_thin]
  cases document.resolve node <;> rfl

theorem optional?_thin : document.thin.optional? node.thin = document.optional? node := by
  rw [optional?, optional?, isNothing?_thin, text?_thin]

theorem mapM_text?_thin (entries : List (Node × Node)) :
    (entries.map fun entry => (entry.1.thin, entry.2.thin)).mapM
        (fun entry => (document.thin.text? entry.1).map (·, entry.2))
      = (entries.mapM fun entry => (document.text? entry.1).map (·, entry.2)).map thinMembers := by
  induction entries with
  | nil => rfl
  | cons entry entries ih =>
    rw [List.map_cons, List.mapM_cons, List.mapM_cons, ih, text?_thin]
    cases document.text? entry.1 with
    | none => rfl
    | some key =>
      cases entries.mapM fun entry => (document.text? entry.1).map (·, entry.2) <;> rfl

theorem entries?_thin :
    document.thin.entries? node.thin = (document.entries? node).map thinMembers := by
  rw [entries?, entries?, resolve_thin]
  cases document.resolve node with
  | mapping anchor entries =>
    change (Node.thin.thinEntries entries).mapM _ = _
    rw [Node.thinEntries_eq_map]
    exact mapM_text?_thin document entries
  | scalar anchor tag text plain =>
    cases text with
    | nil => cases plain <;> rfl
    | cons => rfl
  | _ => rfl

theorem member?_thin (key : String) (members : List (String × Node)) :
    member? key (thinMembers members) = (member? key members).map (·.map Node.thin) := by
  have hfilter : (thinMembers members).filter (·.1 = key)
      = thinMembers (members.filter (·.1 = key)) := List.filter_map ..
  rw [member?, member?, hfilter]
  generalize members.filter (·.1 = key) = found
  match found with
  | [] => rfl
  | [_] => rfl
  | _ :: _ :: _ => rfl

theorem optionalMember?_thin (key : String) (members : List (String × Node)) :
    document.thin.optionalMember? key (thinMembers members)
      = document.optionalMember? key members := by
  rw [optionalMember?, optionalMember?, member?_thin]
  obtain _ | _ | node := member? key members
  · rfl
  · rfl
  · exact optional?_thin document node

end Document

end Yaml

namespace ProjectConfig

open Yaml

/-- What the document of a project file says. -/
def ofDocument? (document : Document) : Option ProjectConfig := do
  let root := document.root.getD .empty
  if ← document.isNothing? root then return {}
  let members ← document.entries? root
  return {
    name := ← document.optionalMember? "name" members
    manifest := ← document.optionalMember? "manifest" members
    anchor := ← document.optionalMember? "anchor" members }

theorem parse?_eq (text : String) : parse? text = (Document.parse? text).bind ofDocument? := rfl

/-- The scalars of lists do not matter for the settings. -/
theorem ofDocument?_thin (document : Document) :
    ofDocument? document.thin = ofDocument? document := by
  have hroot : document.thin.root.getD .empty = (document.root.getD .empty).thin := by
    obtain ⟨_ | root⟩ := document <;> rfl
  rw [ofDocument?, ofDocument?, hroot, Document.isNothing?_thin, Document.entries?_thin]
  cases document.isNothing? (document.root.getD .empty) with
  | none => rfl
  | some nothing =>
    cases nothing with
    | true => rfl
    | false =>
      cases document.entries? (document.root.getD .empty) with
      | none => rfl
      | some members =>
        simp only [Option.bind_eq_bind, Option.bind_some, Option.map_some, Bool.false_eq_true,
          if_false, Document.optionalMember?_thin]

end ProjectConfig

end StubManager
