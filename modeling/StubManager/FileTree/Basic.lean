/-!
# File trees

A `Node` is a file, a link or a directory of named nodes. `Node.get?` looks a node up below
another by a list of names, and `Node.alter` changes the entry at the end of such a list. Main
statements: `get?_put` and `get?_alter_of_disjoint`, a change is seen at its own place and at no
place apart from it.
-/

namespace StubManager

/-- A file, a link or a directory. -/
inductive Node where
  | file (data : ByteArray) (executable : Bool)
  | link (target : String)
  | directory (entries : List (String × Node))

namespace Node

/-- The node that an entry list has under a name. -/
def child? (name : String) : List (String × Node) → Option Node
  | [] => none
  | (other, node) :: entries => if other = name then some node else child? name entries

/-- An entry list with one entry set or taken out; names stay in order. -/
def setChild (name : String) (node? : Option Node) : List (String × Node) → List (String × Node)
  | [] => node?.toList.map (name, ·)
  | (other, node) :: entries =>
    if other = name then node?.toList.map (name, ·) ++ entries
    else if name < other then node?.toList.map (name, ·) ++ (other, node) :: entries
    else (other, node) :: setChild name node? entries

/-- The entries of a directory; none for any other node. -/
def entries : Node → List (String × Node)
  | directory entries => entries
  | _ => []

/-- The node below another that a list of names leads to. -/
def get? (node : Node) : List String → Option Node
  | [] => some node
  | name :: names => (child? name node.entries).bind (·.get? names)

/-- Changes the entry at the end of a list of names; directories on the way must exist. -/
def alter (f : Option Node → Option Node) : List String → Node → Node
  | [], node => node
  | [name], directory entries => directory (setChild name (f (child? name entries)) entries)
  | name :: names, directory entries =>
    match child? name entries with
    | none => directory entries
    | some child => directory (setChild name (some (alter f names child)) entries)
  | _ :: _, node => node

/-- Puts a node at the end of a list of names. -/
def put (node : Node) (names : List String) (new : Node) : Node :=
  node.alter (fun _ => some new) names

/-- Takes out the node at the end of a list of names. -/
def erase (node : Node) (names : List String) : Node := node.alter (fun _ => none) names

/-- Whether the node is a directory. A link is none, whatever it leads to. -/
def isDirectory : Node → Bool
  | directory _ => true
  | _ => false

/-- Whether the node is a regular file. -/
def isFile : Node → Bool
  | file .. => true
  | _ => false

/-- Every node below a directory with the names that lead to it, directories before what they
hold. -/
def descendants : Node → List (List String × Node)
  | directory entries => entryDescendants entries
  | _ => []
where
  /-- The nodes of an entry list with the names that lead to them. -/
  entryDescendants : List (String × Node) → List (List String × Node)
    | [] => []
    | (name, node) :: more =>
      ([name], node) :: (node.descendants.map fun (names, n) => (name :: names, n))
        ++ entryDescendants more

theorem child?_setChild_of_ne {name other : String} (node? : Option Node)
    (entries : List (String × Node)) (h : other ≠ name) :
    child? other (setChild name node? entries) = child? other entries := by
  have hnew : ∀ rest, child? other (node?.toList.map (name, ·) ++ rest) = child? other rest := by
    cases node? <;> simp [child?, h.symm]
  induction entries with
  | nil => simpa [setChild, child?] using hnew []
  | cons head entries ih =>
    obtain ⟨first, node⟩ := head
    simp only [setChild]
    split
    · next heq => subst heq; rw [hnew]; simp [child?, h.symm]
    · split
      · rw [hnew]
      · simp only [child?, ih]

theorem child?_setChild_some {name : String} (new : Node) (entries : List (String × Node)) :
    child? name (setChild name (some new) entries) = some new := by
  induction entries with
  | nil => simp [setChild, child?]
  | cons head entries ih =>
    obtain ⟨first, node⟩ := head
    simp only [setChild]
    split
    · simp [child?]
    · split
      · simp [child?]
      · next hne _ => simp [child?, hne, ih]

/-- A change is not seen at places that lie neither above nor below it. -/
theorem get?_alter_of_disjoint (f : Option Node → Option Node) {names others : List String}
    (node : Node) (h : ¬ names <+: others) (h' : ¬ others <+: names) :
    (node.alter f names).get? others = node.get? others := by
  induction names generalizing node others with
  | nil => exact absurd (List.nil_prefix) h
  | cons name names ih =>
    cases others with
    | nil => exact absurd (List.nil_prefix) h'
    | cons other others =>
      cases node with
      | file => cases names <;> rfl
      | link => cases names <;> rfl
      | directory entries =>
        by_cases hname : other = name
        · subst hname
          have hsub : ¬ names <+: others := fun p => h ((List.cons_prefix_cons).2 ⟨rfl, p⟩)
          have hsub' : ¬ others <+: names := fun p => h' ((List.cons_prefix_cons).2 ⟨rfl, p⟩)
          cases names with
          | nil => exact absurd (List.nil_prefix) hsub
          | cons second names =>
            simp only [alter]
            split
            · rfl
            · next child hchild =>
              simp [get?, Node.entries, child?_setChild_some, hchild, ih child hsub hsub']
        · cases names with
          | nil => simp [alter, get?, Node.entries, child?_setChild_of_ne _ _ hname]
          | cons second names =>
            simp only [alter]
            split
            · rfl
            · simp [get?, Node.entries, child?_setChild_of_ne _ _ hname]

/-- A node is found where it was put, if a directory is there to hold it. -/
theorem get?_put {names : List String} {name : String} {node : Node} {es : List (String × Node)}
    (new : Node) (h : node.get? names = some (directory es)) :
    (node.put (names ++ [name]) new).get? (names ++ [name]) = some new := by
  induction names generalizing node with
  | nil =>
    cases h
    simp [put, alter, get?, Node.entries, child?_setChild_some]
  | cons first names ih =>
    cases node with
    | file => simp [get?, Node.entries, child?] at h
    | link => simp [get?, Node.entries, child?] at h
    | directory entries =>
      simp only [get?, Node.entries, Option.bind_eq_some_iff] at h
      obtain ⟨child, hchild, h⟩ := h
      have hrec := ih h
      cases hnames : names ++ [name] with
      | nil => simp at hnames
      | cons second more =>
        rw [hnames, put] at hrec
        simp only [List.cons_append, hnames, put, alter, hchild, get?, Node.entries,
          child?_setChild_some, Option.bind_some]
        exact hrec

end Node

end StubManager
