import StubManager.Text.Split

/-!
# Paths

A path is kept as it is written; its components are read off the text. Repeated and trailing
separators and full stops inside do not count, so that several texts can name the same components.
-/

namespace StubManager

/-- The text of a path. -/
structure Path where
  text : String
deriving DecidableEq, Repr, Inhabited

namespace Path

/-- What a path consists of. -/
inductive Component where
  | root
  /-- A full stop that starts a relative path. -/
  | here
  | up
  | name (name : String)
deriving DecidableEq, Repr

/-- The parts of the text between separators. -/
def parts (p : Path) : List (List Char) := Text.splitAt '/' p.text.toList

/-- Whether the path starts at the root. -/
def isAbsolute (p : Path) : Bool := p.text.toList.head? == some '/'

/-- Whether a part behind the first counts as a component. -/
def isComponent (part : List Char) : Bool := part ≠ [] && part ≠ ['.']

/-- The component that a part behind the first stands for. -/
def componentOf (part : List Char) : Component :=
  if part = ['.', '.'] then .up else .name (String.ofList part)

/-- The components of a path. -/
def components (p : Path) : List Component :=
  match p.parts with
  | [] => []
  | first :: more =>
    let front :=
      if first = [] then (if p.isAbsolute then [.root] else [])
      else if first = ['.'] then [.here]
      else [componentOf first]
    front ++ (more.filter isComponent).map componentOf

/-- Paths of the same components. -/
def same (p q : Path) : Bool := p.components == q.components

/-- The parts up to the last component, and the part of that component; none for the root and
for the empty path. -/
def splitLast (p : Path) : Option (List (List Char) × List Char) :=
  match p.parts with
  | [] => none
  | first :: more =>
    match (more.reverse.dropWhile (!isComponent ·)) with
    | last :: front => some (first :: front.reverse, last)
    | [] => if first = [] then none else some ([], first)

/-- The path without its last component, if it has one that can be left out. -/
def parent? (p : Path) : Option Path :=
  match p.splitLast with
  | none => none
  | some ([], _) => some ⟨""⟩
  | some (first :: more, _) =>
    let front := (more.reverse.dropWhile (!isComponent ·)).reverse
    let text := ['/'].intercalate (first :: front)
    some ⟨if text = [] then "/" else String.ofList text⟩

/-- The last component, if it is a name. -/
def fileName? (p : Path) : Option String :=
  match p.splitLast with
  | some (_, last) =>
    if last = ['.', '.'] || last = ['.'] then none else some (String.ofList last)
  | none => none

/-- One path below another; an absolute path stands for itself. -/
def join (p : Path) (q : String) : Path :=
  if (Path.mk q).isAbsolute then ⟨q⟩
  else if p.text.isEmpty || p.text.toList.getLast? == some '/' then ⟨p.text ++ q⟩
  else ⟨p.text ++ "/" ++ q⟩

/-- The path with its last name exchanged, or with a name appended if it ends in no name. -/
def withFileName (p : Path) (name : String) : Path :=
  match p.fileName?, p.parent? with
  | some _, some parent => parent.join name
  | _, _ => p.join name

/-- The parents of a path, nearest first, at most `fuel` of them. -/
def parents : Nat → Path → List Path
  | 0, _ => []
  | fuel + 1, p =>
    match p.parent? with
    | none => []
    | some q => q :: parents fuel q

/-- The path itself and its parents, nearest first. -/
def ancestors (p : Path) : List Path := p :: parents p.parts.length p

/-- The name a path consists of, if it is one name and nothing else. -/
def plainName? (p : Path) : Option String :=
  match p.components with
  | [.name name] => if name = p.text then some name else none
  | _ => none

end Path

end StubManager
