import StubManager.Proofs.FileTree.Walking

/-!
# Walks over links

Walks in trees that may have links. `Walks` says step by step how a walk gets to its end, and
`walk_eq_ok_iff` that this is what a walk does. Main statements: a walk goes on from where it ended
(`locate_join`), it ends in the same place when the tree grows (`locate_of_grows`), and where
nothing was it ends in the directory that was made there (`locate_of_made`).
-/

namespace StubManager

namespace Node

/-- Both files, both directories, or links to one target. -/
def SameKind : Node → Node → Prop
  | file .., file .. => True
  | link target, link target' => target = target'
  | directory _, directory _ => True
  | _, _ => False

/-- Every node is still there as what it was: a file with any contents, a directory with its
entries and more. -/
def Grows (root root' : Node) : Prop :=
  ∀ place node, root.get? place = some node →
    ∃ node', root'.get? place = some node' ∧ node.SameKind node'

theorem SameKind.trans {node node' node'' : Node} (h : node.SameKind node')
    (h' : node'.SameKind node'') : node.SameKind node'' := by
  cases node <;> cases node' <;> cases node'' <;> simp_all [SameKind]

theorem SameKind.isDirectory {entries : List (String × Node)} {node : Node}
    (h : (directory entries).SameKind node) : ∃ entries', node = directory entries' := by
  cases node <;> simp_all [SameKind]

theorem SameKind.isLink {target : String} {node : Node} (h : (link target).SameKind node) :
    node = link target := by
  cases node <;> simp_all [SameKind]

theorem SameKind.ne_link {node node' : Node} (h : node.SameKind node')
    (hnode : ∀ target, node ≠ link target) (target : String) : node' ≠ link target := by
  rintro rfl
  cases node with
  | link other => exact hnode other rfl
  | file data executable => exact h
  | directory entries => exact h

theorem sameKind_alter (f : Option Node → Option Node) (place : List String) (node : Node) :
    node.SameKind (node.alter f place) := by
  cases node with
  | file data executable => rw [alter_file]; trivial
  | link target => rw [alter_link]; trivial
  | directory entries =>
    obtain ⟨entries', hentries'⟩ := exists_alter_directory f place entries
    rw [hentries']
    trivial

namespace Grows

variable {root root' root'' : Node}

theorem trans (h : root.Grows root') (h' : root'.Grows root'') : root.Grows root'' := by
  intro place node hnode
  obtain ⟨node', hnode', hkind⟩ := h place node hnode
  obtain ⟨node'', hnode'', hkind'⟩ := h' place node' hnode'
  exact ⟨node'', hnode'', hkind.trans hkind'⟩

theorem dirAt (h : root.Grows root') {place : List String} (hdir : root.DirAt place) :
    root'.DirAt place := by
  obtain ⟨entries, hentries⟩ := hdir
  obtain ⟨node', hnode', hkind⟩ := h place _ hentries
  obtain ⟨entries', rfl⟩ := hkind.isDirectory
  exact ⟨entries', hnode'⟩

end Grows

/-- A tree grows by a node where nothing was, and by a file in the place of a file. -/
theorem grows_put {root new : Node} {parent : List String} {name : String}
    (hparent : root.DirAt parent)
    (hold : ∀ node, root.get? (parent ++ [name]) = some node → node.SameKind new ∧ node.isFile) :
    root.Grows (root.put (parent ++ [name]) new) := by
  intro place node hnode
  by_cases hle : parent ++ [name] <+: place
  · obtain ⟨more, rfl⟩ := hle
    rw [get?_append, Option.bind_eq_some_iff] at hnode
    obtain ⟨old, hthere, hnode⟩ := hnode
    obtain ⟨hkind, hfile⟩ := hold old hthere
    obtain ⟨entries, hentries⟩ := hparent
    cases more with
    | nil =>
      cases hnode
      exact ⟨new, by rw [List.append_nil, get?_put new hentries], hkind⟩
    | cons first more => cases old <;> simp_all [isFile, get?, Node.entries, child?]
  · obtain ⟨back, hback⟩ := get?_alter_of_not_below (fun _ => some new) root hle
    exact ⟨node.alter (fun _ => some new) back, by rw [put, hback, hnode, Option.map_some],
      sameKind_alter ..⟩

end Node

open Node

namespace World

/-- A name that leads down from a directory. -/
structure LeadsDown (name : String) : Prop where
  counts : ¬ (name = "" ∨ name = ".")
  notUp : name ≠ ".."
  short : name.utf8ByteSize ≤ nameLimit

/-- How a walk over at most `links` links gets to its end. -/
inductive Walks (root : Node) (followLast : Bool) : Nat → List String → List String → Place → Prop
  | done {links : Nat} {here : List String} : Walks root followLast links here [] (.node here)
  | stay {links : Nat} {here todo : List String} {name : String} {place : Place} :
      root.DirAt here → name = "" ∨ name = "." → Walks root followLast links here todo place →
      Walks root followLast links here (name :: todo) place
  | up {links : Nat} {here todo : List String} {place : Place} :
      root.DirAt here → Walks root followLast links here.dropLast todo place →
      Walks root followLast links here (".." :: todo) place
  | down {links : Nat} {here todo : List String} {name : String} {node : Node} {place : Place} :
      LeadsDown name → root.get? (here ++ [name]) = some node → (∀ target, node ≠ link target) →
      Walks root followLast links (here ++ [name]) todo place →
      Walks root followLast links here (name :: todo) place
  | vacant {links : Nat} {here todo : List String} {name : String} :
      LeadsDown name → root.DirAt here → root.get? (here ++ [name]) = none →
      (∀ blank ∈ todo, blank = "") →
      Walks root followLast links here (name :: todo) (.vacant here name (!todo.isEmpty))
  | lastLink {links : Nat} {here : List String} {name target : String} :
      LeadsDown name → root.get? (here ++ [name]) = some (link target) → followLast = false →
      Walks root followLast links here [name] (.node (here ++ [name]))
  | link {links : Nat} {here todo : List String} {name target : String} {place : Place} :
      LeadsDown name → root.get? (here ++ [name]) = some (link target) →
      ¬ (todo = [] ∧ followLast = false) → target ≠ "" →
      Walks root followLast links (if (Path.mk target).isAbsolute then [] else here)
        (steps target ++ todo) place →
      Walks root followLast (links + 1) here (name :: todo) place

section

variable {root root' : Node} {followLast : Bool} {links : Nat} {here todo : List String}
  {place : Place}

/-- What a walk does at a link. -/
def onLinks (root : Node) (followLast : Bool) :
    Nat → List String → List String → Except FileFault Place
  | 0 => fun _ _ => .error .linkLoop
  | links + 1 => walk root followLast links

theorem walk_eq_walkWith (root : Node) (followLast : Bool) (links : Nat) :
    walk root followLast links = walkWith root followLast (onLinks root followLast links) := by
  cases links <;> rfl

private theorem walks_of_walkWith
    (hlinks : ∀ here todo place, onLinks root followLast links here todo = .ok place →
      ∃ fewer, links = fewer + 1 ∧ Walks root followLast fewer here todo place)
    (h : walkWith root followLast (onLinks root followLast links) here todo = .ok place) :
    Walks root followLast links here todo place := by
  induction todo generalizing here with
  | nil =>
    rw [walkWith] at h
    cases h
    exact .done
  | cons name todo ih =>
    rw [walkWith] at h
    split at h
    · cases h
    · cases h
    · cases h
    next entries hhere =>
    have hdir : root.DirAt here := ⟨entries, hhere⟩
    split at h
    · next hstay => exact .stay hdir hstay (ih h)
    next hcounts =>
    split at h
    · next hup =>
      subst hup
      exact .up hdir (ih h)
    next hup =>
    split at h
    · cases h
    next hlong =>
    have hname : LeadsDown name := ⟨hcounts, hup, Nat.not_lt.1 hlong⟩
    have hthere : root.get? (here ++ [name]) = child? name entries := get?_concat hhere
    split at h
    · next hchild =>
      split at h
      · next hblank =>
        cases h
        exact .vacant hname hdir (hthere.trans hchild) (by simpa using hblank)
      · cases h
    · next target hchild =>
      split at h
      · next hlast =>
        obtain ⟨rfl, rfl⟩ := hlast
        cases h
        exact .lastLink hname (hthere.trans hchild) rfl
      next hlast =>
      split at h
      · cases h
      next htarget =>
      obtain ⟨fewer, rfl, hwalks⟩ := hlinks _ _ _ h
      exact .link hname (hthere.trans hchild) hlast htarget hwalks
    · next node hlink hchild => exact .down hname (hthere.trans hchild) hlink (ih h)

theorem walks_of_walk (h : walk root followLast links here todo = .ok place) :
    Walks root followLast links here todo place := by
  induction links generalizing here todo place with
  | zero => exact walks_of_walkWith (fun _ _ _ hlink => by cases hlink) h
  | succ links ih =>
    exact walks_of_walkWith (fun _ _ _ hlink => ⟨links, rfl, ih hlink⟩) h

theorem walk_of_walks (h : Walks root followLast links here todo place) :
    walk root followLast links here todo = .ok place := by
  induction h with
  | done => rw [walk_eq_walkWith, walkWith]
  | stay hdir hstay _ ih =>
    obtain ⟨entries, hentries⟩ := hdir
    rw [walk_eq_walkWith] at ih ⊢
    simp only [walkWith, hentries, if_pos hstay, ih]
  | up hdir _ ih =>
    obtain ⟨entries, hentries⟩ := hdir
    rw [walk_eq_walkWith] at ih ⊢
    rw [walkWith, hentries]
    exact ih
  | down hname hnode hlink _ ih =>
    obtain ⟨entries, hentries⟩ := dirAt_of_get? hnode
    rw [get?_concat hentries] at hnode
    rw [walk_eq_walkWith] at ih ⊢
    simp only [walkWith, hentries, if_neg hname.counts, if_neg hname.notUp,
      if_neg (Nat.not_lt.2 hname.short), hnode, ih]
  | vacant hname hdir hnone hblank =>
    obtain ⟨entries, hentries⟩ := hdir
    rw [get?_concat hentries] at hnone
    rw [walk_eq_walkWith]
    simp only [walkWith, hentries, if_neg hname.counts, if_neg hname.notUp,
      if_neg (Nat.not_lt.2 hname.short), hnone]
    exact if_pos (by simpa using hblank)
  | lastLink hname hnode hlast =>
    obtain ⟨entries, hentries⟩ := dirAt_of_get? hnode
    rw [get?_concat hentries] at hnode
    rw [walk_eq_walkWith]
    simp only [walkWith, hentries, if_neg hname.counts, if_neg hname.notUp,
      if_neg (Nat.not_lt.2 hname.short), hnode]
    exact if_pos ⟨trivial, hlast⟩
  | link hname hnode hlast htarget _ ih =>
    obtain ⟨entries, hentries⟩ := dirAt_of_get? hnode
    rw [get?_concat hentries] at hnode
    rw [walk_eq_walkWith]
    simp only [walkWith, hentries, if_neg hname.counts, if_neg hname.notUp,
      if_neg (Nat.not_lt.2 hname.short), hnode, if_neg hlast, if_neg htarget]
    exact ih

/-- The steps of a walk are what it does. -/
theorem walk_eq_ok_iff : walk root followLast links here todo = .ok place ↔
    Walks root followLast links here todo place :=
  ⟨walks_of_walk, walk_of_walks⟩

namespace Walks

theorem of_blanks (hdir : root.DirAt here) (h : ∀ blank ∈ todo, blank = "") :
    Walks root followLast links here todo (.node here) := by
  induction todo with
  | nil => exact .done
  | cons blank todo ih =>
    rw [List.forall_mem_cons] at h
    exact .stay hdir (.inl h.1) (ih h.2)

/-- A walk goes on from where another ended, if that followed a last link. -/
theorem append {middle more : List String} (h : Walks root true links here todo (.node middle))
    (hne : more ≠ []) (hmore : ∀ links, Walks root followLast links middle more place) :
    Walks root followLast links here (todo ++ more) place := by
  generalize hend : Place.node middle = stop at h
  induction h with
  | done =>
    cases hend
    exact hmore _
  | stay hdir hstay _ ih => exact .stay hdir hstay (ih hend)
  | up hdir _ ih => exact .up hdir (ih hend)
  | down hname hnode hlink _ ih => exact .down hname hnode hlink (ih hend)
  | vacant => cases hend
  | lastLink _ _ hlast => cases hlast
  | link hname hnode _ htarget _ ih =>
    refine .link hname hnode (by simp [hne]) htarget ?_
    exact List.append_assoc .. ▸ ih hend

/-- A separator at the end leads nowhere else. -/
theorem of_concat_blank {middle : List String}
    (h : Walks root true links here (todo ++ [""]) (.node middle)) :
    Walks root true links here todo (.node middle) := by
  generalize hsteps : todo ++ [""] = steps at h
  generalize hend : Place.node middle = stop at h
  -- A step of the longer walk is one of the shorter, or the blank at its end.
  have hcut : ∀ {todo more : List String} {name : String}, todo ++ [""] = name :: more →
      todo = [] ∧ name = "" ∧ more = [] ∨ ∃ rest, todo = name :: rest ∧ rest ++ [""] = more := by
    intro todo more name heq
    cases todo with
    | nil => exact .inl ⟨rfl, by simp_all⟩
    | cons first todo => exact .inr ⟨todo, by simp_all⟩
  induction h generalizing todo with
  | done => simp at hsteps
  | stay hdir hstay hrest ih =>
    obtain ⟨rfl, -, rfl⟩ | ⟨rest, rfl, hmore⟩ := hcut hsteps
    · exact hrest
    · exact .stay hdir hstay (ih hmore hend)
  | up hdir _ ih =>
    obtain ⟨-, hup, -⟩ | ⟨rest, rfl, hmore⟩ := hcut hsteps
    · exact absurd hup (by decide)
    · exact .up hdir (ih hmore hend)
  | down hname hnode hlink _ ih =>
    obtain ⟨-, hblank, -⟩ | ⟨rest, rfl, hmore⟩ := hcut hsteps
    · exact absurd (.inl hblank) hname.counts
    · exact .down hname hnode hlink (ih hmore hend)
  | vacant => cases hend
  | lastLink _ _ hlast => cases hlast
  | link hname hnode _ htarget _ ih =>
    obtain ⟨-, hblank, -⟩ | ⟨rest, rfl, rfl⟩ := hcut hsteps
    · exact absurd (.inl hblank) hname.counts
    · exact .link hname hnode (by simp) htarget (ih (List.append_assoc ..) hend)

/-- No proper name on a walk that ends is too long. -/
theorem short (h : Walks root followLast links here todo place) :
    ∀ name ∈ todo, IsName name → name.utf8ByteSize ≤ nameLimit := by
  induction h with
  | done => simp
  | stay _ hstay _ ih =>
    refine List.forall_mem_cons.2 ⟨fun hname => ?_, ih⟩
    exact absurd hstay (not_or.2 ⟨hname.1, hname.2.1⟩)
  | up _ _ ih => exact List.forall_mem_cons.2 ⟨fun hname => absurd rfl hname.2.2.1, ih⟩
  | down hleads _ _ _ ih => exact List.forall_mem_cons.2 ⟨fun _ => hleads.short, ih⟩
  | vacant hleads _ _ hblank =>
    exact List.forall_mem_cons.2 ⟨fun _ => hleads.short,
      fun name hmem hname => absurd (hblank name hmem) hname.1⟩
  | lastLink hleads => exact List.forall_mem_singleton.2 fun _ => hleads.short
  | link hleads _ _ _ _ ih =>
    rw [List.forall_mem_append] at ih
    exact List.forall_mem_cons.2 ⟨fun _ => hleads.short, ih.2⟩

/-- A walk that ended ends in the same place when the tree has grown. -/
theorem of_grows {middle : List String}
    (h : Walks root followLast links here todo (.node middle)) (hgrows : root.Grows root') :
    Walks root' followLast links here todo (.node middle) := by
  generalize hend : Place.node middle = stop at h ⊢
  induction h with
  | done => exact .done
  | stay hdir hstay _ ih => exact .stay (hgrows.dirAt hdir) hstay (ih hend)
  | up hdir _ ih => exact .up (hgrows.dirAt hdir) (ih hend)
  | down hname hnode hlink _ ih =>
    obtain ⟨node', hnode', hkind⟩ := hgrows _ _ hnode
    exact .down hname hnode' (hkind.ne_link hlink) (ih hend)
  | vacant => cases hend
  | lastLink hname hnode hlast =>
    obtain ⟨node', hnode', hkind⟩ := hgrows _ _ hnode
    rw [hkind.isLink] at hnode'
    exact .lastLink hname hnode' hlast
  | link hname hnode hlast htarget _ ih =>
    obtain ⟨node', hnode', hkind⟩ := hgrows _ _ hnode
    rw [hkind.isLink] at hnode'
    exact .link hname hnode' hlast htarget (ih hend)

theorem of_vacant {parent : List String} {name : String} {asDirectory : Bool}
    (h : Walks root followLast links here todo (.vacant parent name asDirectory)) :
    LeadsDown name ∧ root.DirAt parent ∧ root.get? (parent ++ [name]) = none := by
  generalize hend : Place.vacant parent name asDirectory = stop at h
  induction h with
  | vacant hname hdir hnone _ =>
    cases hend
    exact ⟨hname, hdir, hnone⟩
  | done | lastLink => cases hend
  | stay _ _ _ ih | up _ _ ih | down _ _ _ _ ih | link _ _ _ _ _ ih => exact ih hend

/-- Where a walk found nothing it ends when a directory has been made there. -/
theorem of_made {parent : List String} {name : String} {asDirectory : Bool}
    (h : Walks root false links here todo (.vacant parent name asDirectory))
    (hgrows : root.Grows root') (hmade : root'.DirAt (parent ++ [name])) :
    Walks root' true links here todo (.node (parent ++ [name])) := by
  generalize hend : Place.vacant parent name asDirectory = stop at h
  induction h with
  | vacant hname _ _ hblank =>
    cases hend
    obtain ⟨entries, hentries⟩ := hmade
    exact .down hname hentries (by simp) (of_blanks ⟨entries, hentries⟩ hblank)
  | done | lastLink => cases hend
  | stay hdir hstay _ ih => exact .stay (hgrows.dirAt hdir) hstay (ih hend)
  | up hdir _ ih => exact .up (hgrows.dirAt hdir) (ih hend)
  | down hname hnode hlink _ ih =>
    obtain ⟨node', hnode', hkind⟩ := hgrows _ _ hnode
    exact .down hname hnode' (hkind.ne_link hlink) (ih hend)
  | link hname hnode _ htarget _ ih =>
    obtain ⟨node', hnode', hkind⟩ := hgrows _ _ hnode
    rw [hkind.isLink] at hnode'
    exact .link hname hnode' (by simp) htarget (ih hend)

end Walks

end

/-! ## Paths -/

section

variable {w w' : World} {followLast : Bool} {p : Path} {name : String} {place : List String}

theorem locate_eq_ok_iff {stop : Place} : w.locate followLast p = .ok stop ↔
    pathFault? p = none ∧
      Walks w.root followLast linkLimit (p.start w.cwd) (steps p.text) stop := by
  rw [locate, ← walk_eq_ok_iff]
  cases hfault : pathFault? p <;> simp [Path.start]

/-- Whether a path with one more name can lead anywhere. -/
structure Fits (p : Path) (name : String) : Prop where
  path : pathFault? (p.join name) = none
  short : name.utf8ByteSize ≤ nameLimit

/-- One more name is one more step, which takes the place of a separator at the end. -/
theorem steps_join (p : Path) (hname : IsName name) :
    steps (p.join name).text = steps p.text ++ [name] ∨
      ∃ front, steps p.text = front ++ [""] ∧ steps (p.join name).text = front ++ [name] := by
  have hsteps : ∀ q : Path, steps q.text = q.parts.map String.ofList := fun _ => rfl
  obtain heq | ⟨front, hfront, heq⟩ := Path.parts_join p hname
  · exact .inl (by simp [hsteps, heq])
  · exact .inr ⟨front.map String.ofList, by simp [hsteps, hfront], by simp [hsteps, heq]⟩

theorem fits_of_locate {stop : Place} (hname : IsName name)
    (h : w.locate followLast (p.join name) = .ok stop) : Fits p name := by
  obtain ⟨hpath, hwalks⟩ := locate_eq_ok_iff.1 h
  refine ⟨hpath, hwalks.short name ?_ hname⟩
  obtain heq | ⟨front, -, heq⟩ := steps_join p hname <;> simp [heq]

/-- With one more name a path goes on from where it led. -/
theorem locate_join {stop : Place} (hplace : w.locate true p = .ok (.node place))
    (hname : IsName name) (hfits : Fits p name)
    (hstop : ∀ links, Walks w.root followLast links place [name] stop) :
    w.locate followLast (p.join name) = .ok stop := by
  obtain ⟨-, hwalks⟩ := locate_eq_ok_iff.1 hplace
  refine locate_eq_ok_iff.2 ⟨hfits.path, ?_⟩
  rw [Path.start_eq (Path.isAbsolute_join p hname)]
  obtain heq | ⟨front, hfront, heq⟩ := steps_join p hname
  · rw [heq]
    exact hwalks.append (by simp) hstop
  · rw [hfront] at hwalks
    rw [heq]
    exact hwalks.of_concat_blank.append (by simp) hstop

theorem leadsDown (hname : IsName name) (hfits : Fits p name) : LeadsDown name :=
  ⟨not_or.2 ⟨hname.1, hname.2.1⟩, hname.2.2.1, hfits.short⟩

theorem locate_join_of_node (hplace : w.locate true p = .ok (.node place)) (hname : IsName name)
    (hfits : Fits p name) {node : Node} (hnode : w.root.get? (place ++ [name]) = some node)
    (hlink : ∀ target, node ≠ link target) :
    w.locate followLast (p.join name) = .ok (.node (place ++ [name])) :=
  locate_join hplace hname hfits fun _ => .down (leadsDown hname hfits) hnode hlink .done

theorem locate_join_of_vacant (hplace : w.locate true p = .ok (.node place)) (hname : IsName name)
    (hfits : Fits p name) (hdir : w.root.DirAt place)
    (hvacant : w.root.get? (place ++ [name]) = none) :
    w.locate followLast (p.join name) = .ok (.vacant place name false) :=
  locate_join hplace hname hfits fun _ => .vacant (leadsDown hname hfits) hdir hvacant (by simp)

/-- What is found under one more name is what the directory holds under it. -/
theorem find?_join_eq_some_iff {entries : List (String × Node)} {node : Node}
    (hplace : w.locate true p = .ok (.node place))
    (hentries : w.root.get? place = some (directory entries)) (hname : IsName name)
    (hlink : ∀ target, child? name entries ≠ some (link target)) :
    w.find? (p.join name) = some node ↔ Fits p name ∧ child? name entries = some node := by
  have hthere : w.root.get? (place ++ [name]) = child? name entries := get?_concat hentries
  constructor
  · intro hfind
    rw [find?] at hfind
    split at hfind
    · next stop hlocate =>
      have hfits := fits_of_locate hname hlocate
      refine ⟨hfits, ?_⟩
      cases hchild : child? name entries with
      | none =>
        rw [locate_join_of_vacant hplace hname hfits ⟨entries, hentries⟩ (hthere.trans hchild)]
          at hlocate
        cases hlocate
      | some child =>
        rw [locate_join_of_node hplace hname hfits (hthere.trans hchild)
          fun target heq => hlink target (heq ▸ hchild)] at hlocate
        cases hlocate
        rwa [hthere, hchild] at hfind
    · cases hfind
  · rintro ⟨hfits, hchild⟩
    rw [find?, locate_join_of_node hplace hname hfits (hthere.trans hchild)
      fun target heq => hlink target (heq ▸ hchild)]
    exact hthere.trans hchild

theorem locate_of_grows (h : w.locate followLast p = .ok (.node place))
    (hgrows : w.root.Grows w'.root) (hcwd : w'.cwd = w.cwd) :
    w'.locate followLast p = .ok (.node place) := by
  obtain ⟨hpath, hwalks⟩ := locate_eq_ok_iff.1 h
  refine locate_eq_ok_iff.2 ⟨hpath, ?_⟩
  rw [hcwd]
  exact hwalks.of_grows hgrows

theorem of_locate_vacant {asDirectory : Bool}
    (h : w.locate followLast p = .ok (.vacant place name asDirectory)) :
    LeadsDown name ∧ w.root.DirAt place ∧ w.root.get? (place ++ [name]) = none :=
  (locate_eq_ok_iff.1 h).2.of_vacant

theorem locate_of_made {asDirectory : Bool}
    (h : w.locate false p = .ok (.vacant place name asDirectory))
    (hgrows : w.root.Grows w'.root) (hcwd : w'.cwd = w.cwd)
    (hmade : w'.root.DirAt (place ++ [name])) :
    w'.locate true p = .ok (.node (place ++ [name])) := by
  obtain ⟨hpath, hwalks⟩ := locate_eq_ok_iff.1 h
  refine locate_eq_ok_iff.2 ⟨hpath, ?_⟩
  rw [hcwd]
  exact hwalks.of_made hgrows hmade

end

end World

end StubManager
