import StubManager.Proofs.FileTree.Replacing

/-!
# New directories

A directory is made where nothing was, in a tree that may hold links. The path it was made by leads
to it from then on, whatever is done in it (`Lodging.Holds.locate_path`), and replacing a file in it
changes nothing else (`Lodging.keeps_replace`). Taking the directory out brings back the tree
(`Lodging.Holds.erase_root`).
-/

namespace StubManager

open Node Running World

namespace Node

/-- A change below what was put changes what was put. -/
theorem alter_put_append (f : Option Node → Option Node) {root : Node} (new : Node)
    {parent more : List String} {name : String} (hparent : root.DirAt parent) (hmore : more ≠ []) :
    (root.put (parent ++ [name]) new).alter f (parent ++ [name] ++ more)
      = root.put (parent ++ [name]) (new.alter f more) := by
  obtain ⟨entries, hentries⟩ := hparent
  obtain ⟨second, more, rfl⟩ := List.exists_cons_of_ne_nil hmore
  induction parent generalizing root with
  | nil =>
    cases hentries
    rw [put, put, List.nil_append, List.singleton_append, Node.alter, Node.alter,
      alter_cons (child?_setChild_some _ _), setChild_setChild]
  | cons first parent ih =>
    cases root with
    | file data executable => simp [get?, Node.entries, child?] at hentries
    | link target => simp [get?, Node.entries, child?] at hentries
    | directory es =>
      rw [get?, Node.entries, Option.bind_eq_some_iff] at hentries
      obtain ⟨child, hchild, hentries⟩ := hentries
      have hrec := ih hentries
      obtain ⟨third, back, hplace⟩ : ∃ third back, parent ++ [name] = third :: back :=
        List.exists_cons_of_ne_nil (by simp)
      rw [put, put, hplace, List.cons_append] at hrec
      rw [put, put, List.cons_append, hplace, List.cons_append, List.cons_append, alter_cons hchild,
        alter_cons hchild, alter_cons (child?_setChild_some _ _), setChild_setChild, hrec]

end Node

namespace World

section

variable {root : Node} {followLast : Bool}
  {onLink : List String → List String → Except FileFault Place} {here todo parent : List String}
  {name : String} {asDirectory : Bool}

/-! ## Ways to a new directory -/

/-- A walk that ends where nothing is has come to a directory without that entry. -/
theorem vacant_of_walkWith
    (honLink : ∀ here todo, onLink here todo = .ok (.vacant parent name asDirectory) →
      root.DirAt parent ∧ root.get? (parent ++ [name]) = none)
    (h : walkWith root followLast onLink here todo = .ok (.vacant parent name asDirectory)) :
    root.DirAt parent ∧ root.get? (parent ++ [name]) = none := by
  fun_induction walkWith root followLast onLink here todo with
  | case1 | case2 | case3 | case4 | case7 | case9 | case10 | case11 => cases h
  | case5 _ _ _ _ _ _ ih | case6 _ _ _ _ _ ih | case13 _ _ _ _ _ _ _ _ _ _ _ ih => exact ih h
  | case8 here last todo entries hentries _ _ _ hchild _ =>
    cases h
    exact ⟨⟨entries, hentries⟩, (get?_concat hentries).trans hchild⟩
  | case12 => exact honLink _ _ h

theorem vacant_of_walk {links : Nat}
    (h : walk root followLast links here todo = .ok (.vacant parent name asDirectory)) :
    root.DirAt parent ∧ root.get? (parent ++ [name]) = none := by
  induction links generalizing here todo with
  | zero =>
    rw [walk] at h
    refine vacant_of_walkWith (fun _ _ hlink => ?_) h
    cases hlink
  | succ links ih =>
    rw [walk] at h
    exact vacant_of_walkWith (fun _ _ hlink => ih hlink) h

/-- Empty names at the end of a way do not lead away from a directory. -/
theorem walkWith_blanks (hdir : root.DirAt here) {blanks : List String}
    (hblanks : blanks.all (· = "")) (more : List String) :
    walkWith root followLast onLink here (blanks ++ more)
      = walkWith root followLast onLink here more := by
  obtain ⟨entries, hentries⟩ := hdir
  induction blanks with
  | nil => rfl
  | cons blank blanks ih =>
    rw [List.all_cons, Bool.and_eq_true, decide_eq_true_iff] at hblanks
    rw [List.cons_append, walkWith, hentries]
    simp only [hblanks.1, true_or, if_true]
    exact ih hblanks.2

/-- A walk that ended where nothing was leads on from the directory that was put there. -/
theorem walkWith_put {onLink' : Bool → List String → List String → Except FileFault Place}
    {es : List (String × Node)} (hparent : root.DirAt parent)
    (hvacant : root.get? (parent ++ [name]) = none)
    (honLink : ∀ here todo, onLink here todo = .ok (.vacant parent name asDirectory) →
      ∃ onward : Bool → List String → List String → Except FileFault Place, ∀ followLast more,
        onLink' followLast here (todo ++ more)
          = walkWith (root.put (parent ++ [name]) (.directory es)) followLast (onward followLast)
            (parent ++ [name]) more)
    (h : walkWith root false onLink here todo = .ok (.vacant parent name asDirectory)) :
    ∃ onward : Bool → List String → List String → Except FileFault Place, ∀ followLast more,
      walkWith (root.put (parent ++ [name]) (.directory es)) followLast (onLink' followLast) here
          (todo ++ more)
        = walkWith (root.put (parent ++ [name]) (.directory es)) followLast (onward followLast)
          (parent ++ [name]) more := by
  obtain ⟨_, hparent⟩ := hparent
  have hnew : (root.put (parent ++ [name]) (.directory es)).get? (parent ++ [name])
      = some (.directory es) := get?_put _ hparent
  -- nothing lay at the new directory or below, so the walk never came there
  have hnot : ∀ place, root.get? place ≠ none → ¬ parent ++ [name] <+: place := by
    rintro place hplace ⟨back, rfl⟩
    rw [get?_append, hvacant] at hplace
    exact hplace rfl
  have hsame : ∀ place, root.get? place ≠ none → ∃ back,
      (root.put (parent ++ [name]) (.directory es)).get? place
        = (root.get? place).map (·.alter (fun _ => some (.directory es)) back) :=
    fun place hplace => get?_alter_of_not_below _ root (hnot place hplace)
  generalize hroot' : root.put (parent ++ [name]) (.directory es) = root' at *
  have hdirectory : ∀ {place entries}, root.get? place = some (directory entries) →
      ∃ entries', root'.get? place = some (directory entries') := by
    intro place entries hentries
    obtain ⟨back, hback⟩ := hsame place (by simp [hentries])
    obtain ⟨entries', halter⟩ := exists_alter_directory (fun _ => some (.directory es)) back entries
    exact ⟨entries', by rw [hback, hentries, Option.map_some, halter]⟩
  fun_induction walkWith root false onLink here todo with
  | case1 | case2 | case3 | case4 | case7 | case9 | case10 | case11 => cases h
  | case5 here first todo entries hentries hstay ih =>
    obtain ⟨onward, honward⟩ := ih h
    obtain ⟨entries', hentries'⟩ := hdirectory hentries
    refine ⟨onward, fun followLast more => ?_⟩
    rw [List.cons_append, walkWith, hentries', ← honward followLast more]
    simp only [if_pos hstay]
  | case6 here todo entries hentries hstay ih =>
    obtain ⟨onward, honward⟩ := ih h
    obtain ⟨entries', hentries'⟩ := hdirectory hentries
    refine ⟨onward, fun followLast more => ?_⟩
    rw [List.cons_append, walkWith, hentries', ← honward followLast more]
    simp only [if_neg hstay, if_true]
  | case8 here last todo entries hentries hstay hup hshort hchild hblanks =>
    cases h
    obtain ⟨entries', hentries'⟩ := hdirectory hentries
    refine ⟨onLink', fun followLast more => ?_⟩
    rw [get?_concat hentries'] at hnew
    rw [List.cons_append, walkWith, hentries']
    simp only [if_neg hstay, if_neg hup, if_neg hshort, hnew]
    exact walkWith_blanks ⟨es, (get?_concat hentries').trans hnew⟩ hblanks more
  | case12 here first todo entries hentries hstay hup hshort target hchild hlast htarget =>
    obtain ⟨onward, honward⟩ := honLink _ _ h
    obtain ⟨entries', hentries'⟩ := hdirectory hentries
    obtain ⟨back, hback⟩ := hsame (here ++ [first]) (by simp [get?_concat hentries, hchild])
    rw [get?_concat hentries', get?_concat hentries, hchild, Option.map_some, alter_link] at hback
    refine ⟨onward, fun followLast more => ?_⟩
    have hlast' : ¬ (todo ++ more = [] ∧ followLast = false) := by
      rintro ⟨hnil, -⟩
      exact hlast ⟨(List.append_eq_nil_iff.1 hnil).1, rfl⟩
    rw [List.cons_append, walkWith, hentries']
    simp only [if_neg hstay, if_neg hup, if_neg hshort, hback, if_neg hlast', if_neg htarget]
    rw [← List.append_assoc]
    exact honward followLast more
  | case13 here first todo entries hentries hstay hup hshort child hnolink hchild ih =>
    obtain ⟨onward, honward⟩ := ih h
    obtain ⟨entries', hentries'⟩ := hdirectory hentries
    obtain ⟨back, hback⟩ := hsame (here ++ [first]) (by simp [get?_concat hentries, hchild])
    rw [get?_concat hentries', get?_concat hentries, hchild, Option.map_some] at hback
    refine ⟨onward, fun followLast more => ?_⟩
    rw [List.cons_append, walkWith, hentries', ← honward followLast more]
    cases child with
    | link target => exact absurd rfl (hnolink target)
    | file data executable =>
      rw [alter_file] at hback
      simp only [if_neg hstay, if_neg hup, if_neg hshort, hback]
    | directory es' =>
      obtain ⟨es'', halter⟩ := exists_alter_directory (fun _ => some (.directory es)) back es'
      rw [halter] at hback
      simp only [if_neg hstay, if_neg hup, if_neg hshort, hback]


theorem walk_put {links : Nat} (es : List (String × Node))
    (h : walk root false links here todo = .ok (.vacant parent name asDirectory)) :
    ∃ onward : Bool → List String → List String → Except FileFault Place, ∀ followLast more,
      walk (root.put (parent ++ [name]) (.directory es)) followLast links here (todo ++ more)
        = walkWith (root.put (parent ++ [name]) (.directory es)) followLast (onward followLast)
          (parent ++ [name]) more := by
  obtain ⟨hparent, hvacant⟩ := vacant_of_walk h
  induction links generalizing here todo with
  | zero =>
    rw [walk] at h
    simp only [walk]
    refine walkWith_put hparent hvacant (fun _ _ hlink => ?_) h
    cases hlink
  | succ links ih =>
    rw [walk] at h
    simp only [walk]
    exact walkWith_put hparent hvacant (fun _ _ hlink => ih hlink) h

end
end World

/-! ## Paths into a directory -/

theorem parts_join_of_endsWith {p : Path} {last name : String} (hlast : IsName last)
    (hends : p.EndsWith last) (hname : IsName name) :
    (p.join name).parts = p.parts ++ [name.toList] := by
  obtain hparts | ⟨front, hfront, -⟩ := Path.parts_join p hname
  · exact hparts
  · rw [Path.EndsWith, hfront, List.getLast?_concat, Option.some.injEq] at hends
    exact absurd (String.toList_inj.1 hends.symm) hlast.1

theorem steps_join {p : Path} {last name : String} (hlast : IsName last) (hends : p.EndsWith last)
    (hname : IsName name) : World.steps (p.join name).text = World.steps p.text ++ [name] := by
  rw [World.steps, ← Path.parts, parts_join_of_endsWith hlast hends hname, List.map_append,
    List.map_singleton, String.ofList_toList]
  rfl

/-- A path into a directory leads out of it again. -/
theorem parent?_join {p : Path} {last name : String} (hlast : IsName last) (hends : p.EndsWith last)
    (hname : IsName name) : (p.join name).parent? = some p := by
  have hkept : ∀ first more, p.parts = first :: more →
      (more.reverse.dropWhile (!Path.isComponent ·)).reverse = more := by
    intro first more hp
    rcases List.eq_nil_or_concat more with rfl | ⟨more, part, rfl⟩
    · rfl
    · rw [List.concat_eq_append] at hp ⊢
      rw [Path.EndsWith, hp, ← List.cons_append, List.getLast?_concat, Option.some.injEq] at hends
      simp [hends, Path.isComponent_of_isName hlast]
  have htext : ['/'].intercalate p.parts = p.text.toList := Text.intercalate_splitAt '/' _
  have hne : p.text.toList ≠ [] := fun heq =>
    Path.text_ne_of_endsWith hlast hends (String.toList_inj.1 heq)
  have hsplit : (p.join name).splitLast = some (p.parts, name.toList) := by
    rw [Path.splitLast, parts_join_of_endsWith hlast hends hname]
    cases hp : p.parts with
    | nil => exact absurd hp p.parts_ne_nil
    | cons first more => simp [Path.isComponent_of_isName hname]
  cases hp : p.parts with
  | nil => exact absurd hp p.parts_ne_nil
  | cons first more =>
    rw [hp] at hsplit htext
    simp only [Path.parent?, hsplit, hkept first more hp, htext, if_neg hne, String.ofList_toList]

theorem holder_join {p : Path} {last name : String} (hlast : IsName last) (hends : p.EndsWith last)
    (hname : IsName name) : Files.holder (p.join name) = p := by
  rw [Files.holder, parent?_join hlast hends hname]
  exact if_neg (Path.text_ne_of_endsWith hlast hends)

/-- A place for a new directory: a path that nothing is found by yet. -/
structure Lodging (w : World) where
  path : Path
  parent : List String
  name : String
  asDirectory : Bool
  locate : w.locate false path = .ok (.vacant parent name asDirectory)
  last : String
  isName_last : IsName last
  endsWith : path.EndsWith last

namespace Lodging

variable {w w' : World}

/-- Where the directory comes to lie. -/
def place (l : Lodging w) : List String := l.parent ++ [l.name]

/-- Whether a world differs from the first one in what the new directory holds, which are no
links. -/
structure Holds (l : Lodging w) (w' : World) : Prop where
  cwd : w'.cwd = w.cwd
  tempDir : w'.tempDir = w.tempDir
  root : ∃ entries, (∀ entry ∈ entries, ∀ target, entry.2 ≠ .link target) ∧
    w'.root = w.root.put l.place (.directory entries)

variable {l : Lodging w} {name : String}

theorem vacant (l : Lodging w) : w.root.DirAt l.parent ∧ w.root.get? l.place = none := by
  have hlocate := l.locate
  rw [World.locate] at hlocate
  split at hlocate
  · cases hlocate
  · exact vacant_of_walk hlocate

theorem holds_put (l : Lodging w) : l.Holds (w.put l.place (.directory [])) :=
  ⟨rfl, rfl, [], by simp, rfl⟩

namespace Holds

/-- What the new directory holds is found behind its path. -/
theorem walk_path (h : l.Holds w') :
    ∃ entries, ∃ onward : Bool → List String → List String → Except FileFault Place,
      (∀ entry ∈ entries, ∀ target, entry.2 ≠ .link target) ∧
      w'.root.get? l.place = some (.directory entries) ∧ World.pathFault? l.path = none ∧
      ∀ followLast more, walk w'.root followLast linkLimit
          (if l.path.isAbsolute then [] else w'.cwd) (World.steps l.path.text ++ more)
        = walkWith w'.root followLast (onward followLast) l.place more := by
  obtain ⟨entries, hentries, hroot⟩ := h.root
  obtain ⟨_, hparent⟩ := l.vacant.1
  have hlocate := l.locate
  rw [World.locate] at hlocate
  split at hlocate
  · cases hlocate
  · next hfault =>
    obtain ⟨onward, honward⟩ := walk_put entries hlocate
    refine ⟨entries, onward, hentries, ?_, hfault, fun followLast more => ?_⟩
    · rw [hroot]
      exact get?_put _ hparent
    · rw [hroot, h.cwd]
      exact honward followLast more

theorem locate_path (h : l.Holds w') (followLast : Bool) :
    w'.locate followLast l.path = .ok (.node l.place) := by
  obtain ⟨_, onward, -, -, hfault, hwalk⟩ := h.walk_path
  have hpath := hwalk followLast []
  rw [List.append_nil, walkWith] at hpath
  rw [World.locate, hfault]
  exact hpath

theorem dirAt (h : l.Holds w') : w'.root.DirAt l.place := by
  obtain ⟨entries, _, -, hentries, -⟩ := h.walk_path
  exact ⟨entries, hentries⟩

/-- The first world comes back when the directory is taken out. -/
theorem erase_root (h : l.Holds w') (hordered : w.root.Ordered) :
    w'.root.erase l.place = w.root := by
  obtain ⟨entries, -, hroot⟩ := h.root
  rw [hroot]
  exact hordered.erase_put l.vacant.1 l.vacant.2 _

theorem linkless (h : l.Holds w') (target : String) :
    w'.root.get? (l.place ++ [name]) ≠ some (.link target) := by
  obtain ⟨entries, _, hlinkless, hentries, -⟩ := h.walk_path
  rw [get?_concat hentries]
  exact fun hchild => hlinkless _ (mem_of_child? hchild) target rfl

/-- Changes of an entry of the new directory. -/
theorem alter (h : l.Holds w') {f : Option Node → Option Node}
    (hf : ∀ target, f (w'.root.get? (l.place ++ [name])) ≠ some (.link target)) :
    l.Holds (w'.alter f (l.place ++ [name])) := by
  obtain ⟨entries, _, hlinkless, hentries, -⟩ := h.walk_path
  obtain ⟨entries', -, hroot⟩ := h.root
  obtain ⟨_, hparent⟩ := l.vacant.1
  obtain rfl : entries' = entries := by
    have hput : w'.root.get? l.place = some (.directory entries') := by
      rw [hroot]
      exact get?_put _ hparent
    rw [hentries] at hput
    cases hput
    rfl
  refine ⟨h.cwd, h.tempDir, setChild name (f (child? name entries')) entries', ?_, ?_⟩
  · intro entry hentry target
    obtain hold | ⟨-, hnew⟩ := mem_setChild hentry
    · exact hlinkless entry hold target
    · rintro heq
      rw [get?_concat hentries] at hf
      exact hf target (hnew.trans (congrArg some heq))
  · rw [World.alter, hroot]
    exact alter_put_append f _ l.vacant.1 (by simp)

/-- Where a name in the new directory leads. -/
theorem locate_join (h : l.Holds w') (hname : IsName name) (followLast : Bool) :
    (∃ fault, w'.locate followLast (l.path.join name) = .error fault) ∨
      (w'.root.get? (l.place ++ [name]) = none ∧
        w'.locate followLast (l.path.join name) = .ok (.vacant l.place name false)) ∨
      ∃ node, w'.root.get? (l.place ++ [name]) = some node ∧
        (∀ target, node ≠ .link target) ∧
        w'.locate followLast (l.path.join name) = .ok (.node (l.place ++ [name])) := by
  obtain ⟨entries, onward, hlinkless, hentries, -, hwalk⟩ := h.walk_path
  rw [World.locate]
  split
  · next fault _ => exact .inl ⟨fault, rfl⟩
  · rw [steps_join l.isName_last l.endsWith hname, Path.isAbsolute_join _ hname,
      hwalk followLast [name], walkWith, hentries, get?_concat hentries]
    have hstay : ¬ (name = "" ∨ name = ".") := not_or.2 ⟨hname.1, hname.2.1⟩
    simp only [if_neg hstay, if_neg hname.2.2.1]
    split
    · exact .inl ⟨_, rfl⟩
    · refine .inr ?_
      cases hchild : child? name entries with
      | none => exact .inl ⟨rfl, rfl⟩
      | some child =>
        have hnolink := hlinkless _ (mem_of_child? hchild)
        refine .inr ⟨child, rfl, hnolink, ?_⟩
        cases child with
        | link target => exact absurd rfl (hnolink target)
        | file data executable => rfl
        | directory es => rfl

theorem locateParent_join (h : l.Holds w') (hname : IsName name) :
    (∃ fault, w'.locateParent (l.path.join name) = .error fault) ∨
      w'.locateParent (l.path.join name) = .ok (l.place, name, false) := by
  obtain ⟨entries, onward, -, hentries, -, hwalk⟩ := h.walk_path
  have hpath := hwalk true []
  rw [List.append_nil, walkWith] at hpath
  rw [World.locateParent]
  split
  · next fault _ => exact .inl ⟨fault, rfl⟩
  · have hdrop : (World.steps l.path.text ++ [name]).reverse.dropWhile (· = "")
        = name :: (World.steps l.path.text).reverse := by
      simp [hname.1]
    refine .inr ?_
    rw [steps_join l.isName_last l.endsWith hname, Path.isAbsolute_join _ hname]
    simp only [hdrop, List.drop_succ_cons, List.drop_zero, List.reverse_reverse, bind, Except.bind,
      hpath, hentries]
    simp [hname.1]

end Holds

/-! ## Files in the new directory -/

variable (l)

theorem keeps_makeDirectories : Keeps l.Holds (Files.makeDirectories l.path) := by
  intro w' h
  obtain ⟨entries, hentries⟩ := h.dirAt
  have hmake : Files.makeDirectory l.path w' = (.error .alreadyExists, w') := by
    rw [Files.makeDirectory, bind_apply, orFault_apply, h.locate_path]
    rfl
  rw [Files.makeDirectories, Path.ancestors, Files.makeFirst]
  split
  · exact h
  · rw [tryCatch_apply, hmake]
    dsimp only
    rw [Files.unlessThere, bind_apply, ask_apply]
    dsimp only
    split <;> exact h

theorem keeps_writeWith (executable : Option Bool) (hname : IsName name) (data : ByteArray) :
    Keeps l.Holds (Files.writeWith executable (l.path.join name) data) := by
  intro w' h
  have hput : ∀ executable, l.Holds (w'.put (l.place ++ [name]) (.file data executable)) :=
    fun executable => h.alter fun target heq => by cases heq
  rw [Files.writeWith, bind_apply, orFault_apply]
  obtain ⟨fault, hlocate⟩ | ⟨-, hlocate⟩ | ⟨node, hnode, -, hlocate⟩ := h.locate_join hname true
  · rw [hlocate]
    exact h
  · rw [hlocate]
    exact hput _
  · rw [hlocate]
    simp only [bind_apply, get_apply, hnode]
    cases node with
    | file old permission => exact hput _
    | link target => exact h
    | directory es => exact h

theorem keeps_removeFile (hname : IsName name) :
    Keeps l.Holds (Files.removeFile (l.path.join name)) := by
  intro w' h
  have herase : l.Holds (w'.erase (l.place ++ [name])) := h.alter fun target heq => by cases heq
  rw [Files.removeFile, bind_apply, orFault_apply]
  obtain ⟨fault, hlocate⟩ | ⟨-, hlocate⟩ | ⟨node, hnode, -, hlocate⟩ := h.locate_join hname false
  · rw [hlocate]
    exact h
  · rw [hlocate]
    exact h
  · rw [hlocate]
    simp only [bind_apply, get_apply, hnode]
    cases node with
    | directory es => exact h
    | file data executable => exact herase
    | link target => exact herase

theorem keeps_rename {name' : String} (hname : IsName name) (hname' : IsName name') :
    Keeps l.Holds (Files.rename (l.path.join name) (l.path.join name')) := by
  intro w' h
  rw [Files.rename, bind_apply, orFault_apply]
  obtain ⟨fault, hlocate⟩ | hlocate := h.locateParent_join hname
  · rw [hlocate]
    exact h
  obtain ⟨fault, hlocate'⟩ | hlocate' := h.locateParent_join hname'
  · rw [hlocate]
    simp only [bind_apply, orFault_apply, hlocate']
    exact h
  rw [hlocate]
  simp only [bind_apply, orFault_apply, hlocate']
  split
  · exact h
  split
  · exact h
  rw [bind_apply, get_apply]
  cases hnode : w'.root.get? (l.place ++ [name]) with
  | none =>
    dsimp only
    rw [hnode]
    exact h
  | some node =>
    dsimp only
    rw [hnode]
    dsimp only
    split
    · exact h
    split
    · exact h
    split
    · exact h
    split
    · exact h
    cases (w'.root.get? (l.place ++ [name'])).bind (Files.replaceFault? node) with
    | some fault => exact h
    | none =>
      have herase : l.Holds (w'.erase (l.place ++ [name])) := h.alter fun target heq => by cases heq
      refine Holds.alter herase fun target heq => ?_
      rw [Option.some.injEq] at heq
      exact h.linkless target (hnode.trans (congrArg some heq))

theorem keeps_replace (hname : IsName name) (data : ByteArray) :
    Keeps l.Holds (Files.replace (l.path.join name) data) := by
  rw [Files.replace, holder_join l.isName_last l.endsWith hname]
  refine l.keeps_makeDirectories.bind fun _ _ _ _ => ?_
  refine (keeps_ask _).bind fun _ draft? _ hdraft => ?_
  cases draft? with
  | none => exact keeps_throw _
  | some draft =>
    rw [ask_apply, Except.ok.injEq] at hdraft
    have hdraft' : IsName draft :=
      Files.isName_of_mem_temporaryNames (by decide) (by decide) (Files.of_freeName? hdraft).1
    refine (l.keeps_writeWith none hdraft' data).bind fun _ _ _ _ => ?_
    refine (l.keeps_rename hdraft' hname).tryCatch fun fault => ?_
    refine Keeps.bind ?_ fun _ _ _ _ => keeps_throw _
    exact (l.keeps_removeFile hdraft').tryCatch fun _ => keeps_pure _

/-- A temporary directory is a new one, if it is made at all. -/
theorem of_makeTemporary {stem : String} (hstem : '/' ∉ stem.toList ∧ 2 < stem.length) (w : World) :
    (∃ failure, Files.makeTemporary stem w = (.error failure, w)) ∨
      ∃ l : Lodging w, Files.makeTemporary stem w
        = (.ok l.path, w.put l.place (.directory [])) := by
  rw [Files.makeTemporary, bind_apply, ask_apply]
  dsimp only
  rw [bind_apply, ask_apply]
  dsimp only
  cases hfree : Files.freeName? w.tempDir stem w with
  | none => exact .inl ⟨_, rfl⟩
  | some name =>
    have hname := Files.isName_of_mem_temporaryNames hstem.1 hstem.2 (Files.of_freeName? hfree).1
    dsimp only
    rw [bind_apply, adapt_apply, Files.makeDirectory, bind_apply, orFault_apply]
    cases hlocate : w.locate false (w.tempDir.join name) with
    | error fault => exact .inl ⟨_, rfl⟩
    | ok place =>
      cases place with
      | node place => exact .inl ⟨_, rfl⟩
      | vacant parent last asDirectory =>
        exact .inr ⟨⟨_, parent, last, asDirectory, hlocate, name, hname,
          Path.endsWith_join w.tempDir hname⟩, rfl⟩

end Lodging

end StubManager
