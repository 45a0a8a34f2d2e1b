import Mathlib.Data.List.Find
import StubManager.Proofs.FileTree.Pruning
import StubManager.Proofs.FileTree.Sparing

/-!
# Ways that avoid a place

A path avoids a place if it goes neither to the place nor over it (`Avoids`). Such a path leads to
the same with and without what is there: main statements `locate_erase`, `locateParent_erase` and
`find?_erase`. Changes apart from each other can be made in either order (`Plain.alter_comm`).
-/

namespace StubManager

open Node Running World Files

/-! ## Trees without a file -/

namespace Node

variable {root : Node} {place other : List String}

/-- Changes of two names of a directory can be made in either order. -/
theorem setChild_comm {name other : String} (hne : name ≠ other) (node? other? : Option Node)
    {entries : List (String × Node)} (h : (entries.map Prod.fst).Pairwise (· < ·)) :
    setChild name node? (setChild other other? entries)
      = setChild other other? (setChild name node? entries) := by
  refine ext_of_child? (ordered_setChild _ (ordered_setChild _ h))
    (ordered_setChild _ (ordered_setChild _ h)) fun third => ?_
  by_cases hname : third = name
  · subst hname
    rw [child?_setChild_self _ (ordered_setChild _ h), child?_setChild_of_ne _ _ hne,
      child?_setChild_self _ h]
  by_cases hother : third = other
  · subst hother
    rw [child?_setChild_of_ne _ _ hname, child?_setChild_self _ h,
      child?_setChild_self _ (ordered_setChild _ h)]
  · rw [child?_setChild_of_ne _ _ hname, child?_setChild_of_ne _ _ hother,
      child?_setChild_of_ne _ _ hother, child?_setChild_of_ne _ _ hname]

/-- Taking out an entry that is not there changes nothing. -/
theorem setChild_none {name : String} {entries : List (String × Node)}
    (h : (entries.map Prod.fst).Pairwise (· < ·)) (hnone : child? name entries = none) :
    setChild name none entries = entries := by
  refine ext_of_child? (ordered_setChild _ h) h fun third => ?_
  by_cases hname : third = name
  · subst hname
    rw [child?_setChild_self _ h, hnone]
  · rw [child?_setChild_of_ne _ _ hname]

/-- A change below a directory changes one of its entries. -/
theorem exists_alter_entry (f : Option Node → Option Node) (name : String) (place : List String) :
    ∃ change : Option Node → Option Node, ∀ entries : List (String × Node),
      (entries.map Prod.fst).Pairwise (· < ·) →
      (directory entries).alter f (name :: place)
        = directory (setChild name (change (child? name entries)) entries) := by
  cases place with
  | nil => exact ⟨f, fun entries _ => rfl⟩
  | cons second place =>
    refine ⟨Option.map (·.alter f (second :: place)), fun entries h => ?_⟩
    cases hchild : child? name entries with
    | none =>
      rw [Option.map_none, setChild_none h hchild]
      simp only [alter, hchild]
    | some child => rw [alter_cons hchild, Option.map_some]

/-- Changes at places apart from each other can be made in either order. -/
theorem Plain.alter_comm (h : root.Plain) (f g : Option Node → Option Node)
    (hbelow : ¬ place <+: other) (habove : ¬ other <+: place) :
    (root.alter f place).alter g other = (root.alter g other).alter f place := by
  induction place generalizing root other with
  | nil => exact absurd List.nil_prefix hbelow
  | cons name place ih =>
    cases other with
    | nil => exact absurd List.nil_prefix habove
    | cons name' other =>
      cases root with
      | file data executable => simp only [alter_file]
      | link target => simp only [alter_link]
      | directory entries =>
        have hordered := h.ordered [] entries rfl
        by_cases hname : name = name'
        · subst hname
          rw [List.cons_prefix_cons, and_iff_right rfl] at hbelow habove
          obtain ⟨second, place, rfl⟩ : ∃ second more, place = second :: more :=
            List.exists_cons_of_ne_nil fun heq => hbelow (heq ▸ List.nil_prefix)
          obtain ⟨second', other, rfl⟩ : ∃ second more, other = second :: more :=
            List.exists_cons_of_ne_nil fun heq => habove (heq ▸ List.nil_prefix)
          cases hchild : child? name entries with
          | none => simp only [Node.alter, hchild]
          | some child =>
            rw [alter_cons hchild, alter_cons hchild, alter_cons (child?_setChild_some _ _),
              alter_cons (child?_setChild_some _ _), setChild_setChild, setChild_setChild,
              ih (h.child hchild) hbelow habove]
        · obtain ⟨change, hchange⟩ := exists_alter_entry f name place
          obtain ⟨change', hchange'⟩ := exists_alter_entry g name' other
          rw [hchange _ hordered, hchange' _ hordered, hchange _ (ordered_setChild _ hordered),
            hchange' _ (ordered_setChild _ hordered), child?_setChild_of_ne _ _ hname,
            child?_setChild_of_ne _ _ (Ne.symm hname), setChild_comm hname _ _ hordered]

/-- What was changed in an entry is taken out with the entry. -/
theorem Plain.erase_alter_below (h : root.Plain) (f : Option Node → Option Node)
    (parent : List String) (name : String) (back : List String) :
    (root.alter f (parent ++ [name] ++ back)).erase (parent ++ [name])
      = root.erase (parent ++ [name]) := by
  induction parent generalizing root with
  | nil =>
    cases root with
    | file data executable => rw [alter_file]
    | link target => rw [alter_link]
    | directory entries =>
      have hordered := h.ordered [] entries rfl
      obtain ⟨change, hchange⟩ := exists_alter_entry f name back
      rw [List.nil_append, List.singleton_append, hchange _ hordered]
      refine congrArg directory (ext_of_child? (ordered_setChild _ (ordered_setChild _ hordered))
        (ordered_setChild _ hordered) fun other => ?_)
      by_cases hother : other = name
      · subst hother
        exact (child?_setChild_self _ (ordered_setChild _ hordered)).trans
          (child?_setChild_self _ hordered).symm
      · rw [child?_setChild_of_ne _ _ hother, child?_setChild_of_ne _ _ hother,
          child?_setChild_of_ne _ _ hother]
  | cons first parent ih =>
    cases root with
    | file data executable => rw [alter_file]
    | link target => rw [alter_link]
    | directory entries =>
      obtain ⟨second, more, hmore⟩ : ∃ second more, parent ++ [name] = second :: more :=
        List.exists_cons_of_ne_nil (by simp)
      cases hchild : child? first entries with
      | none => simp only [List.cons_append, hmore, Node.alter, hchild]
      | some child =>
        have hsame := ih (h.child hchild)
        rw [erase, erase, hmore, List.cons_append] at hsame
        rw [List.cons_append, List.cons_append, hmore, List.cons_append, alter_cons hchild, erase,
          alter_cons (child?_setChild_some _ _), setChild_setChild, hsame, erase,
          alter_cons hchild]

theorem isDirectory_alter (f : Option Node → Option Node) (place : List String) (node : Node) :
    (node.alter f place).isDirectory = node.isDirectory := by
  cases node with
  | file data mode => rw [alter_file]
  | link target => rw [alter_link]
  | directory entries =>
    obtain ⟨entries', hentries'⟩ := exists_alter_directory f place entries
    rw [hentries']
    rfl

/-- What is left at a place that a file is taken out from elsewhere. -/
theorem get?_erase_cases (h : root.Plain) (hbelow : ¬ place <+: other) :
    root.get? other = none ∧ (root.erase place).get? other = none ∨
      (∃ data mode, root.get? other = some (.file data mode) ∧
        (root.erase place).get? other = some (.file data mode)) ∨
      ∃ entries entries', root.get? other = some (.directory entries) ∧
        (root.erase place).get? other = some (.directory entries') := by
  obtain ⟨back, hback⟩ := get?_alter_of_not_below (fun _ => none) root hbelow
  rw [← erase] at hback
  rw [hback]
  cases hnode : root.get? other with
  | none => exact .inl ⟨rfl, rfl⟩
  | some node =>
    cases node with
    | file data mode => exact .inr (.inl ⟨data, mode, rfl, by rw [Option.map_some, alter_file]⟩)
    | link target => exact absurd hnode (h.linkless _ _)
    | directory entries =>
      obtain ⟨entries', hentries'⟩ := exists_alter_directory (fun _ => none) back entries
      exact .inr (.inr ⟨entries, entries', rfl, by rw [Option.map_some, hentries']⟩)

end Node

namespace World

variable {root : Node} {w : World} {place : List String}

/-! ## Ways that avoid a place -/

/-- Whether a path goes neither to a place nor over it. -/
def Avoids (place cwd : List String) (p : Path) : Prop :=
  ∀ other, p.Passes cwd other → ¬ place <+: other

/-- A path that never turns back avoids what it does not lead below. -/
theorem Avoids.of_straight {cwd : List String} {p : Path} (hstraight : ".." ∉ p.names)
    (hnot : ¬ place <+: p.place cwd) : Avoids place cwd p :=
  fun _ hother hle => hnot (hle.trans (hother.le_of_straight hstraight))

theorem Avoids.mono {cwd : List String} {p : Path} (h : Avoids place cwd p) {below : List String}
    (hle : place <+: below) : Avoids below cwd p :=
  fun other hother hbelow => h other hother (hle.trans hbelow)

theorem Avoids.not_le {cwd : List String} {p : Path} (h : Avoids place cwd p) :
    ¬ place <+: p.place cwd := h _ (p.passes_place cwd)

theorem Avoids.join {cwd : List String} {p : Path} (h : Avoids place cwd p) {name : String}
    (hname : IsName name) (hnot : ¬ place <+: p.place cwd ++ [name]) :
    Avoids place cwd (p.join name) := by
  intro other hother
  obtain hother | rfl := Path.passes_join hname hother
  · exact h other hother
  · exact hnot

theorem Avoids.ancestor {cwd : List String} {p q : Path} (h : Avoids place cwd p)
    (hq : q ∈ p.ancestors) : Avoids place cwd q := by
  obtain ⟨hnames, habsolute⟩ := Path.ancestors_spec hq
  exact fun other hother => h other (hother.extend hnames habsolute)

/-- Whether a path avoids a place and leads to nothing above it. -/
structure Clear (place cwd : List String) (p : Path) : Prop where
  avoids : Avoids place cwd p
  above : ¬ p.place cwd <+: place

theorem Clear.join {cwd : List String} {p : Path} (h : Clear place cwd p) {name : String}
    (hname : IsName name) : Clear place cwd (p.join name) := by
  have hle : p.place cwd <+: p.place cwd ++ [name] := List.prefix_append _ _
  refine ⟨h.avoids.join hname fun hbelow => ?_, fun habove => h.above ?_⟩
  · exact (List.prefix_or_prefix_of_prefix hbelow hle).elim h.avoids.not_le h.above
  · rw [Path.place_join p hname] at habove
    exact hle.trans habove

theorem Clear.foldl_join {cwd : List String} {p : Path} (h : Clear place cwd p)
    {names : List String} (hnames : ∀ name ∈ names, IsName name) :
    Clear place cwd (names.foldl Path.join p) := by
  induction names generalizing p with
  | nil => exact h
  | cons name names ih =>
    rw [List.forall_mem_cons] at hnames
    exact ih (h.join hnames.1) hnames.2

/-- Every part of the way of a path avoids what the path avoids. -/
theorem Avoids.steps {p : Path} (h : Avoids place w.cwd p) {front : List String}
    (hfront : front <+: World.steps p.text) : ¬ place <+: front.foldl follow (p.start w.cwd) := by
  obtain ⟨back, hback⟩ := hfront
  refine h _ ⟨front.filter counts, ⟨back.filter counts, ?_⟩, foldl_follow_filter _ _⟩
  rw [← List.filter_append, hback, filter_steps]

/-- A walk that avoids a place ends as it does without what is there. -/
theorem walkWith_erase (hplain : root.Plain) {followLast : Bool}
    {onLink onLink' : List String → List String → Except FileFault Place}
    {here todo : List String}
    (hway : ∀ front, front <+: todo → ¬ place <+: front.foldl follow here) :
    walkWith (root.erase place) followLast onLink' here todo
      = walkWith root followLast onLink here todo := by
  induction todo generalizing here with
  | nil => rw [walkWith, walkWith]
  | cons name todo ih =>
    have hnext := ih fun front hfront =>
      hway (name :: front) (List.cons_prefix_cons.2 ⟨rfl, hfront⟩)
    have hhere : ¬ place <+: here := hway [] List.nil_prefix
    have hname : ¬ place <+: follow here name :=
      hway [name] (List.cons_prefix_cons.2 ⟨rfl, List.nil_prefix⟩)
    rw [walkWith, walkWith]
    obtain ⟨hnone, hnone'⟩ | ⟨data, mode, hfile, hfile'⟩ | ⟨entries, entries', hdir, hdir'⟩ :=
      get?_erase_cases hplain hhere
    · rw [hnone, hnone']
    · rw [hfile, hfile']
    rw [hdir, hdir']
    dsimp only
    by_cases hstay : name = "" ∨ name = "."
    · rw [follow, if_pos hstay] at hnext
      rw [if_pos hstay, if_pos hstay, hnext]
    by_cases hup : name = ".."
    · rw [follow, if_neg hstay, if_pos hup] at hnext
      rw [if_neg hstay, if_neg hstay, if_pos hup, if_pos hup, hnext]
    rw [follow, if_neg hstay, if_neg hup] at hnext hname
    rw [if_neg hstay, if_neg hstay, if_neg hup, if_neg hup, ← get?_concat hdir,
      ← get?_concat hdir']
    split
    · rfl
    · obtain ⟨hnone, hnone'⟩ | ⟨data, mode, hfile, hfile'⟩ | ⟨entries, entries', hdir, hdir'⟩ :=
        get?_erase_cases hplain hname
      · rw [hnone, hnone']
      · rw [hfile, hfile']
        exact hnext
      · rw [hdir, hdir']
        exact hnext

theorem walk_erase (hplain : root.Plain) {followLast : Bool} {links : Nat}
    {here todo : List String}
    (hway : ∀ front, front <+: todo → ¬ place <+: front.foldl follow here) :
    walk (root.erase place) followLast links here todo = walk root followLast links here todo := by
  cases links <;> exact walkWith_erase hplain hway

theorem locate_erase (hplain : w.root.Plain) {p : Path} (h : Avoids place w.cwd p)
    (followLast : Bool) : (w.erase place).locate followLast p = w.locate followLast p := by
  rw [locate, locate]
  split
  · rfl
  · exact walk_erase hplain fun _ => h.steps

theorem locateParent_erase (hplain : w.root.Plain) {p : Path} (h : Avoids place w.cwd p) :
    (w.erase place).locateParent p = w.locateParent p := by
  obtain ⟨blanks, -, hsteps⟩ := exists_steps p
  rw [List.append_assoc] at hsteps
  rw [locateParent, locateParent]
  split
  · rfl
  simp only [bind, Except.bind]
  generalize (World.steps p.text).reverse.dropWhile (· = "") = last at hsteps ⊢
  have hway : ∀ front, front <+: (last.drop 1).reverse →
      ¬ place <+: front.foldl follow (p.start w.cwd) :=
    fun front hfront => h.steps (hfront.trans ⟨_, hsteps.symm⟩)
  have hwalk := @walk_erase w.root place hplain true linkLimit _ _ hway
  rw [Path.start] at hwalk hway
  rw [show (w.erase place).root = w.root.erase place from rfl,
    show (w.erase place).cwd = w.cwd from rfl, hwalk]
  generalize hend : walk w.root true linkLimit (if p.isAbsolute then [] else w.cwd)
    (last.drop 1).reverse = result
  obtain fault | ⟨parent | ⟨parent, name, asDirectory⟩⟩ := result
  · rfl
  · obtain ⟨rfl, -⟩ := of_walkWith_eq_node hplain hend
    dsimp only
    obtain ⟨hnone, hnone'⟩ | ⟨data, mode, hfile, hfile'⟩ | ⟨entries, entries', hdir, hdir'⟩ :=
      get?_erase_cases hplain (hway _ (List.prefix_refl _))
    · rw [hnone, hnone']
    · rw [hfile, hfile']
    · rw [hdir, hdir']
  · rfl

/-- What a path leads to that avoids a place is there without what is at the place, but for what it
holds. -/
theorem find?_erase (hplain : w.root.Plain) {p : Path} (h : Avoids place w.cwd p) :
    ∃ back, (w.erase place).find? p = (w.find? p).map (·.alter (fun _ => none) back) := by
  rw [find?, find?, locate_erase hplain h]
  cases hlocate : w.locate true p with
  | error fault => exact ⟨[], rfl⟩
  | ok found =>
    cases found with
    | vacant parent name asDirectory => exact ⟨[], rfl⟩
    | node names =>
      obtain ⟨rfl, -⟩ := (locate_eq_node_iff hplain).1 hlocate
      exact get?_alter_of_not_below _ w.root h.not_le

theorem exists?_erase (hplain : w.root.Plain) {p : Path} (h : Avoids place w.cwd p) :
    (w.erase place).exists? p = w.exists? p := by
  obtain ⟨back, hback⟩ := find?_erase hplain h
  rw [World.exists?, World.exists?, hback, Option.isSome_map]

theorem isDirectory_erase (hplain : w.root.Plain) {p : Path} (h : Avoids place w.cwd p) :
    (w.erase place).isDirectory p = w.isDirectory p := by
  obtain ⟨back, hback⟩ := find?_erase hplain h
  rw [World.isDirectory, World.isDirectory, hback, Option.any_map]
  exact congrArg (Option.any · _) (funext fun node => isDirectory_alter _ back node)

theorem isTaken_erase (hplain : w.root.Plain) {directory : Path} {name : String}
    (h : Avoids place w.cwd (directory.join name)) :
    isTaken directory name (w.erase place) = isTaken directory name w := by
  rw [isTaken, isTaken, locate_erase hplain h]

/-- The name for a temporary entry is the same if none of the names is that of the file. -/
theorem freeName?_erase (hplain : w.root.Plain) {directory : Path} {stem : String}
    (hstem : '/' ∉ stem.toList ∧ 2 < stem.length) (h : Avoids place w.cwd directory)
    (hnames : ∀ name ∈ temporaryNames stem, place ≠ directory.place w.cwd ++ [name]) :
    freeName? directory stem (w.erase place) = freeName? directory stem w := by
  rw [freeName?, freeName?]
  refine List.find?_congr fun name hmem => ?_
  have hname := isName_of_mem_temporaryNames hstem.1 hstem.2 hmem
  refine congrArg not (isTaken_erase hplain (h.join hname ?_))
  rw [List.prefix_concat_iff]
  exact not_or.2 ⟨hnames name hmem, h.not_le⟩

/-- A change apart from the place can be made before or after what is there is taken out. -/
theorem erase_alter (hplain : w.root.Plain) (f : Option Node → Option Node) {t : List String}
    (hbelow : ¬ place <+: t) (habove : ¬ t <+: place) :
    (w.erase place).alter f t = (w.alter f t).erase place :=
  congrArg (fun root => { w with root }) (hplain.alter_comm _ f hbelow habove)

/-- What is no directory, and not the file itself, is not above a file. -/
theorem not_le_of_not_dirAt (hfile : root.FileAt place) {t : List String} (hnot : ¬ root.DirAt t)
    (hbelow : ¬ place <+: t) : ¬ t <+: place := by
  obtain ⟨data, mode, hnode⟩ := hfile
  refine fun hle => hnot (DirAt.of_get? hnode hle ?_)
  rintro rfl
  exact hbelow (List.prefix_refl _)

end World

end StubManager
