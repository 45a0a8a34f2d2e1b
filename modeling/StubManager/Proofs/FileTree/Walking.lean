import StubManager.Proofs.FileTree.Places

/-!
# Walks in plain trees

In a plain tree a walk ends at the place of the path, if every place it sets out from is a
directory. Main statements: `locate_eq_node_iff`, `of_locate_eq_vacant`, and `find?_eq_some_iff`.
-/

namespace StubManager

open Node

namespace World

/-- Whether a step leads somewhere. -/
def counts (name : String) : Bool := name ≠ "" && name ≠ "."

theorem foldl_follow_filter (todo here : List String) :
    (todo.filter counts).foldl follow here = todo.foldl follow here := by
  induction todo generalizing here with
  | nil => rfl
  | cons name todo ih =>
    rw [List.filter_cons]
    split
    · rw [List.foldl_cons, List.foldl_cons, ih]
    · next hname =>
      have hstay : name = "" ∨ name = "." := by
        simpa [counts, ← or_iff_not_imp_left] using hname
      rw [List.foldl_cons, follow, if_pos hstay, ih]

theorem filter_steps (p : Path) : (steps p.text).filter counts = p.names := by
  have hcounts : ∀ part, counts (String.ofList part) = Path.isComponent part := by
    intro part
    have hempty : String.ofList part = "" ↔ part = [] := by
      rw [← String.toList_inj, String.toList_ofList]
      rfl
    have hdot : String.ofList part = "." ↔ part = ['.'] := by
      rw [← String.toList_inj, String.toList_ofList]
      rfl
    simp [counts, Path.isComponent, hempty, hdot]
  rw [Path.names, steps, ← Path.parts, List.filter_map]
  exact congrArg _ (List.filter_congr fun part _ => hcounts part)

/-- The places that a walk sets out from with each of its steps. -/
def visited (here : List String) : List String → List (List String)
  | [] => []
  | name :: todo => here :: visited (follow here name) todo

/-- Whether no step of a walk is too long for a name. -/
def Short (todo : List String) : Prop :=
  ∀ name ∈ todo, name ≠ "" → name ≠ "." → name ≠ ".." → name.utf8ByteSize ≤ nameLimit

section

variable {root : Node} {followLast : Bool}
  {onLink : List String → List String → Except FileFault Place} {here todo : List String}
  {name : String}

theorem walkWith_of_not_dirAt (hdir : ¬ root.DirAt here) (name : String) (todo : List String) :
    ∃ fault, walkWith root followLast onLink here (name :: todo) = .error fault := by
  rw [walkWith]
  cases hhere : root.get? here with
  | none => exact ⟨_, rfl⟩
  | some node =>
    cases node with
    | directory entries => exact absurd ⟨entries, hhere⟩ hdir
    | file data executable => exact ⟨_, rfl⟩
    | link target => exact ⟨_, rfl⟩

theorem walkWith_of_long (hdir : root.DirAt here) (hlong : ¬ Short [name]) :
    walkWith root followLast onLink here (name :: todo) = .error .nameTooLong := by
  obtain ⟨entries, hentries⟩ := hdir
  simp only [Short, List.mem_singleton, forall_eq, Classical.not_imp, Nat.not_le] at hlong
  obtain ⟨hempty, hdot, hup, hlong⟩ := hlong
  rw [walkWith, hentries]
  simp only [hempty, hdot, or_self, if_false, hup, hlong, if_true]

theorem get?_concat {entries : List (String × Node)}
    (hentries : root.get? here = some (directory entries)) :
    root.get? (here ++ [name]) = child? name entries := by
  rw [get?_append, hentries, Option.bind_some, get?, Node.entries]
  cases child? name entries <;> rfl

theorem walkWith_step (hplain : root.Plain) (hdir : root.DirAt here) (hshort : Short [name])
    (hthere : (root.get? (follow here name)).isSome) :
    walkWith root followLast onLink here (name :: todo)
      = walkWith root followLast onLink (follow here name) todo := by
  obtain ⟨entries, hentries⟩ := hdir
  rw [walkWith, hentries]
  by_cases hstay : name = "" ∨ name = "."
  · simp only [if_pos hstay, follow]
  by_cases hup : name = ".."
  · simp only [if_neg hstay, if_pos hup, follow]
  · have hlong : ¬ nameLimit < name.utf8ByteSize := by
      rw [not_or] at hstay
      exact Nat.not_lt.2 (hshort name (by simp) hstay.1 hstay.2 hup)
    simp only [if_neg hstay, if_neg hup, if_neg hlong, follow] at hthere ⊢
    rw [get?_concat hentries] at hthere
    cases hchild : child? name entries with
    | none => simp [hchild] at hthere
    | some child =>
      cases child with
      | link target => exact absurd ((get?_concat hentries).trans hchild) (hplain.linkless _ _)
      | file data executable => rfl
      | directory es => rfl

theorem walkWith_stop (hdir : root.DirAt here) (hshort : Short [name])
    (hthere : root.get? (follow here name) = none) :
    (name ≠ "" ∧ name ≠ "." ∧ name ≠ "..") ∧ root.get? (here ++ [name]) = none ∧
      walkWith root followLast onLink here (name :: todo)
        = if todo.all (· = "") then .ok (.vacant here name (!todo.isEmpty))
          else .error .notFound := by
  by_cases hstay : name = "" ∨ name = "."
  · rw [follow, if_pos hstay] at hthere
    exact absurd hdir (not_dirAt_of_none hthere)
  by_cases hup : name = ".."
  · rw [follow, if_neg hstay, if_pos hup] at hthere
    exact absurd (hdir.of_below (List.dropLast_prefix here)) (not_dirAt_of_none hthere)
  obtain ⟨entries, hentries⟩ := hdir
  rw [follow, if_neg hstay, if_neg hup] at hthere
  have hproper := not_or.1 hstay
  refine ⟨⟨hproper.1, hproper.2, hup⟩, hthere, ?_⟩
  have hlong : ¬ nameLimit < name.utf8ByteSize :=
    Nat.not_lt.2 (hshort name (by simp) hproper.1 hproper.2 hup)
  rw [walkWith, hentries]
  simp only [if_neg hstay, if_neg hup, if_neg hlong, ← get?_concat hentries, hthere]

theorem of_walkWith_eq_node (hplain : root.Plain) {place : List String}
    (h : walkWith root followLast onLink here todo = .ok (.node place)) :
    place = todo.foldl follow here ∧ (∀ v ∈ visited here todo, root.DirAt v) ∧ Short todo ∧
      (todo ≠ [] → (root.get? place).isSome) := by
  induction todo generalizing here with
  | nil =>
    rw [walkWith, Except.ok.injEq, Place.node.injEq] at h
    exact ⟨h.symm, by simp [visited], by simp [Short], by simp⟩
  | cons name todo ih =>
    by_cases hdir : root.DirAt here
    · by_cases hshort : Short [name]
      · cases hthere : root.get? (follow here name) with
        | none =>
          rw [(walkWith_stop hdir hshort hthere).2.2] at h
          split at h <;> cases h
        | some node =>
          rw [walkWith_step hplain hdir hshort (by simp [hthere])] at h
          obtain ⟨hplace, hvisited, hshort', hsome⟩ := ih h
          refine ⟨hplace, List.forall_mem_cons.2 ⟨hdir, hvisited⟩, ?_, fun _ => ?_⟩
          · exact List.forall_mem_cons.2 ⟨List.forall_mem_singleton.1 hshort, hshort'⟩
          · cases todo with
            | nil => simp [hplace, hthere]
            | cons second todo => exact hsome (by simp)
      · rw [walkWith_of_long hdir hshort] at h
        cases h
    · obtain ⟨fault, hfault⟩ := walkWith_of_not_dirAt hdir name todo
      rw [hfault] at h
      cases h

/-- A walk over directories goes on from where they lead. -/
theorem walkWith_append (hplain : root.Plain) {front : List String}
    (hvisited : ∀ v ∈ visited here front, root.DirAt v) (hshort : Short front)
    (hsome : (root.get? (front.foldl follow here)).isSome) (todo : List String) :
    walkWith root followLast onLink here (front ++ todo)
      = walkWith root followLast onLink (front.foldl follow here) todo := by
  induction front generalizing here with
  | nil => rfl
  | cons name front ih =>
    obtain ⟨hdir, hvisited⟩ := List.forall_mem_cons.1 hvisited
    obtain ⟨hname, hshort⟩ := List.forall_mem_cons.1 hshort
    have hthere : (root.get? (follow here name)).isSome := by
      cases front with
      | nil => exact hsome
      | cons second front =>
        obtain ⟨entries, hentries⟩ := hvisited (follow here name) (List.mem_cons_self ..)
        rw [hentries]
        rfl
    rw [List.cons_append, walkWith_step hplain hdir (List.forall_mem_singleton.2 hname) hthere]
    exact ih hvisited hshort hsome

theorem walkWith_of_visited (hplain : root.Plain) (hvisited : ∀ v ∈ visited here todo, root.DirAt v)
    (hshort : Short todo) (hsome : (root.get? (todo.foldl follow here)).isSome) :
    walkWith root followLast onLink here todo = .ok (.node (todo.foldl follow here)) := by
  have hwalk : walkWith root followLast onLink here (todo ++ [])
      = walkWith root followLast onLink (todo.foldl follow here) [] :=
    walkWith_append hplain hvisited hshort hsome []
  rwa [List.append_nil, walkWith] at hwalk

theorem of_walkWith_eq_vacant (hplain : root.Plain) {parent : List String} {last : String}
    {asDirectory : Bool}
    (h : walkWith root followLast onLink here todo = .ok (.vacant parent last asDirectory)) :
    todo.foldl follow here = parent ++ [last] ∧ root.DirAt parent ∧
      root.get? (parent ++ [last]) = none ∧ Short todo ∧ last ∈ todo ∧
      last ≠ "" ∧ last ≠ "." ∧ last ≠ ".." := by
  induction todo generalizing here with
  | nil =>
    rw [walkWith] at h
    cases h
  | cons name todo ih =>
    by_cases hdir : root.DirAt here
    · by_cases hshort : Short [name]
      · cases hthere : root.get? (follow here name) with
        | none =>
          obtain ⟨hproper, hvacant, hwalk⟩ := walkWith_stop hdir hshort hthere
          rw [hwalk] at h
          split at h
          · next hempty =>
            cases h
            have hrest : ∀ place, todo.foldl follow place = place := by
              intro place
              have hnone : todo.filter counts = [] := List.filter_eq_nil_iff.2 fun name hname => by
                have := List.all_eq_true.1 hempty name hname
                simp_all [counts]
              rw [← foldl_follow_filter, hnone, List.foldl_nil]
            rw [List.foldl_cons, hrest, follow, if_neg (not_or.2 ⟨hproper.1, hproper.2.1⟩),
              if_neg hproper.2.2]
            refine ⟨rfl, hdir, hvacant, ?_, List.mem_cons_self .., hproper⟩
            refine List.forall_mem_cons.2
              ⟨List.forall_mem_singleton.1 hshort, fun name hname h => ?_⟩
            exact absurd (by simpa using List.all_eq_true.1 hempty name hname) h
          · cases h
        | some node =>
          rw [walkWith_step hplain hdir hshort (by simp [hthere])] at h
          obtain ⟨hplace, hparent, hvacant, hshort', hmem, hproper⟩ := ih h
          exact ⟨hplace, hparent, hvacant,
            List.forall_mem_cons.2 ⟨List.forall_mem_singleton.1 hshort, hshort'⟩,
            List.mem_cons_of_mem _ hmem, hproper⟩
      · rw [walkWith_of_long hdir hshort] at h
        cases h
    · obtain ⟨fault, hfault⟩ := walkWith_of_not_dirAt hdir name todo
      rw [hfault] at h
      cases h

/-- A walk that ends where nothing is turns back at directories. -/
theorem dirAt_of_walkWith_eq_vacant (hplain : root.Plain) {front back parent : List String}
    {last : String} {asDirectory : Bool}
    (h : walkWith root followLast onLink here (front ++ ".." :: back)
      = .ok (.vacant parent last asDirectory)) : root.DirAt (front.foldl follow here) := by
  induction front generalizing here with
  | nil =>
    rw [List.nil_append] at h
    by_cases hdir : root.DirAt here
    · exact hdir
    · obtain ⟨fault, hfault⟩ := walkWith_of_not_dirAt hdir ".." back
      rw [hfault] at h
      cases h
  | cons name front ih =>
    rw [List.cons_append] at h
    by_cases hdir : root.DirAt here
    · by_cases hshort : Short [name]
      · cases hthere : root.get? (follow here name) with
        | none =>
          rw [(walkWith_stop hdir hshort hthere).2.2] at h
          split at h
          · next hempty => simp at hempty
          · cases h
        | some node =>
          rw [walkWith_step hplain hdir hshort (by simp [hthere])] at h
          exact ih h
      · rw [walkWith_of_long hdir hshort] at h
        cases h
    · obtain ⟨fault, hfault⟩ := walkWith_of_not_dirAt hdir name (front ++ ".." :: back)
      rw [hfault] at h
      cases h

theorem exists_front_of_mem_visited {v : List String} (h : v ∈ visited here todo) :
    ∃ front back, todo = front ++ back ∧ back ≠ [] ∧ v = front.foldl follow here := by
  induction todo generalizing here with
  | nil => cases h
  | cons name todo ih =>
    obtain rfl | h := List.mem_cons.1 h
    · exact ⟨[], name :: todo, rfl, by simp, rfl⟩
    · obtain ⟨front, back, rfl, hback, rfl⟩ := ih h
      exact ⟨name :: front, back, rfl, hback, rfl⟩

end

/-! ## Paths -/

/-- Whether a path can lead anywhere at all. -/
def Valid (p : Path) : Prop := pathFault? p = none ∧ Short (steps p.text)

/-- The places that a path sets out from in the world. -/
def onWay (w : World) (p : Path) : List (List String) := visited (p.start w.cwd) (steps p.text)

theorem isDirectory_iff {w : World} {p : Path} :
    w.isDirectory p = true ↔ ∃ entries, w.find? p = some (.directory entries) := by
  rw [World.isDirectory]
  cases w.find? p with
  | none => simp
  | some node => cases node <;> simp [Node.isDirectory]

theorem isFile_iff {w : World} {p : Path} :
    w.isFile p = true ↔ ∃ data mode, w.find? p = some (.file data mode) := by
  rw [World.isFile]
  cases w.find? p with
  | none => simp
  | some node => cases node <;> simp [Node.isFile]

theorem foldl_steps (w : World) (p : Path) :
    (steps p.text).foldl follow (p.start w.cwd) = p.place w.cwd := by
  rw [← foldl_follow_filter, filter_steps, Path.place]

theorem steps_ne_nil (p : Path) : steps p.text ≠ [] := by
  rw [steps]
  exact fun h => Text.splitAt_ne_nil _ _ (List.map_eq_nil_iff.1 h)

theorem locate_eq_node_iff {w : World} (hplain : w.root.Plain) {followLast : Bool} {p : Path}
    {place : List String} :
    w.locate followLast p = .ok (.node place) ↔
      place = p.place w.cwd ∧ Valid p ∧ (∀ v ∈ w.onWay p, w.root.DirAt v) ∧
        (w.root.get? place).isSome := by
  rw [locate]
  constructor
  · intro h
    split at h
    · cases h
    · next hfault =>
      obtain ⟨hplace, hvisited, hshort, hsome⟩ := of_walkWith_eq_node hplain h
      rw [← Path.start, foldl_steps] at hplace
      exact ⟨hplace, ⟨hfault, hshort⟩, hvisited, hsome (steps_ne_nil p)⟩
  · rintro ⟨rfl, ⟨hfault, hshort⟩, hvisited, hsome⟩
    rw [hfault, ← foldl_steps]
    rw [← foldl_steps] at hsome
    exact walkWith_of_visited hplain hvisited hshort hsome

/-- A path that leads to nothing, but to the directory that would hold it. -/
theorem of_locate_eq_vacant {w : World} (hplain : w.root.Plain) {followLast : Bool} {p : Path}
    {parent : List String} {name : String} {asDirectory : Bool}
    (h : w.locate followLast p = .ok (.vacant parent name asDirectory)) :
    p.place w.cwd = parent ++ [name] ∧ w.root.DirAt parent ∧
      w.root.get? (parent ++ [name]) = none ∧ IsName name ∧ Valid p := by
  rw [locate] at h
  split at h
  · cases h
  · next hfault =>
    obtain ⟨hplace, hparent, hvacant, hshort, hmem, hempty, hdot, hup⟩ :=
      of_walkWith_eq_vacant hplain h
    rw [← Path.start, foldl_steps] at hplace
    refine ⟨hplace, hparent, hvacant, ⟨hempty, hdot, hup, ?_⟩, hfault, hshort⟩
    have hname : name ∈ p.names := by
      rw [← filter_steps]
      exact List.mem_filter.2 ⟨hmem, by simp [counts, hempty, hdot]⟩
    exact (Path.mem_names hname).2.2

theorem find?_eq_some_iff {w : World} (hplain : w.root.Plain) {p : Path} {node : Node} :
    w.find? p = some node ↔
      Valid p ∧ (∀ v ∈ w.onWay p, w.root.DirAt v) ∧ w.root.get? (p.place w.cwd) = some node := by
  rw [find?]
  constructor
  · intro h
    split at h
    · next place hlocate =>
      obtain ⟨rfl, hvalid, hway, -⟩ := (locate_eq_node_iff hplain).1 hlocate
      exact ⟨hvalid, hway, h⟩
    · cases h
  · rintro ⟨hvalid, hway, hnode⟩
    rw [(locate_eq_node_iff hplain).2 ⟨rfl, hvalid, hway, by simp [hnode]⟩]
    exact hnode

theorem find?_of_not_valid {w : World} (hplain : w.root.Plain) {p : Path} (h : ¬ Valid p) :
    w.find? p = none := by
  cases hfind : w.find? p with
  | none => rfl
  | some node => exact absurd ((find?_eq_some_iff hplain).1 hfind).1 h

/-- Where a step that leads somewhere is still to come, a path is above a turn, or above its end
and not there yet. -/
theorem place_before_step {w : World} {p : Path} {front back : List String} {name : String}
    (hsteps : steps p.text = front ++ back) (hmem : name ∈ back) (hname : counts name) :
    (∃ turn, p.TurnsAt w.cwd turn ∧ front.foldl follow (p.start w.cwd) <+: turn) ∨
      ∃ next, front.foldl follow (p.start w.cwd) ++ [next] <+: p.place w.cwd := by
  have hnames : p.names = front.filter counts ++ back.filter counts := by
    rw [← filter_steps, hsteps, List.filter_append]
  have hmem' : name ∈ back.filter counts := List.mem_filter.2 ⟨hmem, hname⟩
  rw [← foldl_follow_filter]
  cases hback : back.filter counts with
  | nil =>
    rw [hback] at hmem'
    cases hmem'
  | cons first back =>
    rw [hback] at hnames
    exact Path.place_before_end w.cwd hnames

theorem counts_of_isName {name : String} (h : IsName name) : counts name := by
  simp [counts, h.1, h.2.1]

theorem exists_steps_of_endsWith {p : Path} {name : String} (h : p.EndsWith name) :
    ∃ front, steps p.text = front ++ [name] := by
  refine List.getLast?_eq_some_iff.1 ?_
  rw [steps, List.getLast?_map, ← Path.parts, h, Option.map_some, String.ofList_toList]

/-- A path that ends with a name leads to what is at its place, if its turns are directories. -/
theorem find?_of_endsWith {w : World} (hplain : w.root.Plain) {p : Path} {name : String}
    (hname : IsName name) (hends : p.EndsWith name)
    (hturns : ∀ turn, p.TurnsAt w.cwd turn → w.root.DirAt turn) (hvalid : Valid p) :
    w.find? p = w.root.get? (p.place w.cwd) := by
  cases hnode : w.root.get? (p.place w.cwd) with
  | none =>
    refine Option.eq_none_iff_forall_not_mem.2 fun node hfind => ?_
    obtain ⟨-, -, hnode'⟩ := (find?_eq_some_iff hplain).1 hfind
    rw [hnode] at hnode'
    cases hnode'
  | some node =>
    refine (find?_eq_some_iff hplain).2 ⟨hvalid, fun v hv => ?_, hnode⟩
    obtain ⟨front, back, hsteps, hback, rfl⟩ := exists_front_of_mem_visited hv
    obtain ⟨front', hlast⟩ := exists_steps_of_endsWith hends
    have hmem : name ∈ back := by
      rcases List.eq_nil_or_concat back with rfl | ⟨back, last, rfl⟩
      · exact absurd rfl hback
      · rw [hsteps, List.concat_eq_append, ← List.append_assoc] at hlast
        obtain ⟨-, heq⟩ := List.append_inj' hlast rfl
        rw [(List.cons.inj heq).1]
        simp
    obtain ⟨turn, hturn, hle⟩ | ⟨next, more, hmore⟩ :=
      place_before_step (w := w) hsteps hmem (counts_of_isName hname)
    · exact (hturns turn hturn).of_below hle
    · rw [← hmore, List.append_assoc] at hnode
      exact DirAt.of_get? hnode (List.prefix_append _ _) (by simp)

/-- What is found under a path is at its place, whether or not a last link is followed. -/
theorem locate_of_find? {w : World} (hplain : w.root.Plain) {p : Path} {node : Node}
    (h : w.find? p = some node) (followLast : Bool) :
    w.locate followLast p = .ok (.node (p.place w.cwd)) ∧
      w.root.get? (p.place w.cwd) = some node := by
  obtain ⟨hvalid, hway, hnode⟩ := (find?_eq_some_iff hplain).1 h
  exact ⟨(locate_eq_node_iff hplain).2 ⟨rfl, hvalid, hway, by rw [hnode]; rfl⟩, hnode⟩

theorem mem_visited (here front : List String) (name : String) (back : List String) :
    front.foldl follow here ∈ visited here (front ++ name :: back) := by
  induction front generalizing here with
  | nil => exact List.mem_cons_self ..
  | cons first front ih => exact List.mem_cons_of_mem _ (ih _)

/-- The steps up to a turn. -/
theorem exists_steps_of_turnsAt {p : Path} {cwd turn : List String} (h : p.TurnsAt cwd turn) :
    ∃ front back, steps p.text = front ++ ".." :: back ∧
      front.foldl follow (p.start cwd) = turn := by
  obtain ⟨front, ⟨back, hnames⟩, rfl⟩ := h
  rw [← filter_steps, List.append_assoc, eq_comm, List.filter_eq_append_iff] at hnames
  obtain ⟨before, after, hsteps, rfl, hafter⟩ := hnames
  rw [List.singleton_append, List.filter_eq_cons_iff] at hafter
  obtain ⟨blanks, rest, rfl, hblanks, -, -⟩ := hafter
  have hnone : blanks.filter counts = [] := List.filter_eq_nil_iff.2 hblanks
  refine ⟨before ++ blanks, rest, by rw [hsteps, List.append_assoc], ?_⟩
  rw [← foldl_follow_filter, List.filter_append, hnone, List.append_nil]

theorem mem_onWay_of_turnsAt {w : World} {p : Path} {turn : List String}
    (h : p.TurnsAt w.cwd turn) : turn ∈ w.onWay p := by
  obtain ⟨front, back, hsteps, rfl⟩ := exists_steps_of_turnsAt h
  rw [onWay, hsteps]
  exact mem_visited (p.start w.cwd) front ".." back

/-- A path that leads to a place where nothing is turns back at directories as well. -/
theorem dirAt_of_locate_eq_vacant {w : World} (hplain : w.root.Plain)
    {followLast asDirectory : Bool} {p : Path} {parent : List String} {last : String}
    (h : w.locate followLast p = .ok (.vacant parent last asDirectory)) {turn : List String}
    (hturn : p.TurnsAt w.cwd turn) : w.root.DirAt turn := by
  obtain ⟨front, back, hsteps, rfl⟩ := exists_steps_of_turnsAt hturn
  rw [locate] at h
  split at h
  · cases h
  · rw [hsteps, ← Path.start] at h
    exact dirAt_of_walkWith_eq_vacant hplain h

/-- A walk sets out from places that its path goes over. -/
theorem passes_of_mem_onWay {w : World} {p : Path} {place : List String}
    (h : place ∈ w.onWay p) : p.Passes w.cwd place := by
  obtain ⟨front, back, hsteps, -, rfl⟩ := exists_front_of_mem_visited h
  refine ⟨front.filter counts, ⟨back.filter counts, ?_⟩, foldl_follow_filter _ _⟩
  rw [← List.filter_append, ← hsteps, filter_steps]

/-- A path that leads somewhere turns back at directories. -/
theorem dirAt_of_turnsAt {w : World} (hplain : w.root.Plain) {p : Path} {node : Node}
    (h : w.find? p = some node) {turn : List String} (hturn : p.TurnsAt w.cwd turn) :
    w.root.DirAt turn :=
  ((find?_eq_some_iff hplain).1 h).2.1 _ (mem_onWay_of_turnsAt hturn)

/-- A path that leads to a file ends with its name. -/
theorem endsWith_of_isFile {w : World} (hplain : w.root.Plain) {p : Path} {data : ByteArray}
    {executable : Bool} (h : w.find? p = some (.file data executable)) :
    ∃ name, IsName name ∧ p.EndsWith name := by
  obtain ⟨-, hway, hfile⟩ := (find?_eq_some_iff hplain).1 h
  obtain ⟨front, last, hparts⟩ : ∃ front last, p.parts = front ++ [last] := by
    obtain hnil | ⟨front, last, hparts⟩ := List.eq_nil_or_concat p.parts
    · exact absurd hnil p.parts_ne_nil
    · exact ⟨front, last, by rw [hparts, List.concat_eq_append]⟩
  refine ⟨String.ofList last, ?_, by rw [Path.EndsWith, hparts, List.getLast?_concat,
    String.toList_ofList]⟩
  have hsteps : steps p.text = front.map String.ofList ++ [String.ofList last] := by
    rw [steps, ← Path.parts, hparts, List.map_append, List.map_singleton]
  have hdir : w.root.DirAt ((front.map String.ofList).foldl follow (p.start w.cwd)) :=
    hway _ (by rw [onWay, hsteps]; exact mem_visited ..)
  have hplace : p.place w.cwd
      = follow ((front.map String.ofList).foldl follow (p.start w.cwd)) (String.ofList last) := by
    rw [← foldl_steps, hsteps, List.foldl_append]
    rfl
  have hnot : ¬ w.root.DirAt (p.place w.cwd) := FileAt.not_dirAt ⟨data, executable, hfile⟩
  rw [hplace, follow] at hnot
  split at hnot
  · exact absurd hdir hnot
  · next hstay =>
    rw [not_or] at hstay
    split at hnot
    · exact absurd (hdir.of_below (List.dropLast_prefix _)) hnot
    · next hup =>
      refine ⟨hstay.1, hstay.2, hup, ?_⟩
      rw [String.toList_ofList]
      exact Path.not_mem_of_mem_parts (p := p) (by rw [hparts]; simp)

/-! ## The directory that holds the last name -/

theorem exists_steps (p : Path) :
    ∃ blanks, (∀ name ∈ blanks, name = "") ∧
      steps p.text = (((steps p.text).reverse.dropWhile (· = "")).drop 1).reverse
        ++ ((steps p.text).reverse.dropWhile (· = "")).head?.toList ++ blanks := by
  refine ⟨((steps p.text).reverse.takeWhile (· = "")).reverse, fun name hname => ?_, ?_⟩
  · simpa using List.mem_takeWhile_imp (List.mem_reverse.1 hname)
  · have hcat := List.takeWhile_append_dropWhile (p := (· = "")) (l := (steps p.text).reverse)
    have hhead : ∀ names : List String, (names.drop 1).reverse ++ names.head?.toList
        = names.reverse := by
      intro names
      cases names <;> simp
    rw [hhead, ← List.reverse_append, hcat, List.reverse_reverse]

theorem foldl_follow_blanks {blanks : List String} (h : ∀ name ∈ blanks, name = "")
    (here : List String) : blanks.foldl follow here = here := by
  have hnone : blanks.filter counts = [] := List.filter_eq_nil_iff.2 fun name hname => by
    simp [h name hname, counts]
  rw [← foldl_follow_filter, hnone, List.foldl_nil]

/-- The directory and the name that a path was cut into. -/
theorem of_locateParent {w : World} (hplain : w.root.Plain) {p : Path} {parent : List String}
    {name : String} {slash : Bool} (h : w.locateParent p = .ok (parent, name, slash))
    (hproper : name ≠ "" ∧ name ≠ "." ∧ name ≠ "..") (hshort : name.utf8ByteSize ≤ nameLimit) :
    p.place w.cwd = parent ++ [name] ∧ w.root.DirAt parent ∧ IsName name ∧ Valid p := by
  obtain ⟨blanks, hblanks, hsteps⟩ := exists_steps p
  rw [locateParent] at h
  split at h
  · cases h
  · next hfault =>
    simp only [bind, Except.bind] at h
    generalize (steps p.text).reverse.dropWhile (· = "") = last at h hsteps
    split at h
    · cases h
    · next place hwalk =>
      split at h
      · cases h
      · next parent' =>
        split at h
        · next entries hdir =>
          cases h
          cases last with
          | nil => exact absurd rfl hproper.1
          | cons first front =>
            obtain ⟨hparent, -, hshort', -⟩ := of_walkWith_eq_node hplain hwalk
            simp only [List.drop_succ_cons, List.drop_zero, List.head?_cons, Option.toList_some,
              Option.getD_some] at hparent hshort' hsteps hproper hshort ⊢
            have hname : first ∈ p.names := by
              rw [← filter_steps, hsteps]
              refine List.mem_filter.2 ⟨by simp, ?_⟩
              simp [counts, hproper]
            refine ⟨?_, ⟨entries, hdir⟩,
              ⟨hproper.1, hproper.2.1, hproper.2.2, (Path.mem_names hname).2.2⟩, hfault, ?_⟩
            · rw [← foldl_steps, hsteps, List.foldl_append, foldl_follow_blanks hblanks,
                List.foldl_append, Path.start, ← hparent]
              simp [follow, hproper]
            · rw [hsteps]
              intro name hmem hempty
              simp only [List.mem_append, List.mem_singleton] at hmem
              obtain (hmem | rfl) | hmem := hmem
              · exact hshort' name hmem hempty
              · exact fun _ _ => hshort
              · exact absurd (hblanks name hmem) hempty
        · cases h
        · cases h

/-- A path that ends with a name goes over directories to the one that holds the name. -/
theorem exists_way {w : World} {p : Path} {name : String} (hname : IsName name)
    (hends : p.EndsWith name) (hturns : ∀ turn, p.TurnsAt w.cwd turn → w.root.DirAt turn)
    {parent : List String} (hplace : p.place w.cwd = parent ++ [name])
    (hparent : w.root.DirAt parent) :
    ∃ front, steps p.text = front ++ [name] ∧ front.foldl follow (p.start w.cwd) = parent ∧
      ∀ v ∈ visited (p.start w.cwd) front, w.root.DirAt v := by
  obtain ⟨front, hsteps⟩ := exists_steps_of_endsWith hends
  refine ⟨front, hsteps, ?_, fun v hv => ?_⟩
  · rw [← foldl_steps, hsteps, List.foldl_append, List.foldl_cons, follow,
      if_neg (not_or.2 ⟨hname.1, hname.2.1⟩), if_neg hname.2.2.1] at hplace
    exact (List.append_inj' hplace rfl).1
  · obtain ⟨front', back, rfl, -, rfl⟩ := exists_front_of_mem_visited hv
    rw [List.append_assoc] at hsteps
    obtain ⟨turn, hturn, hle⟩ | ⟨next, hnext⟩ :=
      place_before_step (w := w) hsteps (by simp) (counts_of_isName hname)
    · exact (hturns turn hturn).of_below hle
    · rw [hplace, List.prefix_concat_iff] at hnext
      obtain heq | hnext := hnext
      · rw [(List.append_inj' heq rfl).1]
        exact hparent
      · exact hparent.of_below ((List.prefix_append _ _).trans hnext)

/-- Of a path that ends with a name the directory is found, if its turns are directories. -/
theorem locateParent_of_endsWith {w : World} (hplain : w.root.Plain) {p : Path} {name : String}
    (hname : IsName name) (hends : p.EndsWith name)
    (hturns : ∀ turn, p.TurnsAt w.cwd turn → w.root.DirAt turn) (hvalid : Valid p)
    {parent : List String} (hplace : p.place w.cwd = parent ++ [name])
    (hparent : w.root.DirAt parent) : w.locateParent p = .ok (parent, name, false) := by
  obtain ⟨front, hsteps, hend, hvisited⟩ := exists_way hname hends hturns hplace hparent
  obtain ⟨entries, hentries⟩ := hparent
  have hwalk : walk w.root true linkLimit (p.start w.cwd) front = .ok (.node parent) := by
    have hshort : Short front := fun name hmem => hvalid.2 name (by simp [hsteps, hmem])
    have hsome : (w.root.get? (front.foldl follow (p.start w.cwd))).isSome := by
      rw [hend, hentries]
      rfl
    rw [← hend]
    exact walkWith_of_visited hplain hvisited hshort hsome
  have hdrop : (front ++ [name]).reverse.dropWhile (· = "") = name :: front.reverse := by
    simp [hname.1]
  rw [Path.start] at hwalk
  simp only [locateParent, hvalid.1, hsteps, hdrop, List.drop_succ_cons, List.drop_zero,
    List.reverse_reverse, bind, Except.bind, hwalk, hentries]
  simp [hname.1]

/-- So is the place where nothing is yet. -/
theorem locate_of_vacant {w : World} (hplain : w.root.Plain) {p : Path} {name : String}
    (hname : IsName name) (hends : p.EndsWith name)
    (hturns : ∀ turn, p.TurnsAt w.cwd turn → w.root.DirAt turn) (hvalid : Valid p)
    {parent : List String} (hplace : p.place w.cwd = parent ++ [name])
    (hparent : w.root.DirAt parent) (hvacant : w.root.get? (parent ++ [name]) = none)
    (followLast : Bool) : w.locate followLast p = .ok (.vacant parent name false) := by
  obtain ⟨front, hsteps, hend, hvisited⟩ := exists_way hname hends hturns hplace hparent
  have hshort : Short front := fun name hmem => hvalid.2 name (by simp [hsteps, hmem])
  have hlast : Short [name] := by
    rw [Short, List.forall_mem_singleton]
    exact hvalid.2 name (by simp [hsteps])
  have hfollow : follow parent name = parent ++ [name] := by
    rw [follow, if_neg (not_or.2 ⟨hname.1, hname.2.1⟩), if_neg hname.2.2.1]
  have hsome : (w.root.get? (front.foldl follow (p.start w.cwd))).isSome := by
    obtain ⟨entries, hentries⟩ := hparent
    rw [hend, hentries]
    rfl
  rw [locate, hvalid.1, hsteps]
  dsimp only
  have hwalk : ∀ onLink, walkWith w.root followLast onLink (p.start w.cwd) (front ++ [name])
      = .ok (.vacant parent name false) := by
    intro onLink
    rw [walkWith_append hplain hvisited hshort hsome, hend,
      (walkWith_stop hparent hlast (hfollow ▸ hvacant)).2.2]
    rfl
  exact hwalk _

end World

end StubManager
