import StubManager.Proofs.FileTree.Actions

/-!
# Effects of file operations

For each operation on one entry the ways in which it ends: it fails and leaves the world as it was
(`writeWith_cases`, `removeFile_cases`, `removeTree_cases`, `rename_cases`), or it changes the
entries at the places of its paths. `keeps_makeDirectories`: directories are made above the place of
a path only, if it turns back at directories.
-/

namespace StubManager

open Node Running

namespace World

/-- What is found at a place stands there under a proper name. -/
theorem isName_getLast? {root node : Node} (hplain : root.Plain) {place : List String}
    (hnode : root.get? place = some node) (name : String) (hname : place.getLast? = some name) :
    IsName name := by
  obtain ⟨parent, rfl⟩ := List.getLast?_eq_some_iff.1 hname
  exact hplain.isName hnode

end World

namespace Files

open World

variable {w : World}

/-! ## One entry -/

/-- A file is written where nothing is yet or in the place of a file. -/
theorem writeWith_cases (hplain : w.root.Plain) (executable : Option Bool) (p : Path)
    (data : ByteArray) :
    (∃ fault, writeWith executable p data w = (.error fault, w)) ∨
      (∃ parent name, p.place w.cwd = parent ++ [name] ∧ IsName name ∧ Valid p ∧
        w.root.DirAt parent ∧ w.root.get? (parent ++ [name]) = none ∧
        writeWith executable p data w
          = (.ok (), w.put (parent ++ [name]) (.file data (executable.getD false)))) ∨
      ∃ old mode, w.find? p = some (.file old mode) ∧
        writeWith executable p data w
          = (.ok (), w.put (p.place w.cwd) (.file data (executable.getD mode))) := by
  rw [writeWith, bind_apply, orFault_apply]
  cases hlocate : w.locate true p with
  | error fault => exact .inl ⟨fault, rfl⟩
  | ok place =>
    cases place with
    | vacant parent name asDirectory =>
      obtain ⟨hplace, hparent, hvacant, hname, hvalid⟩ := of_locate_eq_vacant hplain hlocate
      cases asDirectory with
      | true => exact .inl ⟨_, rfl⟩
      | false => exact .inr (.inl ⟨parent, name, hplace, hname, hvalid, hparent, hvacant, rfl⟩)
    | node place =>
      have hfind : w.find? p = w.root.get? place := by rw [find?, hlocate]
      obtain ⟨rfl, -, -, -⟩ := (locate_eq_node_iff hplain).1 hlocate
      simp only [bind_apply, get_apply]
      cases hnode : w.root.get? (p.place w.cwd) with
      | none => exact .inl ⟨_, rfl⟩
      | some node =>
        cases node with
        | file old mode => exact .inr (.inr ⟨old, mode, hfind.trans hnode, rfl⟩)
        | link target => exact .inl ⟨_, rfl⟩
        | directory entries => exact .inl ⟨_, rfl⟩

theorem write_of_isFile (hplain : w.root.Plain) {p : Path} {old : ByteArray} {mode : Bool}
    (h : w.find? p = some (.file old mode)) (data : ByteArray) :
    write p data w = (.ok (), w.put (p.place w.cwd) (.file data mode)) := by
  obtain ⟨hlocate, hnode⟩ := locate_of_find? hplain h true
  simp only [write, writeWith, bind_apply, orFault_apply, hlocate, get_apply, hnode]
  rfl

theorem write_of_vacant (hplain : w.root.Plain) {p : Path} {name : String} (hname : IsName name)
    (hends : p.EndsWith name) (hturns : ∀ turn, p.TurnsAt w.cwd turn → w.root.DirAt turn)
    (hvalid : Valid p) {parent : List String} (hplace : p.place w.cwd = parent ++ [name])
    (hparent : w.root.DirAt parent) (hvacant : w.root.get? (parent ++ [name]) = none)
    (data : ByteArray) :
    write p data w = (.ok (), w.put (parent ++ [name]) (.file data false)) := by
  rw [write, writeWith, bind_apply, orFault_apply,
    locate_of_vacant hplain hname hends hturns hvalid hplace hparent hvacant true]
  rfl

theorem removeFile_of_isFile (hplain : w.root.Plain) {p : Path} {data : ByteArray} {mode : Bool}
    (h : w.find? p = some (.file data mode)) :
    removeFile p w = (.ok (), w.erase (p.place w.cwd)) := by
  obtain ⟨hlocate, hnode⟩ := locate_of_find? hplain h false
  simp only [removeFile, bind_apply, orFault_apply, hlocate, get_apply, hnode]
  rfl

theorem removeTree_of_isDirectory (hplain : w.root.Plain) {p : Path}
    {entries : List (String × Node)} (h : w.find? p = some (.directory entries)) :
    removeTree p w = (.ok (), w.erase (p.place w.cwd)) := by
  obtain ⟨hlocate, hnode⟩ := locate_of_find? hplain h false
  simp only [removeTree, bind_apply, orFault_apply, hlocate, get_apply, hnode]
  rfl

/-- A directory is removed, and nothing else. -/
theorem removeTree_cases (hplain : w.root.Plain) (p : Path) :
    (∃ fault, removeTree p w = (.error fault, w)) ∨
      ∃ entries, w.find? p = some (.directory entries) ∧
        removeTree p w = (.ok (), w.erase (p.place w.cwd)) := by
  rw [removeTree, bind_apply, orFault_apply]
  cases hlocate : w.locate false p with
  | error fault => exact .inl ⟨fault, rfl⟩
  | ok place =>
    cases place with
    | vacant parent name asDirectory => exact .inl ⟨_, rfl⟩
    | node place =>
      obtain ⟨rfl, hvalid, hway, -⟩ := (locate_eq_node_iff hplain).1 hlocate
      simp only [bind_apply, get_apply]
      cases hnode : w.root.get? (p.place w.cwd) with
      | none => exact .inl ⟨_, rfl⟩
      | some node =>
        cases node with
        | file data mode => exact .inl ⟨_, rfl⟩
        | link target => exact absurd hnode (hplain.linkless _ _)
        | directory entries =>
          exact .inr ⟨entries, (find?_eq_some_iff hplain).2 ⟨hvalid, hway, hnode⟩, rfl⟩

theorem makeDirectory_cases (hplain : w.root.Plain) (p : Path) :
    (∃ fault, makeDirectory p w = (.error fault, w)) ∨
      ∃ parent name, p.place w.cwd = parent ++ [name] ∧ IsName name ∧ w.root.DirAt parent ∧
        w.root.get? (parent ++ [name]) = none ∧
        makeDirectory p w = (.ok (), w.put (parent ++ [name]) (.directory [])) := by
  rw [makeDirectory, bind_apply, orFault_apply]
  cases hlocate : w.locate false p with
  | error fault => exact .inl ⟨fault, rfl⟩
  | ok place =>
    cases place with
    | node place => exact .inl ⟨_, rfl⟩
    | vacant parent name asDirectory =>
      obtain ⟨hplace, hparent, hvacant, hname, -⟩ := of_locate_eq_vacant hplain hlocate
      exact .inr ⟨parent, name, hplace, hname, hparent, hvacant, rfl⟩

/-! ## Directories on the way -/

/-- What making a directory keeps, if there is none yet above the place of the path. -/
theorem keeps_makeDirectory {I : World → Prop} {p : Path} (hplain : ∀ w, I w → w.root.Plain)
    (hmake : ∀ w parent name, I w → p.place w.cwd = parent ++ [name] → IsName name →
      w.root.DirAt parent → w.root.get? (parent ++ [name]) = none →
      I (w.put (parent ++ [name]) (.directory []))) : Keeps I (makeDirectory p) := by
  intro w hw
  obtain ⟨fault, h⟩ | ⟨parent, name, hplace, hname, hparent, hvacant, h⟩ :=
    makeDirectory_cases (hplain w hw) p
  · rwa [h]
  · rw [h]
    exact hmake w parent name hw hplace hname hparent hvacant

theorem keeps_makeFirst {I : World → Prop} {paths : List Path}
    (h : ∀ p ∈ paths, Keeps I (makeDirectory p)) : Keeps I (makeFirst paths) := by
  induction paths with
  | nil => exact keeps_throw _
  | cons p paths ih =>
    rw [List.forall_mem_cons] at h
    have hthere : ∀ fault, Keeps I (unlessThere p fault) := by
      intro fault
      refine (keeps_ask _).bind fun _ isDirectory _ _ => ?_
      split
      · exact keeps_pure _
      · exact keeps_throw _
    rw [makeFirst]
    split
    · exact keeps_pure _
    · refine h.1.tryCatch fun fault => ?_
      split
      · exact (ih h.2).bind fun _ _ _ _ => h.1.tryCatch hthere
      · exact hthere _

/-- Directories are made at the place of a path and above, if its turns are directories. -/
theorem keeps_makeDirectories {I : World → Prop} {p : Path} (hplain : ∀ w, I w → w.root.Plain)
    (hturns : ∀ w, I w → ∀ turn, p.TurnsAt w.cwd turn → w.root.DirAt turn)
    (hmake : ∀ w parent name, I w → parent ++ [name] <+: p.place w.cwd → IsName name →
      w.root.DirAt parent → w.root.get? (parent ++ [name]) = none →
      I (w.put (parent ++ [name]) (.directory []))) : Keeps I (makeDirectories p) := by
  refine keeps_makeFirst fun q hq => keeps_makeDirectory hplain ?_
  intro w parent name hw hplace hname hparent hvacant
  obtain ⟨⟨back, hnames⟩, habsolute⟩ := Path.ancestors_spec hq
  refine hmake w parent name hw ?_ hname hparent hvacant
  cases back with
  | nil =>
    rw [Path.place, ← hnames, List.append_nil, ← Path.start_eq habsolute, ← Path.place, hplace]
  | cons first back =>
    rw [Path.place, Path.start_eq habsolute] at hplace
    obtain ⟨turn, hturn, hle⟩ | ⟨next, hnext⟩ := Path.place_before_end w.cwd hnames.symm
    · rw [hplace] at hle
      exact absurd ((hturns w hw turn hturn).of_below hle) (not_dirAt_of_none hvacant)
    · rw [hplace] at hnext
      exact (List.prefix_append _ _).trans hnext

/-! ## Moves -/

/-- A move takes a node to a place that is free, or holds what the node may replace. -/
theorem rename_cases (hplain : w.root.Plain) (source target : Path) :
    (∃ fault, rename source target w = (.error fault, w)) ∨
      (source.place w.cwd = target.place w.cwd ∧ Valid target ∧
        rename source target w = (.ok (), w)) ∨
      ∃ parent name node,
        target.place w.cwd = parent ++ [name] ∧ IsName name ∧ Valid source ∧ Valid target ∧
        w.root.DirAt parent ∧ w.root.get? (source.place w.cwd) = some node ∧
        (w.root.get? (target.place w.cwd)).bind (replaceFault? node) = none ∧
        rename source target w
          = (.ok (), (w.erase (source.place w.cwd)).put (target.place w.cwd) node) := by
  rw [rename, bind_apply, orFault_apply]
  cases hsource : w.locateParent source with
  | error fault => exact .inl ⟨_, rfl⟩
  | ok sourceSplit =>
    obtain ⟨sourceParent, sourceName, sourceSlash⟩ := sourceSplit
    simp only [bind_apply, orFault_apply]
    cases htarget : w.locateParent target with
    | error fault => exact .inl ⟨_, rfl⟩
    | ok targetSplit =>
      obtain ⟨targetParent, targetName, targetSlash⟩ := targetSplit
      dsimp only
      split
      · exact .inl ⟨_, rfl⟩
      next hspecial =>
      split
      · exact .inl ⟨_, rfl⟩
      next hlong =>
      rw [bind_apply, get_apply]
      dsimp only
      simp only [Bool.or_eq_true, decide_eq_true_eq, not_or, Nat.not_lt] at hspecial hlong
      obtain ⟨hplace, -, -, hvalid⟩ := of_locateParent hplain hsource
        ⟨hspecial.1.1.1, hspecial.1.1.2, hspecial.1.2⟩ hlong.1
      obtain ⟨hplace', hparent', hname', hvalid'⟩ := of_locateParent hplain htarget
        ⟨hspecial.2.1.1, hspecial.2.1.2, hspecial.2.2⟩ hlong.2
      rw [← hplace, ← hplace']
      cases hnode : w.root.get? (source.place w.cwd) with
      | none => exact .inl ⟨_, rfl⟩
      | some node =>
      dsimp only
      split
      · exact .inl ⟨_, rfl⟩
      split
      · exact .inl ⟨_, rfl⟩
      split
      · exact .inl ⟨_, rfl⟩
      split
      · next heq => exact .inr (.inl ⟨heq, hvalid', rfl⟩)
      cases hreplace : (w.root.get? (target.place w.cwd)).bind (replaceFault? node) with
      | some fault => exact .inl ⟨_, rfl⟩
      | none =>
        exact .inr (.inr ⟨targetParent, targetName, node, hplace', hname', hvalid, hvalid',
          hparent', rfl, hreplace, rfl⟩)

/-! ## Reading -/

/-- Reading changes nothing and gives the contents of a file. -/
theorem read_cases (p : Path) :
    (∃ fault, read p w = (.error fault, w)) ∨
      ∃ data mode, w.find? p = some (.file data mode) ∧ read p w = (.ok data, w) := by
  rw [read, bind_apply, orFault_apply]
  cases hlocate : w.locate true p with
  | error fault => exact .inl ⟨fault, rfl⟩
  | ok place =>
    cases place with
    | vacant parent name asDirectory => exact .inl ⟨_, rfl⟩
    | node place =>
      simp only [bind_apply, get_apply]
      cases hnode : w.root.get? place with
      | none => exact .inl ⟨_, rfl⟩
      | some node =>
        cases node with
        | file data mode => exact .inr ⟨data, mode, by rw [find?, hlocate]; exact hnode, rfl⟩
        | link target => exact .inl ⟨_, rfl⟩
        | directory entries => exact .inl ⟨_, rfl⟩

theorem read_of_find? {p : Path} {data : ByteArray} {mode : Bool}
    (h : w.find? p = some (.file data mode)) : read p w = (.ok data, w) := by
  rw [find?] at h
  split at h
  · next place hlocate =>
    simp only [read, bind_apply, orFault_apply, hlocate, get_apply, h]
    rfl
  · cases h

end Files

end StubManager
