import StubManager.Proofs.FileTree.Changes

/-!
# Replacing files

`replace_cases`: a replacement that fails leaves behind at most directories that it made on the way,
and one that succeeds has changed the file and nothing else. The draft is gone in both cases.
-/

namespace StubManager

open Node Running World

namespace Files

/-! ## Names of drafts -/

theorem exists_of_mem_temporaryNames {stem name : String} (h : name ∈ temporaryNames stem) :
    ∃ tail, name = stem ++ tail ∧ '/' ∉ tail.toList := by
  have htail : ∀ n ∈ List.range 64, '/' ∉ ("X" ++ Timestamp.padded 5 n).toList := by
    decide +kernel
  obtain rfl | h := List.mem_cons.1 h
  · exact ⟨"XXXXXX", rfl, by decide⟩
  · obtain ⟨n, hn, rfl⟩ := List.mem_map.1 h
    exact ⟨"X" ++ Timestamp.padded 5 n, String.append_assoc, htail n hn⟩

theorem isName_of_mem_temporaryNames {stem name : String} (hslash : '/' ∉ stem.toList)
    (hlength : 2 < stem.length) (h : name ∈ temporaryNames stem) : IsName name := by
  obtain ⟨tail, rfl, htail⟩ := exists_of_mem_temporaryNames h
  have hlong : 2 < (stem ++ tail).length := by
    rw [String.length_append]
    omega
  refine ⟨?_, ?_, ?_, ?_⟩
  · exact fun heq => absurd (heq ▸ hlong) (by decide)
  · exact fun heq => absurd (heq ▸ hlong) (by decide)
  · exact fun heq => absurd (heq ▸ hlong) (by decide)
  · rw [String.toList_append, List.mem_append]
    exact not_or.2 ⟨hslash, htail⟩

theorem ne_of_mem_temporaryNames {stem name other : String}
    (hother : ¬ stem.toList <+: other.toList) (h : name ∈ temporaryNames stem) : name ≠ other := by
  obtain ⟨tail, rfl, -⟩ := exists_of_mem_temporaryNames h
  rintro rfl
  rw [String.toList_append] at hother
  exact hother (List.prefix_append _ _)

/-- The name that is chosen for a temporary entry leads to nothing. -/
theorem of_freeName? {directory : Path} {stem name : String} {w : World}
    (h : freeName? directory stem w = some name) :
    name ∈ temporaryNames stem ∧
      ∀ place, w.locate false (directory.join name) ≠ .ok (.node place) := by
  rw [freeName?] at h
  refine ⟨List.mem_of_find?_eq_some h, fun place hplace => ?_⟩
  have hfree := List.find?_some h
  rw [isTaken, hplace] at hfree
  cases hfree

/-! ## Replacing -/

variable {w : World}

section

variable {directory source p : Path} {parent : List String} {name draft : String}

/-- A draft takes nothing away, and can be taken away again. -/
theorem put_draft (hplain : w.root.Plain) (hdraft : IsName draft) (hparent : w.root.DirAt parent)
    (hvacant : w.root.get? (parent ++ [draft]) = none) (data : ByteArray) :
    ∃ w', w.put (parent ++ [draft]) (.file data false) = w' ∧ w'.cwd = w.cwd ∧ w'.root.Plain ∧
      w'.root.get? (parent ++ [draft]) = some (.file data false) ∧
      w'.erase (parent ++ [draft]) = w ∧ ∀ place, w.root.DirAt place → w'.root.DirAt place := by
  refine ⟨_, rfl, rfl, ?_, hplain.get?_alter_self hparent, ?_, fun place hdir => ?_⟩
  · refine hplain.alter fun node hnode => ?_
    cases hnode
    exact ⟨by simpa using hdraft, plain_file _ _⟩
  · have hroot := hplain.erase_put hparent hvacant (.file data false)
    exact congrArg (fun root => { w with root }) hroot
  · exact (dirAt_alter_iff _ fun hle => not_dirAt_of_none hvacant (hdir.of_below hle)).2 hdir

/-- A draft gets into the place of a file, or stays where it is. -/
theorem rename_draft (hplain : w.root.Plain) (hdraft : IsName draft) (hparent : w.root.DirAt parent)
    (hvacant : w.root.get? (parent ++ [draft]) = none) (data : ByteArray)
    (hat : source.place w.cwd = parent ++ [draft]) (hplace : p.place w.cwd = parent ++ [name]) :
    (∃ fault, rename source p (w.put (parent ++ [draft]) (.file data false))
        = (.error fault, w.put (parent ++ [draft]) (.file data false))) ∨
      ¬ w.root.DirAt (parent ++ [name]) ∧ Valid p ∧
        rename source p (w.put (parent ++ [draft]) (.file data false))
          = (.ok (), w.put (parent ++ [name]) (.file data false)) := by
  obtain ⟨w', hw', hcwd, hplain', hnode, herase, hdirs⟩ :=
    put_draft hplain hdraft hparent hvacant data
  rw [← hcwd] at hat hplace
  rw [hw']
  obtain ⟨fault, h⟩ | ⟨heq, hvalid, h⟩ | ⟨_, _, node, -, -, -, hvalid, -, hsource, hreplace, h⟩ :=
    rename_cases hplain' source p
  · exact .inl ⟨fault, h⟩
  · rw [hat, hplace] at heq
    rw [← heq, h, hw']
    exact .inr ⟨not_dirAt_of_none hvacant, hvalid, rfl⟩
  · rw [hat, hnode] at hsource
    cases hsource
    refine .inr ⟨fun hdir => ?_, hvalid, by rw [h, hat, hplace, herase]⟩
    obtain ⟨entries, hentries⟩ := hdirs _ hdir
    rw [hplace, hentries] at hreplace
    cases entries <;> cases hreplace

/-- A draft that is taken away leaves nothing behind. -/
theorem removeFile_draft (hplain : w.root.Plain) (hdraft : IsName draft)
    (hparent : w.root.DirAt parent) (hvacant : w.root.get? (parent ++ [draft]) = none)
    (data : ByteArray) (hat : (directory.join draft).place w.cwd = parent ++ [draft])
    (hturns : ∀ turn, directory.TurnsAt w.cwd turn → w.root.DirAt turn)
    (hvalid : Valid (directory.join draft)) :
    removeFile (directory.join draft) (w.put (parent ++ [draft]) (.file data false))
      = (.ok (), w) := by
  obtain ⟨w', hw', hcwd, hplain', hnode, herase, hdirs⟩ :=
    put_draft hplain hdraft hparent hvacant data
  rw [← hcwd] at hat hturns
  have hfound := find?_of_endsWith hplain' hdraft (Path.endsWith_join directory hdraft)
    (fun turn hturn => hdirs turn (hturns turn ((Path.turnsAt_join hdraft).1 hturn))) hvalid
  rw [hat, hnode] at hfound
  rw [hw', removeFile_of_isFile hplain' hfound, hat, herase]

/-- A draft that does not get into the place of a file is taken back. -/
theorem replaceBy_cases (hplain : w.root.Plain) (hplace : directory.place w.cwd = parent)
    (hplace' : p.place w.cwd = parent ++ [name])
    (hturns : ∀ turn, directory.TurnsAt w.cwd turn → w.root.DirAt turn) (hdraft : IsName draft)
    (hfree : ∀ place, w.locate false (directory.join draft) ≠ .ok (.node place))
    (data : ByteArray) :
    (∃ fault, replaceBy (directory.join draft) p data w = (.error fault, w)) ∨
      ¬ w.root.DirAt (p.place w.cwd) ∧ w.root.DirAt parent ∧ Valid p ∧
        replaceBy (directory.join draft) p data w
          = (.ok (), w.put (p.place w.cwd) (.file data false)) := by
  rw [replaceBy, bind_apply, write]
  obtain ⟨fault, h⟩ | ⟨parent', draft', hat, -, hvalid, hparent, hvacant, h⟩ |
      ⟨old, mode, hfind, -⟩ := writeWith_cases hplain none (directory.join draft) data
  · exact .inl ⟨fault, by rw [h]⟩
  · have hjoin := (Path.place_join directory hdraft w.cwd).symm.trans hat
    rw [hplace] at hjoin
    obtain ⟨rfl, hlast⟩ := List.append_inj' hjoin rfl
    obtain rfl := (List.cons.inj hlast).1
    rw [h]
    dsimp only [Option.getD_none]
    rw [tryCatch_apply]
    obtain ⟨fault, h'⟩ | ⟨hnot, hvalid', h'⟩ :=
      rename_draft hplain hdraft hparent hvacant data hat hplace'
    · rw [h']
      dsimp only
      rw [bind_apply, orElse_apply,
        removeFile_draft hplain hdraft hparent hvacant data hat hturns hvalid]
      exact .inl ⟨fault, rfl⟩
    · rw [h', hplace']
      exact .inr ⟨hnot, hparent, hvalid', rfl⟩
  · exact absurd (locate_of_find? hplain hfind false).1 (hfree _)

end

/-- The directory of a path that ends with a name goes by the names before. -/
theorem names_holder {p : Path} {name : String} (hname : IsName name) (hends : p.EndsWith name) :
    p.names = (holder p).names ++ [name] ∧ p.isAbsolute = (holder p).isAbsolute := by
  obtain ⟨parent, hparent⟩ := Path.exists_parent? hname hends
  obtain ⟨hnames, habsolute⟩ := Path.names_parent? hparent
  rw [Path.names_of_endsWith hname hends, holder, hparent, ← hnames, ← habsolute]
  dsimp only
  split
  · next hempty =>
    -- the working directory goes by a full stop, which has no names either
    obtain rfl : parent = ⟨""⟩ := congrArg Path.mk hempty
    exact ⟨rfl, rfl⟩
  · exact ⟨rfl, rfl⟩

theorem place_holder {p : Path} {name : String} (hname : IsName name) (hends : p.EndsWith name)
    (cwd : List String) : p.place cwd = (holder p).place cwd ++ [name] :=
  Path.place_of_names hname (names_holder hname hends).1 (names_holder hname hends).2 cwd

theorem passes_holder {p : Path} {name : String} (hname : IsName name) (hends : p.EndsWith name)
    {cwd place : List String} (h : (holder p).Passes cwd place) : p.Passes cwd place := by
  obtain ⟨hnames, habsolute⟩ := names_holder hname hends
  refine h.extend ?_ habsolute.symm
  rw [hnames]
  exact List.prefix_append _ _

/-- A file is replaced as a whole or not at all. -/
theorem replace_cases (hplain : w.root.Plain) {p : Path} {name : String} (hname : IsName name)
    (hends : p.EndsWith name) (hturns : ∀ turn, p.TurnsAt w.cwd turn → w.root.DirAt turn)
    (data : ByteArray) :
    ∃ parent w', p.place w.cwd = parent ++ [name] ∧
      (∀ t, parent <+: t → Frame (· = t) w w') ∧ (w.root.DirAt parent → w' = w) ∧
      ((∃ fault, replace p data w = (.error fault, w')) ∨
        ¬ w'.root.DirAt (p.place w.cwd) ∧ w'.root.DirAt parent ∧ Valid p ∧
          replace p data w = (.ok (), w'.put (p.place w.cwd) (.file data false))) := by
  obtain ⟨hnames, habsolute⟩ := names_holder hname hends
  have hplace : p.place w.cwd = (holder p).place w.cwd ++ [name] :=
    Path.place_of_names hname hnames habsolute w.cwd
  have hturns' : ∀ turn, (holder p).TurnsAt w.cwd turn → w.root.DirAt turn := fun turn hturn =>
    hturns turn (hturn.extend (hnames ▸ List.prefix_append _ _) habsolute.symm)
  obtain ⟨hframe, hdirs, hstay⟩ := frame_makeDirectories hplain hturns'
  refine ⟨_, (makeDirectories (holder p) w).2, hplace, hframe, hstay, ?_⟩
  rw [replace, bind_apply]
  have hframe₀ := hframe _ (List.prefix_refl _)
  generalize makeDirectories (holder p) w = step at hframe₀ hdirs
  obtain ⟨result, w'⟩ := step
  cases result with
  | error fault => exact .inl ⟨fault, rfl⟩
  | ok _ =>
    dsimp only at hframe₀ hdirs ⊢
    rw [bind_apply, ask_apply]
    dsimp only
    cases hfree : freeName? (holder p) ".tmp" w' with
    | none => exact .inl ⟨_, rfl⟩
    | some draft =>
      obtain ⟨hmem, hfree⟩ := of_freeName? hfree
      rw [← hframe₀.cwd] at hplace hturns' ⊢
      exact replaceBy_cases (hframe₀.plain hplain) rfl hplace
        (fun turn hturn => hdirs turn (hturns' turn hturn))
        (isName_of_mem_temporaryNames (by decide) (by decide) hmem) hfree data

end Files

end StubManager
