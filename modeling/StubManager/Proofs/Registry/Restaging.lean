import StubManager.Proofs.FileTree.Recopying
import StubManager.Proofs.Registry.Placing

/-!
# Staging again

A stub that was staged once is staged again in another world where its directory is what it was and
there is room for a temporary directory (`exists_stage`), and the world is what it was before when
the copy is discarded.
-/

namespace StubManager

open Node Running World

/-! ## Trees that are the same -/

/-- Plain trees are the same if they are at every place where not both have a directory. -/
theorem Node.ext_of_get? {root root' : Node} (h : root.Plain) (h' : root'.Plain)
    (hsame : ∀ place, root.get? place = root'.get? place ∨
      root.DirAt place ∧ root'.DirAt place) : root = root' := by
  obtain heq | ⟨⟨entries, hentries⟩, entries', hentries'⟩ := hsame []
  · exact Option.some.inj heq
  have hroot : root = .directory entries := Option.some.inj hentries
  have hroot' : root' = .directory entries' := Option.some.inj hentries'
  rw [hroot, hroot', Node.directory.injEq]
  refine ext_of_child? (h.ordered [] entries hentries) (h'.ordered [] entries' hentries')
    fun name => ?_
  obtain heq | ⟨⟨inner, hinner⟩, inner', hinner'⟩ := hsame [name]
  · rwa [hroot, hroot', get?_singleton, get?_singleton] at heq
  rw [hroot, get?_singleton] at hinner
  rw [hroot', get?_singleton] at hinner'
  have hlt : sizeOf (Node.directory inner) < sizeOf root := by
    have hmem := List.sizeOf_lt_of_mem (mem_of_child? hinner)
    simp only [Prod.mk.sizeOf_spec] at hmem
    rw [hroot, Node.directory.sizeOf_spec entries]
    omega
  rw [hinner, hinner', Option.some.injEq]
  rw [hroot] at h
  rw [hroot'] at h'
  refine Node.ext_of_get? (h.child hinner) (h'.child hinner') fun place => ?_
  have hbelow := hsame (name :: place)
  rwa [DirAt, DirAt, get?, get?, hroot, hroot', Node.entries, Node.entries, hinner,
    hinner'] at hbelow
termination_by sizeOf root
decreasing_by exact hlt

/-! ## Paths that are as long as others -/

namespace World

/-- Whether one path can lead somewhere just as well as another, and so can what is joined to
them. -/
structure Alike (p p' : Path) : Prop where
  ends : (p.text.isEmpty || p.text.toList.getLast? == some '/')
    = (p'.text.isEmpty || p'.text.toList.getLast? == some '/')
  empty : p.text = "" ↔ p'.text = ""
  zero : '\x00' ∈ p.text.toList ↔ '\x00' ∈ p'.text.toList
  size : p.text.utf8ByteSize = p'.text.utf8ByteSize
  short : Short (steps p.text) ↔ Short (steps p'.text)

namespace Alike

variable {p p' : Path} {name name' : String}

theorem refl (p : Path) : Alike p p := ⟨rfl, .rfl, .rfl, rfl, .rfl⟩

theorem valid_iff (h : Alike p p') : Valid p ↔ Valid p' := by
  rw [Valid, Valid, h.short, pathFault?, pathFault?]
  simp only [List.contains_iff_mem, h.zero, h.empty, h.size]

end Alike

/-- The steps of a longer path are short if those of the path are and the name is. -/
theorem short_steps_join_iff (p : Path) {name : String} (hname : IsName name) :
    Short (steps (p.join name).text) ↔
      Short (steps p.text) ∧ name.utf8ByteSize ≤ nameLimit := by
  have hlast : Short [name] ↔ name.utf8ByteSize ≤ nameLimit := by
    simp [Short, hname.1, hname.2.1, hname.2.2.1]
  have hconcat : ∀ front : List (List Char),
      Short ((front ++ [name.toList]).map String.ofList) ↔
        Short (front.map String.ofList) ∧ name.utf8ByteSize ≤ nameLimit := by
    intro front
    rw [← hlast, List.map_append, List.map_singleton, String.ofList_toList, Short,
      List.forall_mem_append]
    rfl
  rw [steps, steps, ← Path.parts, ← Path.parts]
  obtain hparts | ⟨front, hfront, hparts⟩ := Path.parts_join p hname
  · rw [hparts, hconcat]
  · rw [hparts, hconcat, hfront, List.map_append, List.map_singleton, Short, Short,
      List.forall_mem_append]
    simp

theorem text_join (p : Path) {name : String} (hname : IsName name) : (p.join name).text
    = p.text ++ (if p.text.isEmpty || p.text.toList.getLast? == some '/' then "" else "/")
      ++ name := by
  rw [Path.join, Path.not_isAbsolute_of_isName hname, if_neg Bool.false_ne_true]
  split <;> simp

/-- A path that ends with a name takes a separator before the next. -/
theorem ends_join (p : Path) {name : String} (hname : IsName name) :
    ((p.join name).text.isEmpty || (p.join name).text.toList.getLast? == some '/') = false := by
  obtain ⟨front, last, hfront⟩ := (List.eq_nil_or_concat name.toList).resolve_left fun hempty =>
    hname.1 (String.toList_inj.1 hempty)
  have hlast : last ≠ '/' := by
    rintro rfl
    exact hname.2.2.2 (by simp [hfront])
  rw [Bool.or_eq_false_iff, text_join p hname, String.toList_append, hfront,
    List.concat_eq_append, ← List.append_assoc, List.getLast?_concat]
  refine ⟨?_, by simpa using hlast⟩
  rw [← Bool.not_eq_true, String.isEmpty_iff, ← text_join p hname]
  exact Path.text_ne_of_endsWith hname (Path.endsWith_join p hname)

/-- Names of one length may be joined. -/
theorem Alike.join {p p' : Path} (h : Alike p p') {name name' : String} (hname : IsName name)
    (hname' : IsName name') (hsize : name.utf8ByteSize = name'.utf8ByteSize)
    (hzero : '\x00' ∈ name.toList ↔ '\x00' ∈ name'.toList) :
    Alike (p.join name) (p'.join name') := by
  refine ⟨?_, ?_, ?_, ?_, ?_⟩
  · rw [ends_join p hname, ends_join p' hname']
  · exact iff_of_false (Path.text_ne_of_endsWith hname (Path.endsWith_join p hname))
      (Path.text_ne_of_endsWith hname' (Path.endsWith_join p' hname'))
  · rw [text_join p hname, text_join p' hname', h.ends]
    simp only [String.toList_append, List.mem_append, h.zero, hzero]
  · rw [text_join p hname, text_join p' hname', h.ends]
    simp only [String.utf8ByteSize_append, h.size, hsize]
  · rw [short_steps_join_iff p hname, short_steps_join_iff p' hname', h.short, hsize]

end World

namespace Files

theorem fits_of_alike {p p' : Path} (h : Alike p p') : Fits p p' := by
  intro names hnames hvalid
  refine (?_ : Alike _ _).valid_iff.1 hvalid
  clear hvalid
  induction names generalizing p p' with
  | nil => exact h
  | cons name names ih =>
    rw [List.forall_mem_cons] at hnames
    exact ih (h.join hnames.1 hnames.1 rfl .rfl) hnames.2

/-! ## Temporary directories -/

theorem size_of_mem_temporaryNames {stem name : String} (h : name ∈ temporaryNames stem) :
    name.utf8ByteSize = stem.utf8ByteSize + 6 ∧
      ('\x00' ∈ name.toList ↔ '\x00' ∈ stem.toList) := by
  have htail : ∀ n ∈ List.range 64, ("X" ++ Timestamp.padded 5 n).utf8ByteSize = 6 ∧
      '\x00' ∉ ("X" ++ Timestamp.padded 5 n).toList := by
    decide +kernel
  suffices ∃ tail, name = stem ++ tail ∧ tail.utf8ByteSize = 6 ∧ '\x00' ∉ tail.toList by
    obtain ⟨tail, rfl, hsize, hzero⟩ := this
    simp [String.utf8ByteSize_append, hsize, hzero]
  obtain rfl | h := List.mem_cons.1 h
  · exact ⟨"XXXXXX", rfl, by decide +kernel, by decide +kernel⟩
  · obtain ⟨n, hn, rfl⟩ := List.mem_map.1 h
    exact ⟨"X" ++ Timestamp.padded 5 n, String.append_assoc, htail n hn⟩

/-- The names of temporary entries are as good as each other. -/
theorem alike_of_mem_temporaryNames {stem name name' : String} (hslash : '/' ∉ stem.toList)
    (hlength : 2 < stem.length) (h : name ∈ temporaryNames stem)
    (h' : name' ∈ temporaryNames stem) (p : Path) : Alike (p.join name) (p.join name') := by
  obtain ⟨hsize, hzero⟩ := size_of_mem_temporaryNames h
  obtain ⟨hsize', hzero'⟩ := size_of_mem_temporaryNames h'
  exact (Alike.refl p).join (isName_of_mem_temporaryNames hslash hlength h)
    (isName_of_mem_temporaryNames hslash hlength h') (hsize.trans hsize'.symm)
    (hzero.trans hzero'.symm)

/-- A temporary directory is made where the path to it is clear and one of its names is free. -/
theorem exists_makeTemporary {v : World} (hplain : v.root.Plain) {stem name : String}
    (hslash : '/' ∉ stem.toList) (hlength : 2 < stem.length) (hmem : name ∈ temporaryNames stem)
    (hturns : ∀ turn, v.tempDir.TurnsAt v.cwd turn → v.root.DirAt turn)
    (hdir : v.root.DirAt (v.tempDir.place v.cwd)) (hvalid : Valid (v.tempDir.join name))
    (hfree : v.root.get? (v.tempDir.place v.cwd ++ [name]) = none) :
    ∃ name' v', name' ∈ temporaryNames stem ∧
      makeTemporary stem v = (.ok (v.tempDir.join name'), v') := by
  have hlocate : ∀ name' ∈ temporaryNames stem,
      v.root.get? (v.tempDir.place v.cwd ++ [name']) = none →
      v.locate false (v.tempDir.join name')
        = .ok (.vacant (v.tempDir.place v.cwd) name' false) := by
    intro name' hmem' hfree'
    have hname' := isName_of_mem_temporaryNames hslash hlength hmem'
    exact locate_of_vacant hplain hname' (Path.endsWith_join _ hname')
      (fun turn hturn => hturns turn ((Path.turnsAt_join hname').1 hturn))
      ((alike_of_mem_temporaryNames hslash hlength hmem hmem' _).valid_iff.1 hvalid)
      (Path.place_join _ hname' _) hdir hfree' false
  rw [makeTemporary, bind_apply, ask_apply]
  dsimp only
  rw [bind_apply, ask_apply]
  dsimp only
  cases hname : freeName? v.tempDir stem v with
  | none =>
    rw [freeName?, List.find?_eq_none] at hname
    have htaken := hname name hmem
    rw [isTaken, hlocate name hmem hfree] at htaken
    exact absurd rfl htaken
  | some name' =>
    obtain ⟨hmem', hnot⟩ := of_freeName? hname
    have hname' := isName_of_mem_temporaryNames hslash hlength hmem'
    -- What is there would be found by its path.
    have hfree' : v.root.get? (v.tempDir.place v.cwd ++ [name']) = none := by
      refine Option.eq_none_iff_forall_not_mem.2 fun node hnode => ?_
      have hfind := find?_of_endsWith hplain hname' (Path.endsWith_join v.tempDir hname')
        (fun turn hturn => hturns turn ((Path.turnsAt_join hname').1 hturn))
        ((alike_of_mem_temporaryNames hslash hlength hmem hmem' _).valid_iff.1 hvalid)
      rw [Path.place_join _ hname', Option.mem_def.1 hnode] at hfind
      exact hnot _ (locate_of_find? hplain hfind false).1
    dsimp only
    rw [bind_apply, adapt_apply, makeDirectory, bind_apply, orFault_apply,
      hlocate name' hmem' hfree']
    exact ⟨name', _, hmem', rfl⟩

/-- The path to a temporary directory can lead somewhere. -/
theorem valid_of_makeTemporary {w w' : World} (hplain : w.root.Plain) {stem : String}
    (hstem : '/' ∉ stem.toList ∧ 2 < stem.length) {p : Path}
    (hrun : makeTemporary stem w = (.ok p, w')) : Valid p := by
  obtain ⟨failure, h⟩ | ⟨l, h⟩ := Lodging.of_makeTemporary hstem w
  · rw [h] at hrun
    cases hrun
  · rw [h] at hrun
    cases hrun
    exact (of_locate_eq_vacant hplain l.locate).2.2.2.2

end Files

/-! ## Texts and metadata -/

theorem Running.adapt_eq_ok_iff {ε ε' α : Type} {x : Action ε α} {f : ε → ε'} {w w' : World}
    {a : α} : (ExceptT.adapt f x : Action ε' α) w = (.ok a, w') ↔ x w = (.ok a, w') :=
  ⟨of_adapt_eq_ok, fun h => by rw [adapt_apply, h]; rfl⟩

/-- A text is read from the contents of its file. -/
theorem Files.readText_eq_ok_iff {p : Path} {text : String} {w w' : World} :
    readText p w = (.ok text, w') ↔
      w' = w ∧ ∃ data, w.contents? p = some data ∧ String.fromUTF8? data = some text := by
  rw [readText, bind_apply]
  obtain ⟨fault, hread⟩ | ⟨data, mode, hfile, hread⟩ := read_cases (w := w) p
  · rw [hread]
    refine iff_of_false (fun h => by cases h) ?_
    rintro ⟨-, data, hdata, -⟩
    obtain ⟨mode, hfind⟩ := contents?_eq_some_iff.1 hdata
    rw [read_of_find? hfind] at hread
    cases hread
  · have hdata : w.contents? p = some data := contents?_eq_some_iff.2 ⟨mode, hfile⟩
    rw [hread, hdata]
    dsimp only
    cases htext : String.fromUTF8? data with
    | none =>
      refine iff_of_false (fun h => by cases h) ?_
      rintro ⟨-, _, ⟨⟩, hsome⟩
      rw [htext] at hsome
      cases hsome
    | some found =>
      constructor
      · rintro ⟨⟩
        exact ⟨rfl, data, rfl, htext⟩
      · rintro ⟨rfl, _, ⟨⟩, hsome⟩
        rw [htext, Option.some.injEq] at hsome
        rw [hsome]
        rfl

/-- Metadata is read from the contents of its file. -/
theorem Metadata.load_eq_ok_iff {directory : Path} {metadata : Metadata} {w w' : World} :
    load directory w = (.ok metadata, w') ↔ w' = w ∧ ∃ data text,
      w.contents? (directory.join fileName) = some data ∧ String.fromUTF8? data = some text ∧
        parse? text = some metadata := by
  rw [load, bind_eq_ok_iff]
  simp only [adapt_eq_ok_iff, Files.readText_eq_ok_iff]
  constructor
  · rintro ⟨text, w₁, ⟨rfl, data, hdata, htext⟩, hrun⟩
    cases hparse : parse? text with
    | none =>
      rw [hparse] at hrun
      cases hrun
    | some found =>
      rw [hparse] at hrun
      cases hrun
      exact ⟨rfl, data, text, hdata, htext, hparse⟩
  · rintro ⟨rfl, data, text, hdata, htext, hparse⟩
    exact ⟨text, w', ⟨rfl, data, hdata, htext⟩, by rw [hparse]; rfl⟩

namespace Bundle

variable {source : StubSource} {bundle : Bundle} {w w' : World}

/-- A stub that asks for no digest is acceptable if it can be copied and has metadata and a name. -/
theorem fill_eq_ok_iff (hhash : source.hash = none) {staging : Path} :
    fill source staging w = (.ok bundle, w') ↔
      bundle.staging = staging ∧ bundle.origin = source.origin ∧
      Files.copyTree Files.caches source.directory (staging.join "stub") w = (.ok (), w') ∧
      Metadata.load (staging.join "stub") w' = (.ok bundle.metadata, w') ∧
      (source.name <|> bundle.metadata.name <|> source.directory.fileName?) = some bundle.name ∧
      isValidName bundle.name := by
  rw [fill, hhash, bind_eq_ok_iff]
  simp only [bind_eq_ok_iff, Files.stopping, adapt_eq_ok_iff, checkDigest]
  constructor
  · rintro ⟨⟨⟩, w₁, hcopy, metadata, w₂, hload, ⟨⟩, w₃, ⟨⟩, hrun⟩
    obtain ⟨rfl, -⟩ := Metadata.load_eq_ok_iff.1 hload
    cases hname : source.name <|> metadata.name <|> source.directory.fileName? with
    | none =>
      rw [hname] at hrun
      cases hrun
    | some name =>
      rw [hname] at hrun
      dsimp only at hrun
      rw [bind_apply, ofExcept_apply, checkName] at hrun
      by_cases hvalid : isValidName name
      · rw [if_pos hvalid] at hrun
        cases hrun
        exact ⟨rfl, rfl, hcopy, hload, hname, hvalid⟩
      · rw [if_neg hvalid] at hrun
        cases hrun
  · rintro ⟨rfl, horigin, hcopy, hload, hname, hvalid⟩
    refine ⟨(), w', hcopy, bundle.metadata, w', hload, (), w', rfl, ?_⟩
    rw [hname]
    dsimp only
    rw [bind_apply, ofExcept_apply, checkName, if_pos hvalid, ← horigin]
    rfl

/-- A stub that has no name yet is staged if a temporary directory is made and it is acceptable
there. -/
theorem stage_eq_ok (hname : source.name = none) {staging : Path} {w₁ : World}
    (hmake : Files.makeTemporary "mpstubs-stage-" w = (.ok staging, w₁))
    (hfill : fill source staging w₁ = (.ok bundle, w')) : stage source w = (.ok bundle, w') := by
  rw [stage, hname]
  dsimp only
  rw [bind_apply, hmake]
  dsimp only
  rw [tryCatch_apply, hfill]

/-- Whether a source can be copied into a temporary directory that is still empty. -/
structure Entered (source : StubSource) (tree : Node) (staging : Path) (w : World) : Prop where
  vacant : Files.Vacant w (staging.join "stub")
  tree : w.find? source.directory = some tree
  apart : ¬ source.directory.place w.cwd <+: (staging.join "stub").place w.cwd

/-- A temporary directory that was made is empty. -/
theorem Entered.of_makeTemporary (hplain : w.root.Plain) {tree : Node}
    (htree : w.find? source.directory = some tree)
    (hapart : ¬ source.directory.place w.cwd <+: w.tempDir.place w.cwd) {staging : Path}
    (hmake : Files.makeTemporary "mpstubs-stage-" w = (.ok staging, w')) :
    Entered source tree staging w' := by
  obtain ⟨name, hmem, -, hplace, hvacant, hparent, rfl, hturns⟩ :=
    Files.of_makeTemporary_eq_ok hplain (proper_of_stem List.mem_cons_self) hmake
  have hname := Files.isName_of_mem_temporaryNames (by decide) (by decide) hmem
  rw [hplace] at hvacant hturns ⊢
  have hmade := frame_makeDirectory hplain hname hparent hvacant (List.prefix_refl _)
  have hnew : (w.put (w.tempDir.place w.cwd ++ [name]) (.directory [])).root.get?
      (w.tempDir.place w.cwd ++ [name]) = some (.directory []) :=
    get?_alter_self hplain hparent _
  have hthere := (locate_of_find? hplain htree true).2
  have hbelow : ¬ w.tempDir.place w.cwd ++ [name] <+: source.directory.place w.cwd :=
    not_le_of_get?_ne_none (by rw [hthere]; exact Option.some_ne_none _) hvacant
  have habove : ¬ source.directory.place w.cwd <+: w.tempDir.place w.cwd ++ [name] := by
    rw [List.prefix_concat_iff]
    rintro (heq | hle)
    · exact hbelow (heq ▸ List.prefix_refl _)
    · exact hapart hle
  have hstub : (staging.join "stub").place w.cwd = w.tempDir.place w.cwd ++ [name] ++ ["stub"] := by
    rw [Path.place_join staging (by decide), hplace]
  refine ⟨⟨hmade.plain hplain, ⟨"stub", by decide, Path.endsWith_join staging (by decide)⟩,
    fun turn hturn => hturns turn ((Path.turnsAt_join (by decide)).1 hturn),
    fun parent last hat => ?_, ?_⟩, ?_, ?_⟩
  · obtain ⟨rfl, -⟩ := List.append_inj' (hat.symm.trans hstub) rfl
    exact ⟨_, hnew⟩
  · exact (congrArg _ hstub).trans (by rw [get?_append, hnew]; rfl)
  · exact Files.find?_beside hplain hmade (fun _ heq => heq ▸ List.prefix_refl _) hvacant habove
      htree
  · show ¬ source.directory.place w.cwd <+: (staging.join "stub").place w.cwd
    rw [hstub]
    simpa using not_le_append habove hbelow [] ["stub"]

namespace Entered

variable {tree : Node} {staging : Path}

/-- The copy is the source without caches, and nothing else has changed. -/
theorem copied (h : Entered source tree staging w)
    (hcopy : Files.copyTree Files.caches source.directory (staging.join "stub") w = (.ok (), w')) :
    Frame ((staging.join "stub").place w.cwd <+: ·) w w' ∧
      w'.root.get? ((staging.join "stub").place w.cwd) = some (tree.prune Files.caches) := by
  obtain ⟨hvacant, htree, hapart⟩ := h
  obtain ⟨hframe, node, hnode, hcopied⟩ := Files.copies_copyTreeWithin Files.caches pathLimit
    hvacant.plain (by decide : IsName "stub") (Path.endsWith_join staging (by decide))
    hvacant.turns hvacant.vacant hapart hcopy
  rw [(locate_of_find? hvacant.plain htree true).2, Option.some.injEq] at hnode
  exact ⟨hframe, hnode ▸ hcopied⟩

/-- What lies in the copy is what lies in the source without caches. -/
theorem find?_copy (h : Entered source tree staging w)
    (hcopy : Files.copyTree Files.caches source.directory (staging.join "stub") w = (.ok (), w'))
    {name : String} (hname : IsName name) (hvalid : Valid ((staging.join "stub").join name)) :
    w'.find? ((staging.join "stub").join name) = (tree.prune Files.caches).get? [name] := by
  obtain ⟨hframe, hcopied⟩ := h.copied hcopy
  rw [find?_of_endsWith (hframe.plain h.vacant.plain) hname (Path.endsWith_join _ hname)
    (fun turn hturn => ?_) hvalid, Path.place_join _ hname, hframe.cwd, get?_append, hcopied]
  · rfl
  · rw [Path.turnsAt_join hname, hframe.cwd] at hturn
    have hdir := h.vacant.turns turn hturn
    refine hframe.dir turn (fun _ hother hle => ?_) hdir
    exact not_dirAt_of_none h.vacant.vacant (hdir.of_below (hother.trans hle))

/-- A stub that was acceptable in one temporary directory is so in another. -/
theorem exists_fill {staging' : Path} {v : World} (h : Entered source tree staging w)
    (h' : Entered source tree staging' v) (hhash : source.hash = none)
    (halike : Alike staging staging') (hrun : fill source staging w = (.ok bundle, w')) :
    ∃ again v', fill source staging' v = (.ok again, v') ∧ again.name = bundle.name := by
  rw [fill_eq_ok_iff hhash] at hrun
  obtain ⟨rfl, horigin, hcopy, hload, hname, hvalid⟩ := hrun
  have hstub := halike.join (by decide : IsName "stub") (by decide) rfl .rfl
  obtain ⟨v', hcopy'⟩ := Files.recopies_copyTreeWithin Files.caches pathLimit h.vacant h'.vacant
    (Files.fits_of_alike hstub) h.tree h'.tree h.apart h'.apart hcopy
  refine ⟨{ bundle with staging := staging' }, v', (fill_eq_ok_iff hhash).2
    ⟨rfl, horigin, hcopy', ?_, hname, hvalid⟩, rfl⟩
  rw [Metadata.load_eq_ok_iff] at hload ⊢
  obtain ⟨-, data, text, hdata, htext, hparse⟩ := hload
  obtain ⟨mode, hfile⟩ := contents?_eq_some_iff.1 hdata
  have hfilename : IsName Metadata.fileName := by decide
  have hfits := ((find?_eq_some_iff ((h.copied hcopy).1.plain h.vacant.plain)).1 hfile).1
  refine ⟨rfl, data, text, contents?_eq_some_iff.2 ⟨mode, ?_⟩, htext, hparse⟩
  rw [h'.find?_copy hcopy' hfilename ((hstub.join hfilename hfilename rfl .rfl).valid_iff.1 hfits),
    ← h.find?_copy hcopy hfilename hfits, hfile]

end Entered

/-- A stub that goes by no name and asks for no digest is staged again where its source is the same
and there is room for the temporary directory. -/
theorem exists_stage (hname : source.name = none) (hhash : source.hash = none) {tree : Node}
    {v : World} (hplain : w.root.Plain) (htree : w.find? source.directory = some tree)
    (hapart : ¬ source.directory.place w.cwd <+: w.tempDir.place w.cwd)
    (hrun : stage source w = (.ok bundle, w')) (hplain' : v.root.Plain) (hcwd : v.cwd = w.cwd)
    (htempDir : v.tempDir = w.tempDir) (htree' : v.find? source.directory = some tree)
    (hturns : ∀ turn, v.tempDir.TurnsAt v.cwd turn → v.root.DirAt turn)
    (hdir : v.root.DirAt (v.tempDir.place v.cwd))
    (hfree : v.root.get? (bundle.staging.place w.cwd) = none) :
    ∃ again v', stage source v = (.ok again, v') ∧ again.name = bundle.name := by
  obtain ⟨staging, w₁, hmake, hfill⟩ := of_stage_eq_ok hrun
  have hentered := Entered.of_makeTemporary hplain htree hapart hmake
  obtain ⟨hproper, hlong⟩ := proper_of_stem (List.mem_cons_self : _ ∈ Registry.temporaryStems)
  obtain ⟨name, hmem, rfl, hplace, -⟩ :=
    Files.of_makeTemporary_eq_ok hplain ⟨hproper, hlong⟩ hmake
  have hvalid := Files.valid_of_makeTemporary hplain ⟨hproper, hlong⟩ hmake
  rw [(fill_eq_ok_iff hhash).1 hfill |>.1, hplace, ← hcwd, ← htempDir] at hfree
  rw [← htempDir] at hvalid
  obtain ⟨name', v₁, hmem', hmake'⟩ :=
    Files.exists_makeTemporary hplain' hproper hlong hmem hturns hdir hvalid hfree
  have hentered' : Entered source tree (v.tempDir.join name') v₁ := by
    refine .of_makeTemporary hplain' htree' ?_ hmake'
    rwa [hcwd, htempDir]
  obtain ⟨again, v', hfill', hsame⟩ := hentered.exists_fill hentered' hhash
    (htempDir ▸ Files.alike_of_mem_temporaryNames hproper hlong hmem hmem' _) hfill
  exact ⟨again, v', stage_eq_ok hname hmake' hfill', hsame⟩

/-- What was staged lies in a directory that its path leads to. -/
theorem find?_staging (hplain : w.root.Plain) {tree : Node}
    (htree : w.find? source.directory = some tree)
    (hapart : ¬ source.directory.place w.cwd <+: w.tempDir.place w.cwd)
    (hrun : stage source w = (.ok bundle, w')) :
    ∃ entries, w'.find? bundle.staging = some (.directory entries) := by
  obtain ⟨staging, w₁, hmake, hfill⟩ := of_stage_eq_ok hrun
  have hentered := Entered.of_makeTemporary hplain htree hapart hmake
  obtain ⟨rfl, hcopy⟩ := of_fill_eq_ok hfill
  obtain ⟨hframe, hcopied⟩ := hentered.copied hcopy
  have hproper := proper_of_stem (List.mem_cons_self : _ ∈ Registry.temporaryStems)
  obtain ⟨name, hmem, hpath, -⟩ := Files.of_makeTemporary_eq_ok hplain hproper hmake
  have hname := Files.isName_of_mem_temporaryNames hproper.1 hproper.2 hmem
  rw [Path.place_join bundle.staging (by decide), ← hframe.cwd] at hcopied
  obtain ⟨entries, hentries⟩ := dirAt_of_get? hcopied
  refine ⟨entries, (find?_of_endsWith (hframe.plain hentered.vacant.plain) hname
    (hpath ▸ Path.endsWith_join _ hname) (fun turn hturn => ?_)
    (Files.valid_of_makeTemporary hplain hproper hmake)).trans hentries⟩
  rw [hframe.cwd] at hturn
  have hdir := hentered.vacant.turns turn ((Path.turnsAt_join (by decide)).2 hturn)
  refine hframe.dir turn (fun _ hother hle => ?_) hdir
  exact not_dirAt_of_none hentered.vacant.vacant (hdir.of_below (hother.trans hle))

/-- Nothing stays of what was staged when it is discarded at once. -/
theorem root_discard (hplain : w.root.Plain) {tree : Node}
    (htree : w.find? source.directory = some tree)
    (hapart : ¬ source.directory.place w.cwd <+: w.tempDir.place w.cwd)
    (hrun : stage source w = (.ok bundle, w')) : (discard bundle.staging w').root = w.root := by
  have hframe := (staged_of_stage hplain (locate_of_find? hplain htree true).2 hapart hrun).frame
  obtain ⟨entries, hfind⟩ := find?_staging hplain htree hapart hrun
  obtain ⟨staging, w₁, hmake, hfill⟩ := of_stage_eq_ok hrun
  obtain ⟨rfl, -⟩ := of_fill_eq_ok hfill
  obtain ⟨name, -, -, hplace, hvacant, hparent, -⟩ :=
    Files.of_makeTemporary_eq_ok hplain (proper_of_stem List.mem_cons_self) hmake
  have hplain' := hframe.plain hplain
  have hthere := (locate_of_find? hplain' hfind true).2
  rw [discard, quietly_apply, Files.removeTree_of_isDirectory hplain' hfind, hframe.cwd]
  rw [hframe.cwd, hplace] at hthere
  rw [hplace] at hvacant hframe ⊢
  have hgone : (w'.erase (w.tempDir.place w.cwd ++ [name])).root.get?
      (w.tempDir.place w.cwd ++ [name]) = none :=
    hplain'.get?_alter_self (dirAt_of_get? hthere)
  have hdir := dirAt_of_get? hthere
  generalize w.tempDir.place w.cwd = parent at *
  refine Node.ext_of_get? (hplain'.alter fun _ heq => nomatch heq) hplain fun place => ?_
  by_cases hbelow : parent ++ [name] <+: place
  · obtain ⟨back, rfl⟩ := hbelow
    left
    rw [get?_append, hgone, get?_append, hvacant]
  by_cases habove : place <+: parent ++ [name]
  · right
    have hle : place <+: parent := (List.prefix_concat_iff.1 habove).resolve_left fun heq =>
      hbelow (heq ▸ List.prefix_refl _)
    exact ⟨(dirAt_alter_iff _ hbelow).2 (hdir.of_below hle), hparent.of_below hle⟩
  · left
    rw [← hframe.get?_beside (fun _ => id) hbelow habove]
    exact get?_alter_of_disjoint _ w'.root hbelow habove

end Bundle

end StubManager
