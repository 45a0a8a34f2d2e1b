import StubManager.Proofs.Registry.Restaging

/-!
# Sources

A directory stands for itself: it is staged from the path of the place it leads to
(`Bundle.sourceOf_of_isDirectory`), and goes by its own name. What is no directory goes by the name
that was asked for (`Bundle.name_of_stage`).
-/

namespace StubManager

open Node World Running

variable {w w' : World} {name identifier : String} {bundle : Bundle} {source : StubSource}

/-! ## Paths of places -/

namespace Path

/-- The absolute path that goes by the names of a place. -/
def ofPlace (place : List String) : Path := ⟨"/" ++ "/".intercalate place⟩

variable {place : List String}

theorem names_ofPlace (h : ∀ name ∈ place, IsName name) :
    (ofPlace place).names = place ∧ (ofPlace place).isAbsolute := by
  cases place with
  | nil => exact ⟨rfl, rfl⟩
  | cons first place =>
    have htext : (ofPlace (first :: place)).text.toList
        = '/' :: ['/'].intercalate (first.toList :: place.map String.toList) := by
      rw [ofPlace, String.toList_append, String.toList_intercalate]
      rfl
    have hparts : (ofPlace (first :: place)).parts
        = [] :: (first :: place).map String.toList := by
      rw [parts, htext, Text.splitAt, if_pos rfl, List.map_cons, Text.splitAt_intercalate]
      intro part hpart
      rw [← List.map_cons, List.mem_map] at hpart
      obtain ⟨name, hname, rfl⟩ := hpart
      exact (h name hname).2.2.2
    constructor
    · have hall : ((first :: place).map String.toList).filter isComponent
          = (first :: place).map String.toList := by
        refine List.filter_eq_self.2 fun part hpart => ?_
        obtain ⟨name, hname, rfl⟩ := List.mem_map.1 hpart
        exact isComponent_of_isName (h name hname)
      rw [names, hparts, List.filter_cons_of_neg (by decide), hall, List.map_map]
      simp
    · exact isAbsolute_iff.2 ⟨_, by simp, hparts⟩

theorem place_ofPlace (h : ∀ name ∈ place, IsName name) (cwd : List String) :
    (ofPlace place).place cwd = place := by
  obtain ⟨hnames, habsolute⟩ := names_ofPlace h
  rw [Path.place, hnames, start, if_pos habsolute, Under.foldl_follow h, List.nil_append]

theorem straight_ofPlace (h : ∀ name ∈ place, IsName name) : ".." ∉ (ofPlace place).names := by
  rw [(names_ofPlace h).1]
  exact fun hmem => (h _ hmem).2.2.1 rfl

end Path

/-- The names that lead to a node are proper. -/
theorem Node.Plain.isName_of_mem {root node : Node} (h : root.Plain) {place : List String}
    (hnode : root.get? place = some node) : ∀ name ∈ place, IsName name := by
  intro name hname
  obtain ⟨front, back, rfl⟩ := List.append_of_mem hname
  rw [List.append_cons, get?_append, Option.bind_eq_some_iff] at hnode
  obtain ⟨inner, hinner, -⟩ := hnode
  exact h.isName hinner

/-- A directory is found by the path of its place. -/
theorem World.find?_ofPlace (hplain : w.root.Plain) {place : List String}
    {entries : List (String × Node)} (h : w.root.get? place = some (.directory entries))
    (hvalid : Valid (.ofPlace place)) :
    w.find? (.ofPlace place) = some (.directory entries) := by
  have hnames := hplain.isName_of_mem h
  refine (find?_eq_some_iff hplain).2 ⟨hvalid, fun v hv => ?_, ?_⟩
  · have hle := (passes_of_mem_onWay hv).le_of_straight (Path.straight_ofPlace hnames)
    rw [Path.place_ofPlace hnames] at hle
    exact DirAt.of_below ⟨entries, h⟩ hle
  · rw [Path.place_ofPlace hnames, h]

/-- What is found at a path is at the path of its place. -/
theorem Files.canonical_of_find? (hplain : w.root.Plain) {p : Path} {node : Node}
    (h : w.find? p = some node) : canonical p w = (.ok (.ofPlace (p.place w.cwd)), w) := by
  rw [canonical, bind_apply, orFault_apply, (locate_of_find? hplain h true).1]
  rfl

/-- What was copied has a path that can lead somewhere. -/
theorem Files.valid_of_copyTreeWithin (hplain : w.root.Plain) {exclude : List String} {depth : Nat}
    {p target : Path} (hturns : ∀ turn, target.TurnsAt w.cwd turn → w.root.DirAt turn)
    (hrun : copyTreeWithin exclude depth p target w = (.ok (), w')) : Valid p := by
  cases depth with
  | zero => cases hrun
  | succ depth =>
    rw [copyTreeWithin, bind_apply, ask_apply] at hrun
    dsimp only at hrun
    obtain ⟨w₁, names, w₂, hplain₁, hlist⟩ :
        ∃ w₁ names w₂, w₁.root.Plain ∧ list p w₁ = (.ok names, w₂) := by
      split at hrun
      · rw [bind_eq_ok_iff] at hrun
        obtain ⟨names, w₂, hlist, -⟩ := hrun
        exact ⟨w, names, w₂, hplain, hlist⟩
      · rw [bind_eq_ok_iff] at hrun
        obtain ⟨⟨⟩, w₁, hmake, hrun⟩ := hrun
        rw [bind_eq_ok_iff] at hrun
        obtain ⟨names, w₂, hlist, -⟩ := hrun
        have hframe := (frame_makeDirectories hplain hturns).1 _ (List.prefix_refl _)
        rw [hmake] at hframe
        exact ⟨w₁, names, w₂, hframe.plain hplain, hlist⟩
    obtain ⟨-, entries, hfind, -⟩ := find?_of_list hlist
    exact ((find?_eq_some_iff hplain₁).1 hfind).1

/-! ## Sources -/

namespace Bundle

/-- The directory at a place, under the path of the place. -/
def localSource (place : List String) : StubSource where
  directory := .ofPlace place
  origin := (Path.ofPlace place).text

theorem name_localSource (place : List String) : (localSource place).name = none := rfl

theorem hash_localSource (place : List String) : (localSource place).hash = none := rfl

theorem place_localSource {place : List String} (h : ∀ name ∈ place, IsName name)
    (cwd : List String) : (localSource place).directory.place cwd = place :=
  Path.place_ofPlace h cwd

theorem find?_localSource (hplain : w.root.Plain) {place : List String}
    {entries : List (String × Node)} (h : w.root.get? place = some (.directory entries))
    (hvalid : Valid (localSource place).directory) :
    w.find? (localSource place).directory = some (.directory entries) :=
  find?_ofPlace hplain h hvalid

/-- A directory stands for itself. -/
theorem sourceOf_of_isDirectory (hplain : w.root.Plain) (catalog : Path)
    (h : w.isDirectory ⟨identifier⟩) :
    sourceOf catalog identifier w = (.ok (localSource (Path.place w.cwd ⟨identifier⟩)), w) := by
  obtain ⟨entries, hfind⟩ := isDirectory_iff.1 h
  rw [sourceOf, bind_apply, ask_apply, h]
  dsimp only
  rw [if_pos rfl, bind_apply, Files.stopping, adapt_apply, Files.canonical_of_find? hplain hfind]
  rfl

/-- What is no directory is looked up in the catalog by its name. -/
theorem name_of_sourceOf {catalog : Path} (h : sourceOf catalog identifier w = (.ok source, w'))
    (hnot : ¬ w.isDirectory ⟨identifier⟩) : source.name = some identifier := by
  rw [sourceOf, bind_apply, ask_apply] at h
  dsimp only at h
  rw [if_neg hnot, bind_eq_ok_iff] at h
  obtain ⟨listed, w₁, -, h⟩ := h
  cases hentry : listed.find? identifier with
  | none =>
    rw [hentry] at h
    cases h
  | some entry =>
    rw [hentry] at h
    dsimp only at h
    rw [bind_apply, ask_apply] at h
    dsimp only at h
    split at h
    · cases h
      rfl
    · cases h

/-- A stub goes by the name that was asked for. -/
theorem name_of_stage (h : stage source w = (.ok bundle, w')) (hname : source.name = some name) :
    bundle.name = name := by
  obtain ⟨staging, w₁, -, hfill⟩ := of_stage_eq_ok h
  have hfirst := (named_of_fill hfill).1
  rw [hname] at hfirst
  exact (Option.some.inj hfirst).symm

/-- A directory that was staged has a path that can lead somewhere. -/
theorem valid_of_stage (hplain : w.root.Plain) (h : stage source w = (.ok bundle, w')) :
    Valid source.directory := by
  obtain ⟨staging, w₁, hmake, hfill⟩ := of_stage_eq_ok h
  obtain ⟨name, hmem, -, hplace, hvacant, hparent, rfl, hturns⟩ :=
    Files.of_makeTemporary_eq_ok hplain (proper_of_stem List.mem_cons_self) hmake
  have hname := Files.isName_of_mem_temporaryNames (by decide) (by decide) hmem
  rw [hplace] at hvacant hturns hfill
  have hmade := frame_makeDirectory hplain hname hparent hvacant (List.prefix_refl _)
  exact Files.valid_of_copyTreeWithin (hmade.plain hplain)
    (fun turn hturn => hturns turn ((Path.turnsAt_join (by decide)).1 hturn))
    (of_fill_eq_ok hfill).2

end Bundle

/-! ## Temporary directories -/

/-- A temporary directory is made in a directory, to which a path leads that turns back at
directories. -/
theorem Files.dirAt_of_makeTemporary (hplain : w.root.Plain) {stem : String}
    (hstem : '/' ∉ stem.toList ∧ 2 < stem.length) {p : Path}
    (hrun : makeTemporary stem w = (.ok p, w')) : w.root.DirAt (w.tempDir.place w.cwd) ∧
      ∀ turn, w.tempDir.TurnsAt w.cwd turn → w.root.DirAt turn := by
  obtain ⟨name, hmem, hpath, -, -, hdir, -⟩ := of_makeTemporary_eq_ok hplain hstem hrun
  have hname := isName_of_mem_temporaryNames hstem.1 hstem.2 hmem
  refine ⟨hdir, fun turn hturn => ?_⟩
  obtain ⟨failure, h⟩ | ⟨l, h⟩ := Lodging.of_makeTemporary hstem w
  · rw [h] at hrun
    cases hrun
  · rw [h] at hrun
    cases hrun
    refine dirAt_of_locate_eq_vacant hplain l.locate ?_
    rw [hpath]
    exact (Path.turnsAt_join hname).2 hturn

end StubManager
