import StubManager.Proofs.Artifact.Origin
import StubManager.Proofs.FileTree.Moving
import StubManager.Proofs.Installation.Extracting
import StubManager.Proofs.Registry.Restaging

/-!
# Staged scripts

A file is always made in an empty directory that has room for its name (`Files.replace_of_empty`).
So what a script is staged as depends on its contents and on the modules asked for
(`Extraction.edited`), and on its name only as to where: main statement
`Extraction.stageScript_of_modules`.
-/

namespace StubManager

open Node Running World

/-! ## Files in an empty directory -/

namespace Files

variable {w : World} {p : Path} {name : String}

theorem makeDirectory_of_find? (hplain : w.root.Plain) {node : Node}
    (hfind : w.find? p = some node) : makeDirectory p w = (.error .alreadyExists, w) := by
  rw [makeDirectory, bind_apply, orFault_apply, (locate_of_find? hplain hfind false).1]
  rfl

theorem makeDirectories_of_isDirectory (hplain : w.root.Plain) {entries : List (String × Node)}
    (hfind : w.find? p = some (.directory entries)) : makeDirectories p w = (.ok (), w) := by
  rw [makeDirectories, Path.ancestors, makeFirst]
  split
  · rfl
  · rw [tryCatch_apply, makeDirectory_of_find? hplain hfind]
    dsimp only
    rw [unlessThere, bind_apply, ask_apply, World.isDirectory, hfind]
    rfl

/-- No directory is made where a file is. -/
theorem makeDirectories_of_isFile (hplain : w.root.Plain) (hname : IsName name)
    (hends : p.EndsWith name) {data : ByteArray} {mode : Bool}
    (hfind : w.find? p = some (.file data mode)) :
    makeDirectories p w = (.error .alreadyExists, w) := by
  rw [makeDirectories, Path.ancestors, makeFirst,
    if_neg (Path.text_ne_of_endsWith hname hends), tryCatch_apply,
    makeDirectory_of_find? hplain hfind]
  dsimp only
  rw [unlessThere, bind_apply, ask_apply, World.isDirectory, hfind]
  rfl

/-- A node that is moved to where it is stays there. -/
theorem rename_self (hplain : w.root.Plain) (hname : IsName name) (hends : p.EndsWith name)
    (hturns : ∀ turn, p.TurnsAt w.cwd turn → w.root.DirAt turn) (hvalid : Valid p)
    {parent : List String} (hplace : p.place w.cwd = parent ++ [name]) {node : Node}
    (hnode : w.root.get? (parent ++ [name]) = some node) : rename p p w = (.ok (), w) := by
  have hlocate := locateParent_of_endsWith hplain hname hends hturns hvalid hplace
    (dirAt_of_get? hnode)
  have hnot : (parent ++ [name]).isPrefixOf parent = false := by
    rw [← Bool.not_eq_true, List.isPrefixOf_iff_prefix]
    exact not_concat_le parent name
  simp only [rename, bind_apply, orFault_apply, hlocate]
  simp [bind_apply, get_apply, hname.1, hname.2.1, hname.2.2.1, short_of_endsWith hname hends hvalid,
    hnode, hnot]
  rfl

/-- A file is made in an empty directory, by way of a draft. -/
theorem replace_of_empty (hplain : w.root.Plain) {last : String} (hlast : IsName last)
    (hends : p.EndsWith last) (hfind : w.find? p = some (.directory [])) (hname : IsName name)
    (hvalid : ∀ entry ∈ [".tmpXXXXXX", name], Valid (p.join entry)) (data : ByteArray) :
    replace (p.join name) data w
      = (.ok (), w.put (p.place w.cwd ++ [name]) (.file data false)) := by
  have hentries := (locate_of_find? hplain hfind true).2
  have hparent : w.root.DirAt (p.place w.cwd) := ⟨_, hentries⟩
  have hvacant : ∀ entry, w.root.get? (p.place w.cwd ++ [entry]) = none := by
    intro entry
    rw [get?_concat hentries]
    rfl
  have hturns : ∀ {entry}, IsName entry → ∀ turn, (p.join entry).TurnsAt w.cwd turn →
      w.root.DirAt turn := fun hentry turn hturn =>
    dirAt_of_turnsAt hplain hfind ((Path.turnsAt_join hentry).1 hturn)
  have hdraft : IsName ".tmpXXXXXX" := by decide
  have hends' : (p.join ".tmpXXXXXX").EndsWith ".tmpXXXXXX" := Path.endsWith_join p hdraft
  have hplace := Path.place_join p hdraft w.cwd
  have hvalid' : Valid (p.join ".tmpXXXXXX") := hvalid _ (by simp)
  have hfree : freeName? p ".tmp" w = some ".tmpXXXXXX" := by
    have hfirst : ".tmp" ++ "XXXXXX" = ".tmpXXXXXX" := rfl
    refine List.find?_cons_of_pos ?_
    rw [hfirst, isTaken, locate_of_vacant hplain hdraft hends' (hturns hdraft) hvalid' hplace
      hparent (hvacant _) false]
    rfl
  rw [replace, holder_join hlast hends hname, bind_apply,
    makeDirectories_of_isDirectory hplain hfind]
  dsimp only
  rw [bind_apply, ask_apply, hfree]
  dsimp only
  rw [replaceBy, bind_apply, write_of_vacant hplain hdraft hends' (hturns hdraft) hvalid' hplace
    hparent (hvacant _)]
  dsimp only
  -- with the draft in the directory nothing else is changed
  obtain ⟨w', hw', hcwd, hplain', hnode, herase, hdirs⟩ :=
    put_draft hplain hdraft hparent (hvacant ".tmpXXXXXX") data
  rw [hw', tryCatch_apply]
  have hturns' : ∀ {entry}, IsName entry → ∀ turn, (p.join entry).TurnsAt w'.cwd turn →
      w'.root.DirAt turn := fun hentry turn hturn =>
    hdirs turn (hturns hentry turn (hcwd ▸ hturn))
  rw [← hcwd] at hplace
  by_cases heq : name = ".tmpXXXXXX"
  · subst heq
    rw [rename_self hplain' hdraft hends' (hturns' hdraft) hvalid' hplace (hcwd.symm ▸ hnode), hw']
  · have hsame : w'.root.get? (p.place w.cwd ++ [name]) = none := by
      rw [← hw']
      refine (get?_alter_of_disjoint _ w.root ?_ ?_).trans (hvacant name)
      all_goals
        rw [List.prefix_append_right_inj]
        simp [List.cons_prefix_cons, heq, Ne.symm heq]
    have hmoved := rename_beside hplain' hdraft hname hends' (Path.endsWith_join p hname)
      (hturns' hdraft) (hturns' hname) hvalid' (hvalid name (by simp)) hplace
      (Path.place_join p hname w'.cwd) (Ne.symm heq) (hcwd.symm ▸ hnode) (hcwd.symm ▸ hsame)
    rw [hmoved, hcwd, herase]

end Files

/-! ## Scripts with modules -/

namespace Extraction

/-- What the contents of a script come to with the modules that are asked for in its list. -/
def edited (modules : Option (List String)) (origin : String) (data : ByteArray) :
    Except Failure ByteArray :=
  match ChangeSet.ofRequest? modules with
  | none => .ok data
  | some change =>
    match String.fromUTF8? data with
    | none => .error (.readFailed origin FileFault.notText.message)
    | some text =>
      (Artifact.apply { text, anchor := modulesAnchor, origin } change).map (·.text.toUTF8)

/-- What a script is called is told in messages only. -/
theorem edited_agree (modules : Option (List String)) (origin origin' : String)
    (data : ByteArray) : Agree Eq (edited modules origin data) (edited modules origin' data) := by
  rw [edited, edited]
  cases ChangeSet.ofRequest? modules with
  | none => exact rfl
  | some change =>
    dsimp only
    cases String.fromUTF8? data with
    | none => exact rfl
    | some text =>
      have halike : Artifact.Alike { text, anchor := modulesAnchor, origin }
          { text, anchor := modulesAnchor, origin := origin' } := ⟨rfl, rfl⟩
      exact (Artifact.apply_alike change halike).map fun _ _ h => congrArg String.toUTF8 h.1

variable {request : ExtractionRequest} {workdir : Path} {w : World} {data : ByteArray} {mode : Bool}

/-- Without modules a script runs as it is. -/
theorem stageScript_of_none (hmodules : request.modules = none)
    (hfind : w.find? request.script = some (.file data mode)) :
    stageScript request workdir w = (.ok request.script, w) := by
  rw [stageScript, hmodules]
  dsimp only [ChangeSet.ofRequest?, Option.map_none]
  rw [bind_apply, ask_apply, World.isFile, hfind]
  rfl

/-- With modules a script is staged under its own name in an empty directory. -/
theorem stageScript_of_modules {modules : List String} (hmodules : request.modules = some modules)
    (hplain : w.root.Plain) (hfind : w.find? request.script = some (.file data mode))
    {last name : String} (hlast : IsName last) (hends : workdir.EndsWith last)
    (hempty : w.find? workdir = some (.directory [])) (hname : request.script.fileName? = some name)
    (hvalid : ∀ entry ∈ [".tmpXXXXXX", name], Valid (workdir.join entry)) :
    stageScript request workdir w =
      match edited request.modules request.script.text data with
      | .error failure => (.error failure, w)
      | .ok contents => (.ok (workdir.join name),
        w.put (workdir.place w.cwd ++ [name]) (.file contents false)) := by
  have hread : Files.readText request.script w =
      match String.fromUTF8? data with
      | none => (.error .notText, w)
      | some text => (.ok text, w) := by
    rw [Files.readText, bind_apply, Files.read_of_find? hfind]
    dsimp only
    cases String.fromUTF8? data <;> rfl
  rw [stageScript, edited, hmodules]
  dsimp only [ChangeSet.ofRequest?, Option.map_some]
  rw [bind_apply, Artifact.load, bind_apply, adapt_apply, hread, hname]
  cases String.fromUTF8? data with
  | none => rfl
  | some text =>
    change (MonadExcept.ofExcept (Artifact.apply _ _) >>= _ : Action Failure Path) w = _
    rw [bind_apply, ofExcept_apply]
    dsimp only [Option.getD_some]
    cases Artifact.apply _ _ with
    | error failure => rfl
    | ok artifact =>
      have hmade := Files.replace_of_empty hplain hlast hends hempty
        (Path.isName_of_fileName? hname) hvalid artifact.text.toUTF8
      dsimp only [Except.map]
      rw [bind_apply, Artifact.save, adapt_apply, hmade]
      rfl

end Extraction

end StubManager
