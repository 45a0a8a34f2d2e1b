import StubManager.Device.Tool
import StubManager.Proofs.Device.Recording

/-!
# What a tool that failed is reported with

Of the two streams that a tool writes, `Tells` prefers one over the other: a message is the last
line of it that is not blank, else that of the other stream, else how the tool ended. What
`Tool.complaint` finds is preferred from the first stream, and it is the traceback on the second
stream only where no progress hides it (`Tool.complaint_tells_iff`).
-/

namespace StubManager.Tool

open Shell

variable {δ : Type}

/-! ## The last line of a stream -/

/-- A line without words. -/
def Blank (line : List Char) : Prop := ∀ c ∈ line, Text.isBlank c

/-- The last line of a stream that is not blank. -/
def IsLastLine (stream : ByteArray) (line : List Char) : Prop :=
  ¬ Blank line ∧ ∃ before after,
    Text.lines (Utf8.decodeLossy stream) = before ++ line :: after ∧ ∀ other ∈ after, Blank other

/-- A stream all of whose lines are blank. -/
def Silent (stream : ByteArray) : Prop :=
  ∀ line ∈ Text.lines (Utf8.decodeLossy stream), Blank line

/-- What a tool is reported with that wrote to two streams, if the first one is preferred. -/
inductive Tells (first second : ByteArray) (status : Status) : String → Prop
  | first {line : List Char} (hlast : IsLastLine first line) :
    Tells first second status (String.ofList (Text.trim line))
  | second {line : List Char} (hsilent : Silent first) (hlast : IsLastLine second line) :
    Tells first second status (String.ofList (Text.trim line))
  | status (hfirst : Silent first) (hsecond : Silent second) :
    Tells first second status ("mpremote exited with " ++ status.describe)

theorem trimStart_eq_nil_iff {line : List Char} : Text.trimStart line = [] ↔ Blank line :=
  List.dropWhile_eq_nil_iff

theorem trim_eq_nil_iff {line : List Char} : Text.trim line = [] ↔ Blank line := by
  rw [Text.trim, List.reverse_eq_nil_iff, List.dropWhile_eq_nil_iff]
  constructor
  · intro h
    rw [← trimStart_eq_nil_iff]
    by_contra hne
    -- What is left once the blanks in front are dropped starts with a character that is none.
    have hhead := List.head_dropWhile_not Text.isBlank hne
    exact absurd (h _ (List.mem_reverse.2 (List.head_mem hne))) (ne_true_of_eq_false hhead)
  · exact fun h c hc => h c ((List.dropWhile_sublist _).subset (List.mem_reverse.1 hc))

/-- The last of some lines that is not blank, trimmed. -/
def lastWords? (lines : List (List Char)) : Option (List Char) :=
  (lines.map Text.trim).reverse.find? (!·.isEmpty)

theorem lastWords?_append (lines more : List (List Char)) :
    lastWords? (lines ++ more) = (lastWords? more).or (lastWords? lines) := by
  rw [lastWords?, List.map_append, List.reverse_append, List.find?_append]
  rfl

/-- The empty line that a line feed at the end makes is not looked at. -/
theorem lastWords?_linesOf (stream : ByteArray) :
    lastWords? (linesOf stream) = lastWords? (Text.lines (Utf8.decodeLossy stream)) := by
  rw [linesOf]
  split
  case isFalse => rfl
  case isTrue hlast =>
    obtain ⟨lines, hlines⟩ := List.getLast?_eq_some_iff.1 hlast
    rw [hlines, List.dropLast_concat, lastWords?_append]
    rfl

theorem lastWords?_eq_none_iff {lines : List (List Char)} :
    lastWords? lines = none ↔ ∀ line ∈ lines, Blank line := by
  rw [lastWords?, List.find?_eq_none]
  simp [← trim_eq_nil_iff]

theorem lastWords?_of_blank {before after : List (List Char)} {line : List Char}
    (hline : ¬ Blank line) (hafter : ∀ other ∈ after, Blank other) :
    lastWords? (before ++ line :: after) = some (Text.trim line) := by
  have hwords : lastWords? [line] = some (Text.trim line) := by
    have hnil : Text.trim line ≠ [] := mt trim_eq_nil_iff.1 hline
    simp [lastWords?, hnil]
  rw [← List.singleton_append, lastWords?_append, lastWords?_append,
    lastWords?_eq_none_iff.2 hafter, hwords]
  rfl

theorem exists_of_lastWords?_eq_some {lines : List (List Char)} {words : List Char}
    (h : lastWords? lines = some words) :
    ∃ before line after, lines = before ++ line :: after ∧ ¬ Blank line ∧
      (∀ other ∈ after, Blank other) ∧ words = Text.trim line := by
  induction lines using List.reverseRecOn with
  | nil => exact absurd h (by simp [lastWords?])
  | append_singleton lines line ih =>
    by_cases hline : Blank line
    · have hnone : lastWords? [line] = none := lastWords?_eq_none_iff.2 (by simpa using hline)
      rw [lastWords?_append, hnone, Option.none_or] at h
      obtain ⟨before, last, after, rfl, hlast, hafter, rfl⟩ := ih h
      refine ⟨before, last, after ++ [line], by simp, hlast, ?_, rfl⟩
      simpa [or_imp, forall_and] using ⟨hafter, hline⟩
    · have hlast : lastWords? (lines ++ [line]) = some (Text.trim line) :=
        lastWords?_of_blank hline (List.forall_mem_nil _)
      exact ⟨lines, line, [], rfl, hline, List.forall_mem_nil _,
        Option.some.inj (h.symm.trans hlast)⟩

/-- What a stream ends with is the last of its lines that is not blank. -/
theorem lastWords?_linesOf_eq_some_iff {stream : ByteArray} {words : List Char} :
    lastWords? (linesOf stream) = some words ↔
      ∃ line, IsLastLine stream line ∧ words = Text.trim line := by
  rw [lastWords?_linesOf]
  constructor
  · intro h
    obtain ⟨before, line, after, hlines, hline, hafter, rfl⟩ := exists_of_lastWords?_eq_some h
    exact ⟨line, ⟨hline, before, after, hlines, hafter⟩, rfl⟩
  · rintro ⟨line, ⟨hline, before, after, hlines, hafter⟩, rfl⟩
    rw [hlines, lastWords?_of_blank hline hafter]

theorem lastWords?_linesOf_eq_none_iff {stream : ByteArray} :
    lastWords? (linesOf stream) = none ↔ Silent stream := by
  rw [lastWords?_linesOf, lastWords?_eq_none_iff, Silent]

/-! ## Which stream is preferred -/

/-- What is told of two streams, computed. -/
theorem tells_iff {first second : ByteArray} {status : Status} {message : String} :
    Tells first second status message ↔
      message = (((lastWords? (linesOf first)).or (lastWords? (linesOf second))).map
        String.ofList).getD ("mpremote exited with " ++ status.describe) := by
  constructor
  · rintro (hlast | ⟨hsilent, hlast⟩ | ⟨hfirst, hsecond⟩)
    · rw [lastWords?_linesOf_eq_some_iff.2 ⟨_, hlast, rfl⟩]
      rfl
    · rw [lastWords?_linesOf_eq_none_iff.2 hsilent,
        lastWords?_linesOf_eq_some_iff.2 ⟨_, hlast, rfl⟩]
      rfl
    · rw [lastWords?_linesOf_eq_none_iff.2 hfirst, lastWords?_linesOf_eq_none_iff.2 hsecond]
      rfl
  · rintro rfl
    cases hfirst : lastWords? (linesOf first) with
    | some words =>
      obtain ⟨line, hlast, rfl⟩ := lastWords?_linesOf_eq_some_iff.1 hfirst
      exact .first hlast
    | none =>
      have hsilent := lastWords?_linesOf_eq_none_iff.1 hfirst
      cases hsecond : lastWords? (linesOf second) with
      | some words =>
        obtain ⟨line, hlast, rfl⟩ := lastWords?_linesOf_eq_some_iff.1 hsecond
        exact .second hsilent hlast
      | none => exact .status hsilent (lastWords?_linesOf_eq_none_iff.1 hsecond)

theorem complaint_eq (output : Output) :
    complaint output
      = (((lastWords? (linesOf output.stdout)).or (lastWords? (linesOf output.stderr))).map
        String.ofList).getD ("mpremote exited with " ++ output.status.describe) := by
  rw [← lastWords?_append, lastWords?, complaint]
  split <;> rename_i h <;> rw [h] <;> rfl

/-- The order of two streams matters only where both end with a line, and not with the same. -/
theorem tells_swap_iff {first second : ByteArray} {status : Status} {message : String}
    (htells : Tells first second status message) :
    Tells second first status message ↔
      ∀ line other, IsLastLine first line → IsLastLine second other →
        Text.trim other = Text.trim line := by
  rw [tells_iff] at htells ⊢
  subst htells
  constructor
  · intro h line other hline hother
    rw [lastWords?_linesOf_eq_some_iff.2 ⟨_, hline, rfl⟩,
      lastWords?_linesOf_eq_some_iff.2 ⟨_, hother, rfl⟩] at h
    exact (String.ofList_injective h).symm
  · intro h
    cases hfirst : lastWords? (linesOf first) with
    | none => rw [Option.none_or, Option.or_none]
    | some words =>
      obtain ⟨line, hline, rfl⟩ := lastWords?_linesOf_eq_some_iff.1 hfirst
      cases hsecond : lastWords? (linesOf second) with
      | none => rfl
      | some words =>
        obtain ⟨other, hother, rfl⟩ := lastWords?_linesOf_eq_some_iff.1 hsecond
        rw [h line other hline hother]

/-- A run of the tool that fails is reported with its complaint. -/
theorem require_of_failed {program : Path} {port : String} {arguments : List String}
    (failure : String → Failure) {link : Link δ} {output : Output} {world : World}
    (hrun : spawn program ("connect" :: port :: arguments) link.world = (.ok output, world))
    (hfailed : output.status.isSuccess = false) :
    require program port arguments failure link
      = (.error (failure (complaint output)), { link with world }) := by
  have hspawn : LinkAction.onWorld (ExceptT.lift (spawn program
      ("connect" :: port :: arguments)).run : Action Failure (Except FileFault Output)) link
        = (.ok (.ok output), { link with world }) := by
    have hlift : (ExceptT.lift (spawn program ("connect" :: port :: arguments)).run :
        Action Failure (Except FileFault Output)) link.world
          = (.ok (spawn program ("connect" :: port :: arguments) link.world).1,
            (spawn program ("connect" :: port :: arguments) link.world).2) := rfl
    rw [LinkAction.onWorld, hlift, hrun]
  have hinvoke : invoke program port arguments link
      = (.ok (.error (complaint output)), { link with world }) := by
    rw [invoke, Running.bind_apply, hspawn]
    dsimp only
    rw [hfailed]
    rfl
  rw [require, Running.bind_apply, hinvoke]
  rfl

/-- The second stream is where a traceback is. Whatever the tool writes and however it fails, the
message is the last line of the first stream, else that of the second, else how it ended. So the
traceback is told exactly if the first stream does not end with another line. -/
theorem complaint_tells_iff (output : Output) :
    Tells output.stdout output.stderr output.status (complaint output) ∧
    (Tells output.stderr output.stdout output.status (complaint output) ↔
      ∀ progress traceback, IsLastLine output.stdout progress →
        IsLastLine output.stderr traceback → Text.trim traceback = Text.trim progress) ∧
    ∀ (program : Path) (port : String) (arguments : List String) (failure : String → Failure)
      (link : Link δ) (world : World), output.status.isSuccess = false →
      spawn program ("connect" :: port :: arguments) link.world = (.ok output, world) →
      require program port arguments failure link
        = (.error (failure (complaint output)), { link with world }) := by
  have htells : Tells output.stdout output.stderr output.status (complaint output) :=
    tells_iff.2 (complaint_eq output)
  exact ⟨htells, tells_swap_iff htells,
    fun _ _ _ failure _ _ hfailed hrun => require_of_failed failure hrun hfailed⟩

/-- A tool that fails after it has told of its progress. -/
def progressing : Link Unit where
  world :=
    { root := .directory [("mpremote", .file
        ("#!/bin/sh\necho 'copying main.py'\necho Traceback >&2\n" ++
          "echo 'OSError: [Errno 5] EIO' >&2\necho >&2\nfalse\n").toUTF8 true)]
      cwd := []
      tempDir := ⟨"/tmp"⟩
      clock := default }
  device := ()

/-- What the tool writes to its two streams. -/
def progressed : Output where
  status := .exited 1
  stdout := "copying main.py\n".toUTF8
  stderr := "Traceback\nOSError: [Errno 5] EIO\n\n".toUTF8

theorem spawn_progressing :
    ∃ world, spawn ⟨"/mpremote"⟩ ["connect", "p", "run", "main.py"] progressing.world
      = (.ok progressed, world) := by
  have hrun : (spawn ⟨"/mpremote"⟩ ["connect", "p", "run", "main.py"]
      progressing.world).1.toOption.map (fun output => (output.status, output.stdout, output.stderr))
      = some (progressed.status, progressed.stdout, progressed.stderr) := by decide +kernel
  generalize spawn ⟨"/mpremote"⟩ ["connect", "p", "run", "main.py"] progressing.world = run at hrun
  obtain ⟨_ | output, world⟩ := run
  · cases hrun
  · exact ⟨world, by cases output; cases hrun; rfl⟩

/-- A script that fails after some progress fails with the progress. -/
theorem complaint_tells_iff_of_progress :
    ∃ world, require ⟨"/mpremote"⟩ "p" ["run", "main.py"] .scriptFailed progressing
      = (.error (.scriptFailed "copying main.py"), { progressing with world }) := by
  obtain ⟨world, hrun⟩ := spawn_progressing
  have hcomplaint : complaint progressed = "copying main.py" := by decide +kernel
  rw [← hcomplaint]
  exact ⟨world, (complaint_tells_iff progressed).2.2 _ _ _ .scriptFailed progressing world
    (by decide) hrun⟩

/-- The traceback of a tool is not what it is reported with if it has told of its progress. -/
theorem not_tells_of_progress :
    ∃ world, spawn ⟨"/mpremote"⟩ ["connect", "p", "run", "main.py"] progressing.world
        = (.ok progressed, world) ∧ progressed.status.isSuccess = false ∧
      Tells progressed.stderr progressed.stdout progressed.status "OSError: [Errno 5] EIO" ∧
      complaint progressed = "copying main.py" ∧
      ¬ Tells progressed.stderr progressed.stdout progressed.status (complaint progressed) := by
  obtain ⟨world, hrun⟩ := spawn_progressing
  have htold : Tells progressed.stderr progressed.stdout progressed.status
      "OSError: [Errno 5] EIO" := tells_iff.2 (by decide +kernel)
  refine ⟨world, hrun, by decide, htold, by decide +kernel, fun htells => ?_⟩
  have h := (tells_iff.1 htells).trans (tells_iff.1 htold).symm
  exact absurd h (by decide +kernel)

end StubManager.Tool
