import StubManager.Proofs.Installation.Scripts
import StubManager.Proofs.Installation.Seclusion

/-!
# Working directories of extractions

An extraction works in a new directory (`Quartered`). If temporary directories lie apart from the
stubs and the list (`Spaced`), so does what is staged in it, and with the directory a staged file is
gone: main statements `Quartered.secluded` and `Quartered.removeTree_erase`.
-/

namespace StubManager

open Node Running World Registry Files

/-! ## Room for names -/

theorem Text.mem_of_mem_splitAt {sep c : Char} {text part : List Char}
    (hpart : part ∈ splitAt sep text) (h : c ∈ part) : c ∈ text := by
  induction text generalizing part with
  | nil =>
    rw [splitAt, List.mem_singleton] at hpart
    exact hpart ▸ h
  | cons first text ih =>
    rw [splitAt] at hpart
    split at hpart
    · obtain rfl | hpart := List.mem_cons.1 hpart
      · cases h
      · exact List.mem_cons_of_mem _ (ih hpart h)
    · cases hsplit : splitAt sep text with
      | nil => exact absurd hsplit (splitAt_ne_nil sep text)
      | cons second more =>
        rw [hsplit] at hpart ih
        obtain rfl | hpart := List.mem_cons.1 hpart
        · obtain rfl | h := List.mem_cons.1 h
          · exact List.mem_cons_self
          · exact List.mem_cons_of_mem _ (ih List.mem_cons_self h)
        · exact List.mem_cons_of_mem _ (ih (List.mem_cons_of_mem _ hpart) h)

/-- Whether a name can be that of a file. -/
structure Usable (name : String) : Prop where
  isName : IsName name
  short : name.utf8ByteSize ≤ nameLimit
  zero : '\x00' ∉ name.toList

/-- The last name of a path that leads somewhere. -/
theorem usable_of_valid {p : Path} {name : String} (hname : IsName name) (hends : p.EndsWith name)
    (hvalid : Valid p) : Usable name where
  isName := hname
  short := Nat.not_lt.1 (short_of_endsWith hname hends hvalid)
  zero h := by
    have hfault := hvalid.1
    rw [pathFault?, if_pos] at hfault
    · cases hfault
    · rw [List.contains_iff_mem]
      exact Text.mem_of_mem_splitAt (List.mem_of_getLast? hends) h

theorem valid_join {p : Path} {name : String} (h : Usable name) (hvalid : Valid p)
    (hroom : p.text.utf8ByteSize + nameLimit + 1 < pathLimit) : Valid (p.join name) := by
  refine ⟨?_, (short_steps_join_iff p h.isName).2 ⟨hvalid.2, h.short⟩⟩
  have hzero : '\x00' ∉ p.text.toList := by
    intro hmem
    have hfault := hvalid.1
    rw [pathFault?, if_pos (List.contains_iff_mem.2 hmem)] at hfault
    cases hfault
  have hempty := Path.text_ne_of_endsWith h.isName (Path.endsWith_join p h.isName)
  have hshort := h.short
  rw [pathFault?, if_neg, if_neg hempty, if_neg]
  · rw [text_join p h.isName, String.utf8ByteSize_append, String.utf8ByteSize_append]
    split
    · rw [show "".utf8ByteSize = 0 from rfl]
      omega
    · rw [show "/".utf8ByteSize = 1 from rfl]
      omega
  · rw [List.contains_iff_mem, text_join p h.isName]
    split <;> simp [hzero, h.zero]

/-! ## Temporary directories of their own -/

/-- A path goes over the places where it turns back. -/
theorem Path.TurnsAt.passes {p : Path} {cwd turn : List String} (h : p.TurnsAt cwd turn) :
    p.Passes cwd turn := by
  obtain ⟨front, hfront, rfl⟩ := h
  exact ⟨front, (List.prefix_append _ _).trans hfront, rfl⟩

namespace World

/-- Where a working directory of a name comes to lie. -/
def lodge (w : World) (name : String) : List String := w.tempDir.place w.cwd ++ [name]

/-- The world with a new working directory. -/
def housed (w : World) (name : String) : World := w.put (w.lodge name) (.directory [])

/-- The world with a file in a new working directory. -/
def staged (w : World) (name entry : String) (contents : ByteArray) : World :=
  (w.housed name).put (w.lodge name ++ [entry]) (.file contents false)

end World

/-- Whether temporary directories lie apart from the stubs of a registry and from the list, and have
room for files. -/
structure Spaced (home : Path) (manifest : Option Manifest) (w : World) : Prop where
  settled : Settled home w
  stubs : ∀ place, w.tempDir.Passes w.cwd place → ¬ home.place w.cwd ++ [stubsName] <+: place
  list : ∀ m ∈ manifest, ∀ name ∈ temporaryNames "mpstubs-create-",
    w.root.get? (w.lodge name) = none → Avoids (w.lodge name) w.cwd m.path
  room : w.tempDir.text.utf8ByteSize + 2 * (nameLimit + 1) < pathLimit

/-- A place for temporary directories that is reached without turning back, if the list is there. -/
theorem Spaced.of_straight {home : Path} {manifest : Option Manifest} {w : World}
    (hsettled : Settled home w) (hstraight : ".." ∉ w.tempDir.names)
    (hstubs : ¬ home.place w.cwd ++ [stubsName] <+: w.tempDir.place w.cwd)
    (hlist : ∀ m ∈ manifest, ".." ∉ m.path.names ∧ w.root.get? (m.path.place w.cwd) ≠ none)
    (hroom : w.tempDir.text.utf8ByteSize + 2 * (nameLimit + 1) < pathLimit) :
    Spaced home manifest w where
  settled := hsettled
  stubs _ hpasses hle := hstubs (hle.trans (hpasses.le_of_straight hstraight))
  list m hm _ _ hvacant :=
    .of_straight (hlist m hm).1 (not_le_of_get?_ne_none (hlist m hm).2 hvacant)
  room := hroom

/-- Whether a working directory can be made of a name. -/
structure Quartered (w : World) (name : String) : Prop where
  plain : w.root.Plain
  mem : name ∈ temporaryNames "mpstubs-create-"
  parent : w.root.DirAt (w.tempDir.place w.cwd)
  vacant : w.root.get? (w.lodge name) = none
  turns : ∀ turn, w.tempDir.TurnsAt w.cwd turn → w.root.DirAt turn
  valid : Valid (w.tempDir.join name)

/-- A working directory is made, or nothing is. -/
theorem makeTemporary_quartered {w : World} (hplain : w.root.Plain) :
    (∃ failure, makeTemporary "mpstubs-create-" w = (.error failure, w)) ∨
      ∃ name, Quartered w name ∧
        makeTemporary "mpstubs-create-" w = (.ok (w.tempDir.join name), w.housed name) := by
  have hstem : '/' ∉ "mpstubs-create-".toList ∧ 2 < "mpstubs-create-".length := by decide
  obtain hfailed | ⟨l, hmake⟩ := Lodging.of_makeTemporary hstem w
  · exact .inl hfailed
  obtain ⟨name, hmem, hpath, hplace, hvacant, hparent, hput, -⟩ :=
    of_makeTemporary_eq_ok hplain hstem hmake
  have hname := isName_of_mem_temporaryNames hstem.1 hstem.2 hmem
  rw [hplace] at hvacant hput
  have hturns : ∀ turn, w.tempDir.TurnsAt w.cwd turn → w.root.DirAt turn := fun turn hturn =>
    dirAt_of_locate_eq_vacant hplain (hpath ▸ l.locate) ((Path.turnsAt_join hname).2 hturn)
  obtain ⟨-, -, -, -, hvalid⟩ := of_locate_eq_vacant hplain l.locate
  refine .inr ⟨name, ⟨hplain, hmem, hparent, hvacant, hturns, hpath ▸ hvalid⟩, ?_⟩
  rw [hmake, hput, hpath]
  rfl

namespace Quartered

variable {w : World} {name : String} (h : Quartered w name)
include h

theorem isName : IsName name := isName_of_mem_temporaryNames (by decide) (by decide) h.mem

theorem not_le_of_dirAt {place : List String} (hdir : w.root.DirAt place) :
    ¬ w.lodge name <+: place :=
  fun hle => not_dirAt_of_none h.vacant (hdir.of_below hle)

theorem avoids : Avoids (w.lodge name) w.cwd w.tempDir := by
  intro place hpasses hle
  obtain ⟨turn, hturn, hle'⟩ | hle' := hpasses.le
  · exact h.not_le_of_dirAt (h.turns turn hturn) (hle.trans hle')
  · exact h.not_le_of_dirAt h.parent (hle.trans hle')

/-- A working directory lies apart from what an installation touches. -/
theorem secluded {home : Path} {manifest : Option Manifest} (hspaced : Spaced home manifest w)
    (entry : String) (contents : ByteArray) :
    Secluded home manifest (w.tempDir.TurnsAt w.cwd) (w.staged name entry contents)
      (w.lodge name) where
  home place hpasses hle := by
    have hbeside := hspaced.settled.beside_temporary (by decide) h.mem h.vacant
    obtain ⟨turn, hturn, hle'⟩ | hle' := hpasses.le
    · exact hbeside.way turn (.inl hturn) (hle.trans hle')
    · exact hbeside.way _ (.inr rfl) (hle.trans hle')
  stubs := by
    rw [lodge, List.prefix_concat_iff]
    rintro (heq | hle)
    · have hother : ¬ "mpstubs-create-".toList <+: stubsName.toList := by decide
      exact ne_of_mem_temporaryNames hother h.mem
        (List.cons.inj (List.append_inj' heq rfl).2).1.symm
    · exact hspaced.stubs _ (w.tempDir.passes_place w.cwd) hle
  rest turn hturn := hspaced.stubs turn hturn.passes
  list m hm := hspaced.list m hm name h.mem h.vacant
  temporary := h.avoids

/-- There is room for the names of files in a working directory. -/
theorem valid_entry {home : Path} {manifest : Option Manifest} (hspaced : Spaced home manifest w)
    {entry : String} (hentry : Usable entry) : Valid ((w.tempDir.join name).join entry) := by
  refine valid_join hentry h.valid ?_
  have hshort := short_of_endsWith h.isName (Path.endsWith_join w.tempDir h.isName) h.valid
  have hroom := hspaced.room
  rw [text_join w.tempDir h.isName, String.utf8ByteSize_append, String.utf8ByteSize_append]
  split
  · rw [show "".utf8ByteSize = 0 from rfl]
    omega
  · rw [show "/".utf8ByteSize = 1 from rfl]
    omega

/-! ### The new directory -/

theorem plain_housed : (w.housed name).root.Plain := by
  refine h.plain.alter fun _ heq => Option.some.inj heq ▸ ⟨?_, plain_empty⟩
  simpa [lodge] using h.isName

theorem get?_housed : (w.housed name).root.get? (w.lodge name) = some (.directory []) :=
  h.plain.get?_alter_self h.parent

theorem dirAt_housed {place : List String} (hdir : w.root.DirAt place) :
    (w.housed name).root.DirAt place :=
  (dirAt_alter_iff _ (h.not_le_of_dirAt hdir)).2 hdir

theorem find?_workdir :
    (w.housed name).find? (w.tempDir.join name) = some (.directory []) := by
  rw [find?_of_endsWith h.plain_housed h.isName (Path.endsWith_join _ h.isName)
    (fun turn hturn => h.dirAt_housed (h.turns turn ((Path.turnsAt_join h.isName).1 hturn))) h.valid]
  have hplace := Path.place_join w.tempDir h.isName w.cwd
  rw [show (w.housed name).cwd = w.cwd from rfl, hplace]
  exact h.get?_housed

/-- The new directory hides no file. -/
theorem find?_file {p : Path} {data : ByteArray} {mode : Bool}
    (hfind : w.find? p = some (.file data mode)) :
    (w.housed name).find? p = some (.file data mode) := by
  have hframe : Frame (· = w.lodge name) w (w.housed name) :=
    frame_makeDirectory h.plain h.isName h.parent h.vacant (List.prefix_refl _)
  refine find?_beside h.plain hframe (fun _ heq => heq ▸ List.prefix_refl _) h.vacant ?_ hfind
  have hnode := (locate_of_find? h.plain hfind true).2
  rw [lodge, List.prefix_concat_iff]
  rintro (heq | hle)
  · rw [heq, ← lodge, h.vacant] at hnode
    cases hnode
  · exact FileAt.not_dirAt ⟨data, mode, hnode⟩ (h.parent.of_below hle)

/-! ### What is staged in it -/

theorem avoids_workdir (entry : String) :
    Avoids (w.lodge name ++ [entry]) w.cwd (w.tempDir.join name) :=
  (h.avoids.mono (List.prefix_append _ _)).join h.isName (not_concat_le _ _)

/-- Directories of other names in the working directory lie beside what is staged. -/
theorem clear_beside {entry other : String} (hother : IsName other) (hne : entry ≠ other) :
    Clear (w.lodge name ++ [entry]) w.cwd ((w.tempDir.join name).join other) ∧
      Aloof (· = w.lodge name ++ [entry]) (w.tempDir.TurnsAt w.cwd)
        (((w.tempDir.join name).join other).place w.cwd) := by
  have hplace := Path.place_join w.tempDir h.isName w.cwd
  have hplace' := Path.place_join (w.tempDir.join name) hother w.cwd
  rw [hplace] at hplace'
  have hbelow : ¬ w.lodge name ++ [entry] <+: w.lodge name ++ [other] := by
    rw [List.prefix_append_right_inj]
    simpa [List.cons_prefix_cons] using hne
  have habove : ¬ w.lodge name ++ [other] <+: w.lodge name ++ [entry] := by
    rw [List.prefix_append_right_inj]
    simpa [List.cons_prefix_cons] using hne.symm
  rw [lodge] at hbelow habove
  refine ⟨⟨(h.avoids_workdir entry).join hother ?_, ?_⟩, ?_, fun turn hturn hle => ?_⟩
  · rw [hplace]
    exact hbelow
  · rw [hplace']
    exact habove
  · rintro _ rfl
    rw [hplace']
    exact ⟨hbelow, habove⟩
  · rw [hplace'] at hle
    exact h.not_le_of_dirAt (h.turns turn hturn) ((List.prefix_append _ _).trans hle)

section

variable {entry : String} (hentry : IsName entry) (contents : ByteArray)
include hentry

/-- What is staged is a file, and can be taken away again. -/
theorem staged_spec :
    (w.staged name entry contents).root.Plain ∧
      (w.staged name entry contents).root.get? (w.lodge name ++ [entry])
        = some (.file contents false) ∧
      (w.staged name entry contents).erase (w.lodge name ++ [entry]) = w.housed name ∧
      ∀ turn, w.tempDir.TurnsAt w.cwd turn → (w.staged name entry contents).root.DirAt turn := by
  have hvacant : (w.housed name).root.get? (w.lodge name ++ [entry]) = none := by
    rw [get?_concat h.get?_housed]
    rfl
  obtain ⟨w', hput, -, hplain, hnode, herase, hdirs⟩ :=
    put_draft h.plain_housed hentry ⟨_, h.get?_housed⟩ hvacant contents
  rw [staged, hput]
  exact ⟨hplain, hnode, herase, fun turn hturn => hdirs turn (h.dirAt_housed (h.turns turn hturn))⟩

theorem spared_staged :
    Spared (· = w.lodge name ++ [entry]) (w.tempDir.TurnsAt w.cwd)
      (w.staged name entry contents) (w.staged name entry contents) := by
  obtain ⟨hplain, -, -, hturns⟩ := h.staged_spec hentry contents
  exact .refl _ hplain hturns

/-- What is staged is found by its name in the working directory. -/
theorem find?_staged (hvalid : Valid ((w.tempDir.join name).join entry)) :
    (w.staged name entry contents).find? ((w.tempDir.join name).join entry)
      = some (.file contents false) := by
  obtain ⟨hplain, hnode, -, hturns⟩ := h.staged_spec hentry contents
  rw [find?_of_endsWith hplain hentry (Path.endsWith_join _ hentry) (fun turn hturn => ?_) hvalid]
  · have hplace := Path.place_join w.tempDir h.isName w.cwd
    have hplace' := Path.place_join (w.tempDir.join name) hentry w.cwd
    rw [show (w.staged name entry contents).cwd = w.cwd from rfl, hplace', hplace]
    exact hnode
  · exact hturns turn
      ((Path.turnsAt_join h.isName).1 ((Path.turnsAt_join hentry).1 hturn))

/-- With the working directory what was staged in it is gone. -/
theorem removeTree_erase {w' : World}
    (hw' : Spared (· = w.lodge name ++ [entry]) (w.tempDir.TurnsAt w.cwd)
      (w.staged name entry contents) w') :
    quietly (removeTree (w.tempDir.join name)) (w'.erase (w.lodge name ++ [entry]))
      = quietly (removeTree (w.tempDir.join name)) w' := by
  obtain ⟨-, hnode, -, -⟩ := h.staged_spec hentry contents
  have hcwd : w'.cwd = w.cwd := hw'.cwd
  have hplace : (w.tempDir.join name).place w'.cwd = w.lodge name := by
    rw [hcwd, Path.place_join w.tempDir h.isName]
    rfl
  have hplain : (w'.erase (w.lodge name ++ [entry])).root.Plain :=
    hw'.plain.alter fun _ heq => nomatch heq
  obtain ⟨entries, hentries⟩ := dirAt_of_get? ((hw'.same _ rfl).trans hnode)
  have hfind : w'.find? (w.tempDir.join name) = some (.directory entries) := by
    rw [find?_of_endsWith hw'.plain h.isName (Path.endsWith_join _ h.isName) (fun turn hturn => ?_)
      h.valid, hplace, hentries]
    rw [hcwd] at hturn
    exact hw'.dir turn ((Path.turnsAt_join h.isName).1 hturn)
  obtain ⟨back, hback⟩ := find?_erase hw'.plain (hcwd ▸ h.avoids_workdir entry)
  obtain ⟨entries', hentries'⟩ := exists_alter_directory (fun _ => none) back entries
  rw [hfind, Option.map_some, hentries'] at hback
  rw [quietly_apply, quietly_apply, removeTree_of_isDirectory hplain hback,
    removeTree_of_isDirectory hw'.plain hfind]
  refine congrArg (fun root => { w' with root }) ?_
  rw [show (w'.erase (w.lodge name ++ [entry])).cwd = w'.cwd from rfl, hplace]
  exact hw'.plain.erase_alter_below _ _ _ _

end

end Quartered

end StubManager
