import Mathlib.Data.List.Forall2
import StubManager.Proofs.Registry.Store

/-!
# Names of install directories

Every valid name of a stub has an install directory, and two names share one exactly if they differ
at most in characters that directories are not called by (`directory_same_iff`). Installing or
removing a stub leaves the directory of any name that does not share it (`directories_apart`),
unless that is the one that the stub comes in by; a stub under a name that does share it loses its
files (`lost_of_alike`).
-/

namespace StubManager

open Node World Running

theorem Path.plainName?_of_isName {name : String} (h : IsName name) :
    (Path.mk name).plainName? = some name := by
  have hparts : (Path.mk name).parts = [name.toList] := Text.splitAt_of_not_mem h.2.2.2
  have hempty : name.toList ≠ [] := fun heq => h.1 (String.toList_inj.1 heq)
  have hdot : name.toList ≠ ['.'] := fun heq => h.2.1 (String.toList_inj.1 heq)
  have hup : name.toList ≠ ['.', '.'] := fun heq => h.2.2.1 (String.toList_inj.1 heq)
  have hcomponents : (Path.mk name).components = [.name name] := by
    rw [components, hparts]
    dsimp only
    rw [if_neg hempty, if_neg hdot, componentOf, if_neg hup, String.ofList_toList]
    rfl
  rw [plainName?, hcomponents]
  exact if_pos rfl

theorem Bundle.isValidName_iff {name : String} : isValidName name ↔ IsName name := by
  rw [isValidName, Option.isSome_iff_exists]
  constructor
  · rintro ⟨part, hpart⟩
    obtain ⟨hname, rfl⟩ := Path.isName_of_plainName? hpart
    exact hname
  · exact fun h => ⟨name, Path.plainName?_of_isName h⟩

namespace Registry

/-! ## Characters -/

/-- Whether a character of a name is an underscore in the name of the directory. -/
def Blurred (c : Char) : Prop := c = '_' ∨ c = '\\' ∨ c = ':'

instance : DecidablePred Blurred := fun c => inferInstanceAs (Decidable (c = '_' ∨ _))

/-- Whether two characters of names are the same in the names of the directories. -/
def Alike (c d : Char) : Prop := c = d ∨ Blurred c ∧ Blurred d

instance : DecidableRel Alike := fun c d => inferInstanceAs (Decidable (c = d ∨ _))

/-- The character of a directory's name that stands for one of a name. -/
def underscored (c : Char) : Char := if c = '/' || c = '\\' || c = ':' then '_' else c

theorem toList_directoryName (name : String) :
    (directoryName name).toList = name.toList.map underscored := String.toList_map

theorem underscored_of_not_blurred {c : Char} (hslash : c ≠ '/') (h : ¬ Blurred c) :
    underscored c = c := by
  rw [Blurred, not_or, not_or] at h
  simp [underscored, hslash, h.2.1, h.2.2]

theorem underscored_of_blurred {c : Char} (h : Blurred c) : underscored c = '_' := by
  obtain rfl | rfl | rfl := h <;> rfl

theorem underscored_eq_iff {c d : Char} (hc : c ≠ '/') (hd : d ≠ '/') :
    underscored c = underscored d ↔ Alike c d := by
  by_cases hc' : Blurred c
  · rw [underscored_of_blurred hc', Alike]
    by_cases hd' : Blurred d
    · simp [underscored_of_blurred hd', hc', hd']
    · rw [underscored_of_not_blurred hd hd']
      constructor
      · rintro rfl
        exact absurd (.inl rfl) hd'
      · rintro (rfl | ⟨-, hd''⟩)
        · exact absurd hc' hd'
        · exact absurd hd'' hd'
  · rw [underscored_of_not_blurred hc hc', Alike]
    by_cases hd' : Blurred d
    · rw [underscored_of_blurred hd']
      constructor
      · rintro rfl
        exact absurd (.inl rfl) hc'
      · rintro (rfl | ⟨hc'', -⟩)
        · exact absurd hd' hc'
        · exact absurd hc'' hc'
    · simp [underscored_of_not_blurred hd hd', hc']

theorem underscored_eq_dot {c : Char} : underscored c = '.' ↔ c = '.' := by
  rw [underscored]
  split
  · next h =>
    simp only [Bool.or_eq_true, decide_eq_true_eq] at h
    obtain (rfl | rfl) | rfl := h <;> decide
  · exact Iff.rfl

theorem underscored_ne_separator (c : Char) : underscored c ≠ '/' := by
  rw [underscored]
  split
  · decide
  · next h =>
    simp only [Bool.or_eq_true, decide_eq_true_eq, not_or] at h
    exact h.1.1

/-! ## Names -/

/-- A valid name makes a valid name of a directory. -/
theorem isName_directoryName {name : String} (h : IsName name) : IsName (directoryName name) := by
  rw [IsName, ← String.toList_inj.ne, ← String.toList_inj.ne, ← String.toList_inj.ne,
    toList_directoryName]
  refine ⟨fun heq => h.1 ?_, fun heq => h.2.1 ?_, fun heq => h.2.2.1 ?_, ?_⟩
  · exact String.toList_inj.1 (List.map_eq_nil_iff.1 heq)
  · obtain ⟨c, hc, hdot⟩ := List.map_eq_singleton_iff.1 heq
    exact String.toList_inj.1 (hc.trans (congrArg ([·]) (underscored_eq_dot.1 hdot)))
  · obtain ⟨c, more, hc, hfirst, hmore⟩ := List.map_eq_cons_iff.1 heq
    obtain ⟨d, rfl, hsecond⟩ := List.map_eq_singleton_iff.1 hmore
    obtain rfl : c = '.' := underscored_eq_dot.1 hfirst
    obtain rfl : d = '.' := underscored_eq_dot.1 hsecond
    exact String.toList_inj.1 hc
  · rw [List.mem_map]
    rintro ⟨c, -, hc⟩
    exact underscored_ne_separator c hc

/-- Names are the same for directories if their characters are. -/
theorem directoryName_eq_iff {name other : String} (h : '/' ∉ name.toList)
    (h' : '/' ∉ other.toList) :
    directoryName name = directoryName other ↔ List.Forall₂ Alike name.toList other.toList := by
  rw [← String.toList_inj, toList_directoryName, toList_directoryName]
  generalize name.toList = chars at h
  generalize other.toList = others at h'
  induction chars generalizing others with
  | nil => cases others <;> simp
  | cons c chars ih =>
    cases others with
    | nil => simp
    | cons d others =>
      rw [List.mem_cons, not_or] at h h'
      rw [List.map_cons, List.map_cons, List.cons.injEq, List.forall₂_cons, ih h.2 others h'.2,
        underscored_eq_iff (Ne.symm h.1) (Ne.symm h'.1)]

/-! ## Directories -/

theorem directory_of_isName (registry : Registry) {name : String} (h : IsName name) :
    registry.directory name = .ok (stubPath registry.home (directoryName name)) := by
  rw [Registry.directory, Path.plainName?_of_isName (isName_directoryName h)]
  rfl

theorem stubPath_same_iff (base : Path) {part other : String} (h : IsName part)
    (h' : IsName other) : (stubPath base part).same (stubPath base other) ↔ part = other := by
  constructor
  · intro hsame
    have hplace := Path.place_of_same hsame []
    rw [place_stubPath base h, place_stubPath base h'] at hplace
    simpa [entryPlace] using hplace
  · rintro rfl
    simp [Path.same]

/-- Two names share a directory exactly if they differ at most in characters that directories are
not called by. -/
theorem directory_same_iff (registry : Registry) {name other : String} (h : IsName name)
    (h' : IsName other) :
    (stubPath registry.home (directoryName name)).same
        (stubPath registry.home (directoryName other))
      ↔ List.Forall₂ Alike name.toList other.toList := by
  rw [stubPath_same_iff _ (isName_directoryName h) (isName_directoryName h'),
    directoryName_eq_iff h.2.2.2 h'.2.2.2]

/-- A change of one stub leaves what is at the directory of another entry. -/
theorem Confined.find?_stub {base : Path} {part other : String} {w w' : World}
    (hsteady : Steady base part w) (h : Confined (base.place w.cwd) part w w')
    (hother : IsName other) (hne : other ≠ part) (hne' : other ≠ incomingName part) :
    w'.find? (stubPath base other) = w.find? (stubPath base other) := by
  have hsteady' := hsteady.confined h
  by_cases hvalid : Valid (stubPath base other)
  · rw [find?_of_under hsteady.plain (under_stub base hother)
        (fun turn hturn => (hsteady.turns turn hturn).1) hvalid,
      find?_of_under hsteady'.plain (under_stub base hother)
        (fun turn hturn => (hsteady'.turns turn hturn).1) hvalid,
      h.frame.cwd, place_stubPath base hother]
    refine h.frame.apart _ ?_
    rintro t (rfl | rfl | rfl)
    · exact (index_apart other).symm
    · exact entries_apart hne.symm
    · exact entries_apart hne'.symm
  · rw [find?_of_not_valid hsteady.plain hvalid, find?_of_not_valid hsteady'.plain hvalid]

/-- Valid names have directories of their own, but for characters that directories are not called
by; and installing or removing a stub leaves the directory of every name that has another one,
unless the stub comes in by it. -/
theorem directories_apart (registry : Registry) {name other : String}
    (hname : Bundle.isValidName name) (hother : Bundle.isValidName other) :
    ∃ directory directory', registry.directory name = .ok directory ∧
      registry.directory other = .ok directory' ∧
      (directory.same directory' ↔ List.Forall₂ Alike name.toList other.toList) ∧
      ∀ world, Steady registry.home (directoryName name) world →
        ¬ List.Forall₂ Alike name.toList other.toList →
        directoryName other ≠ incomingName (directoryName name) →
        (∀ bundle : Bundle, bundle.name = name →
          (install bundle { world, registry }).2.world.find? directory' = world.find? directory') ∧
        (uninstall name { world, registry }).2.world.find? directory' = world.find? directory' := by
  rw [Bundle.isValidName_iff] at hname hother
  refine ⟨_, _, directory_of_isName registry hname, directory_of_isName registry hother,
    directory_same_iff registry hname hother, fun world hsteady hapart hincoming => ?_⟩
  rw [← directoryName_eq_iff hname.2.2.2 hother.2.2.2] at hapart
  have hpart := isName_directoryName hother
  constructor
  · rintro bundle rfl
    have hinstall := store_confined.install bundle { world, registry } hsteady
    exact hinstall.find?_stub hsteady hpart (Ne.symm hapart) hincoming
  · have huninstall := store_confined.uninstall name { world, registry } hsteady
    exact huninstall.find?_stub hsteady hpart (Ne.symm hapart) hincoming

/-- A home with the files of the stub `a_b` and the records of the given names. -/
def blurredSite (names : List String) : Site where
  world :=
    { root := .directory [("home", .directory [
        ("stubs", .directory [("a_b", .directory [("pin.pyi", .file .empty false)])])])]
      cwd := []
      tempDir := ⟨"tmp"⟩
      clock := default }
  registry := {
    home := ⟨"home"⟩
    records := names.map fun name => { (default : Record) with name } }

theorem blurredSite_plain (names : List String) : (blurredSite names).world.root.Plain := by
  simp [blurredSite, plain_directory_iff, plain_file, IsName]

theorem directories_apart_of_other_name :
    (uninstall "a:c" (blurredSite ["a_b", "a:c"])).2.world.find? ⟨"home/stubs/a_b"⟩
      = (blurredSite ["a_b", "a:c"]).world.find? ⟨"home/stubs/a_b"⟩ := by
  obtain ⟨directory, directory', -, hdirectory', -, hapart⟩ :=
    directories_apart (blurredSite ["a_b", "a:c"]).registry
      (by decide +kernel : Bundle.isValidName "a:c") (by decide +kernel : Bundle.isValidName "a_b")
  have hpath : (blurredSite ["a_b", "a:c"]).registry.directory "a_b" = .ok ⟨"home/stubs/a_b"⟩ := by
    decide +kernel
  rw [hpath] at hdirectory'
  cases hdirectory'
  have hstraight : ".." ∉ (⟨"home"⟩ : Path).names := by decide +kernel
  refine (hapart (blurredSite ["a_b", "a:c"]).world
    ⟨blurredSite_plain _, fun turn hturn => ?_⟩ ?_ ?_).2
  · exact absurd hturn (Path.not_turnsAt_of_not_mem hstraight _ turn)
  · decide +kernel
  · decide +kernel

/-- Two names differ only in a character that directories are not called by; taking away the stub
of the one takes away the files of the other. -/
theorem lost_of_alike :
    Bundle.isValidName "a_b" ∧ Bundle.isValidName "a:b" ∧
      (∀ name ∈ ["a_b", "a:b"], (blurredSite ["a_b", "a:b"]).registry.directory name
        = .ok ⟨"home/stubs/a_b"⟩) ∧
      (uninstall "a:b" (blurredSite ["a_b", "a:b"])).1.toOption.isSome ∧
      (uninstall "a:b" (blurredSite ["a_b", "a:b"])).2.registry.records.map (·.name) = ["a_b"] ∧
      (blurredSite ["a_b", "a:b"]).world.exists? ⟨"home/stubs/a_b/pin.pyi"⟩ ∧
      ¬ (uninstall "a:b" (blurredSite ["a_b", "a:b"])).2.world.exists? ⟨"home/stubs/a_b"⟩ := by
  decide +kernel

end Registry

end StubManager
