import StubManager.Proofs.FileTree.Effects

/-!
# Frames of file operations

What operations keep away from the places they are given: writing and removing (`keeps_writeWith`,
`keeps_removeTree`), making directories (`frame_makeDirectories`) and copying trees, which changes
nothing but what lies inside the target (`keeps_copyTree`).
-/

namespace StubManager

open Node Running World

namespace Files

variable {touched : List String → Prop} {w₀ : World}

/-! ## Reading -/

theorem keeps_read {I : World → Prop} (p : Path) : Keeps I (read p) := by
  refine (keeps_orFault _).bind fun _ place _ _ => ?_
  split
  · exact keeps_throw _
  · refine keeps_get.bind fun _ _ _ _ => ?_
    split
    · exact keeps_pure _
    · exact keeps_throw _
    · exact keeps_throw _

theorem keeps_list {I : World → Prop} (p : Path) : Keeps I (list p) := by
  refine (keeps_orFault _).bind fun _ place _ _ => ?_
  split
  · exact keeps_throw _
  · refine keeps_get.bind fun _ _ _ _ => ?_
    split
    · exact keeps_pure _
    · exact keeps_throw _
    · exact keeps_throw _

/-- Directories list proper names. -/
theorem isName_of_list {w : World} (hplain : w.root.Plain) {p : Path} {names : List String}
    (h : (list p w).1 = .ok names) : ∀ name ∈ names, IsName name := by
  rw [list, bind_apply, orFault_apply] at h
  cases hlocate : w.locate true p with
  | error fault =>
    rw [hlocate] at h
    cases h
  | ok place =>
    rw [hlocate] at h
    cases place with
    | vacant parent name asDirectory => cases h
    | node place =>
      simp only [bind_apply, get_apply] at h
      cases hnode : w.root.get? place with
      | none =>
        rw [hnode] at h
        cases h
      | some node =>
        rw [hnode] at h
        cases node with
        | file data mode => cases h
        | link target => cases h
        | directory entries =>
          cases h
          intro name hname
          obtain ⟨entry, hentry, rfl⟩ := List.mem_map.1 hname
          exact hplain.named place entries hnode entry hentry

/-! ## Single entries -/

theorem keeps_writeWith (hplain : w₀.root.Plain) {t : List String} (ht : touched t) {p : Path}
    (hle : t <+: p.place w₀.cwd) (executable : Option Bool) (data : ByteArray) :
    Keeps (Frame touched w₀) (writeWith executable p data) := by
  intro w hw
  rw [← hw.cwd] at hle
  obtain ⟨fault, h⟩ | ⟨parent, name, hplace, hname, -, -, -, h⟩ | ⟨old, mode, hfind, h⟩ :=
    writeWith_cases (hw.plain hplain) executable p data
  · rwa [h]
  · rw [h]
    rw [hplace] at hle
    exact hw.put ht hle (by simpa using hname) (plain_file _ _)
  · rw [h]
    have hnode := (locate_of_find? (hw.plain hplain) hfind true).2
    exact hw.put ht hle (isName_getLast? (hw.plain hplain) hnode) (plain_file _ _)

theorem keeps_removeTree (hplain : w₀.root.Plain) {t : List String} (ht : touched t) {p : Path}
    (hle : t <+: p.place w₀.cwd) : Keeps (Frame touched w₀) (removeTree p) := by
  intro w hw
  rw [← hw.cwd] at hle
  obtain ⟨fault, h⟩ | ⟨entries, -, h⟩ := removeTree_cases (hw.plain hplain) p
  · rwa [h]
  · rw [h]
    exact hw.erase ht hle

theorem keeps_rename (hplain : w₀.root.Plain) {s t : List String} (hs : touched s) (ht : touched t)
    {source target : Path} (hsource : s <+: source.place w₀.cwd)
    (htarget : t <+: target.place w₀.cwd) : Keeps (Frame touched w₀) (rename source target) := by
  intro w hw
  rw [← hw.cwd] at hsource htarget
  obtain ⟨fault, h⟩ | ⟨-, -, h⟩ | ⟨parent, name, node, hplace, hname, -, -, -, hnode, -, h⟩ :=
    rename_cases (hw.plain hplain) source target
  · rwa [h]
  · rwa [h]
  · rw [h]
    refine (hw.erase hs hsource).put ht htarget ?_ ((hw.plain hplain).of_get? hnode)
    rw [hplace]
    simpa using hname

/-! ## Directories -/

/-- Making the directories of a path changes nothing beside it, and every directory remains. -/
theorem frame_makeDirectories {w : World} (hplain : w.root.Plain) {p : Path}
    (hturns : ∀ turn, p.TurnsAt w.cwd turn → w.root.DirAt turn) :
    (∀ t, p.place w.cwd <+: t → Frame (· = t) w (makeDirectories p w).2) ∧
      (∀ place, w.root.DirAt place → (makeDirectories p w).2.root.DirAt place) ∧
      (w.root.DirAt (p.place w.cwd) → (makeDirectories p w).2 = w) := by
  refine keeps_makeDirectories (I := fun w' =>
    (∀ t, p.place w.cwd <+: t → Frame (· = t) w w') ∧
      (∀ place, w.root.DirAt place → w'.root.DirAt place) ∧
      (w.root.DirAt (p.place w.cwd) → w' = w)) ?_ ?_ ?_ w ⟨fun t _ => .refl _ w, fun _ => id,
        fun _ => rfl⟩
  · exact fun w' hw' => (hw'.1 _ (List.prefix_refl _)).plain hplain
  · rintro w' ⟨hframe, hdirs, -⟩ turn hturn
    rw [(hframe _ (List.prefix_refl _)).cwd] at hturn
    exact hdirs turn (hturns turn hturn)
  · rintro w' parent name ⟨hframe, hdirs, hsame⟩ hle hname hparent hvacant
    have hframe₀ := hframe _ (List.prefix_refl _)
    rw [hframe₀.cwd] at hle
    have hnew : ∀ place, w'.root.DirAt place → ¬ parent ++ [name] <+: place :=
      fun place hdir hbelow => not_dirAt_of_none hvacant (hdir.of_below hbelow)
    refine ⟨fun t ht => (hframe t ht).trans ?_, fun place hplace => ?_, fun hdir => ?_⟩
    · exact frame_makeDirectory (hframe₀.plain hplain) hname hparent hvacant (hle.trans ht)
    · exact (dirAt_alter_iff _ (hnew place (hdirs place hplace))).2 (hdirs place hplace)
    · exact absurd hle (hnew _ (hdirs _ hdir))

/-- Whether a place lies inside another, below it. -/
def Inside (place t : List String) : Prop := place <+: t ∧ t ≠ place

/-! ## Copying -/

theorem keeps_copyFile (hplain : w₀.root.Plain) {t : List String} (ht : touched t)
    {source target : Path} (hle : t <+: target.place w₀.cwd) :
    Keeps (Frame touched w₀) (copyFile source target) := by
  refine (keeps_ask _).bind fun _ isDirectory _ _ => ?_
  have hcopy : ∀ question : World → Bool, Keeps (Frame touched w₀) (do
      let _ ← read source
      let executable ← ask question
      writeWith (some executable) target ByteArray.empty
      writeWith none target (← read source)) := by
    intro question
    refine (keeps_read _).bind fun _ _ _ _ => (keeps_ask _).bind fun _ _ _ _ => ?_
    refine (keeps_writeWith hplain ht hle _ _).bind fun _ _ _ _ => ?_
    exact (keeps_read _).bind fun _ _ _ _ => keeps_writeWith hplain ht hle _ _
  split
  · exact (keeps_throw _).bind fun _ _ _ _ => hcopy _
  · exact hcopy _

/-- Copying a directory keeps what making directories and copying files keep. -/
theorem keeps_copyTreeWithin_of {I : World → Prop} (hplain : ∀ w, I w → w.root.Plain)
    (exclude : List String) {P : Path → Prop}
    (hjoin : ∀ target name, P target → IsName name → P (target.join name))
    (hmake : ∀ target, P target → Keeps I (makeDirectories target))
    (hcopy : ∀ source target name, P target → IsName name →
      Keeps I (copyFile source (target.join name)))
    (depth : Nat) {source target : Path} (htarget : P target) :
    Keeps I (copyTreeWithin exclude depth source target) := by
  induction depth generalizing source target with
  | zero => exact keeps_throw _
  | succ depth ih =>
    have hentries : Keeps I (do
        for name in ← list source do
          unless exclude.contains name do
            if ← ask (·.isDirectory (source.join name)) then
              copyTreeWithin exclude depth (source.join name) (target.join name)
            else copyFile (source.join name) (target.join name)) := by
      refine (keeps_list _).bind fun w names hw hnames => ?_
      refine (Keeps.forIn (fun name hname _ => ?_) _).bind fun _ _ _ _ => keeps_pure _
      have hproper : IsName name := isName_of_list (hplain w hw) hnames name hname
      have hdone : ∀ {x : FileAction Unit}, Keeps I x →
          Keeps I (do x; pure (ForInStep.yield PUnit.unit)) :=
        fun hx => hx.bind fun _ _ _ _ => keeps_pure _
      split
      · exact keeps_pure _
      · refine (keeps_ask _).bind fun _ isDirectory _ _ => ?_
        split
        · exact hdone (ih (hjoin target name htarget hproper))
        · exact hdone (hcopy _ target name htarget hproper)
    refine (keeps_ask _).bind fun _ isThere _ _ => ?_
    split
    · exact hentries
    · exact (hmake target htarget).bind fun _ _ _ _ => hentries

/-- Copying a directory changes what lies inside the target. -/
theorem keeps_copyTreeWithin (hplain : w₀.root.Plain) (exclude : List String) (depth : Nat)
    {t : List String} {source target : Path} (hle : t <+: target.place w₀.cwd)
    (hturns : ∀ turn, target.TurnsAt w₀.cwd turn → w₀.root.DirAt turn ∧ ¬ t <+: turn) :
    Keeps (Frame (Inside t) w₀) (copyTreeWithin exclude depth source target) := by
  have hinside : ∀ (target : Path) name, t <+: target.place w₀.cwd →
      Inside t (target.place w₀.cwd ++ [name]) := by
    intro target name hle
    refine ⟨hle.trans (List.prefix_append _ _), fun heq => ?_⟩
    have hlength := hle.length_le
    rw [← heq, List.length_append, List.length_singleton] at hlength
    omega
  refine keeps_copyTreeWithin_of (fun w hw => hw.plain hplain) exclude
    (P := fun target => t <+: target.place w₀.cwd ∧
      ∀ turn, target.TurnsAt w₀.cwd turn → w₀.root.DirAt turn ∧ ¬ t <+: turn)
    ?_ ?_ ?_ depth ⟨hle, hturns⟩
  · rintro target name ⟨hle, hturns⟩ hproper
    rw [Path.place_join target hproper]
    exact ⟨hle.trans (List.prefix_append _ _), fun turn hturn =>
      hturns turn ((Path.turnsAt_join hproper).1 hturn)⟩
  · rintro target ⟨hle, hturns⟩ w hw
    refine hw.trans (Frame.mono ((frame_makeDirectories (hw.plain hplain) fun turn hturn => ?_).1
      (target.place w.cwd ++ [""]) (List.prefix_append _ _)) fun _ heq => ?_)
    · rw [hw.cwd] at hturn
      refine hw.dir turn (fun t' ht' hbelow => ?_) (hturns turn hturn).1
      exact (hturns turn hturn).2 (ht'.1.trans hbelow)
    · rw [hw.cwd] at heq
      exact ⟨_, hinside target "" hle, heq ▸ List.prefix_refl _⟩
  · rintro source target name ⟨hle, -⟩ hproper
    refine keeps_copyFile hplain (hinside target name hle) ?_
    rw [Path.place_join target hproper]

end Files

end StubManager
