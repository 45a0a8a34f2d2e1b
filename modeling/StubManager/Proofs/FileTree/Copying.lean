import StubManager.Proofs.FileTree.Changes
import StubManager.Proofs.FileTree.Pruning

/-!
# Copies

What is at a place after a copy that succeeded: a file with the contents and the permission of the
source (`get?_of_copyFile`), or the directory without the entries that were left out
(`get?_of_copyTreeWithin`). Nothing may be at the place before, and it may not lie in the source.
-/

namespace StubManager

open Node Running World

namespace Running

variable {σ ε α : Type}

/-- A loop that does one thing for each element. -/
theorem forIn_eq_forM (xs : List α) (f : α → ExceptT ε (StateM σ) PUnit) :
    (forIn xs PUnit.unit fun a _ => do f a; pure (.yield PUnit.unit)) = forM xs f := by
  induction xs with
  | nil => rfl
  | cons a xs ih =>
    rw [List.forIn_cons, List.forM_cons, ← ih, bind_assoc]
    rfl

/-- What every step of a loop carries on holds after a loop that succeeded. -/
theorem of_forM_eq_ok {P : List α → σ → Prop} {xs : List α} {f : α → ExceptT ε (StateM σ) PUnit}
    {s s' : σ} (hrun : forM xs f s = (.ok PUnit.unit, s')) (hs : P [] s)
    (hstep : ∀ done a rest, xs = done ++ a :: rest → ∀ s s', P done s →
      f a s = (.ok PUnit.unit, s') → P (done ++ [a]) s') : P xs s' := by
  suffices hrest : ∀ rest done s, xs = done ++ rest → P done s →
      forM rest f s = (.ok PUnit.unit, s') → P xs s' from hrest xs [] s rfl hs hrun
  intro rest
  induction rest with
  | nil =>
    rintro done s rfl hs hrun
    cases hrun
    rwa [List.append_nil]
  | cons a rest ih =>
    intro done s hxs hs hrun
    rw [List.forM_cons, bind_eq_ok_iff] at hrun
    obtain ⟨⟨⟩, s₁, ha, hrun⟩ := hrun
    exact ih (done ++ [a]) s₁ (by rw [hxs, List.append_assoc, List.singleton_append])
      (hstep done a rest hxs s s₁ hs ha) hrun

end Running

/-! ## Places beside each other -/

section

variable {w w' : World} {touched : List String → Prop} {s t place : List String}

theorem not_concat_le (t : List String) (name : String) : ¬ t ++ [name] <+: t := by
  intro hle
  have hlength := hle.length_le
  rw [List.length_append, List.length_singleton] at hlength
  omega

/-- What lies below places beside each other lies beside each other. -/
theorem not_le_append (h : ¬ s <+: t) (h' : ¬ t <+: s) (front back : List String) :
    ¬ s ++ front <+: t ++ back := fun hle =>
  (List.prefix_or_prefix_of_prefix ((List.prefix_append s front).trans hle)
    (List.prefix_append t back)).elim h h'

/-- What happens inside of a place leaves what lies beside it. -/
theorem Frame.get?_beside (h : Frame touched w w') (htouched : ∀ other, touched other → t <+: other)
    (hbelow : ¬ t <+: place) (habove : ¬ place <+: t) :
    w'.root.get? place = w.root.get? place :=
  h.apart place fun _ hother => ⟨fun hle => hbelow ((htouched _ hother).trans hle), fun hle =>
    (List.prefix_or_prefix_of_prefix hle (htouched _ hother)).elim habove hbelow⟩

end

namespace Files

variable {w w' : World} {source target : Path}

/-! ## New directories -/

theorem keeps_plain_makeDirectory (p : Path) :
    Keeps (fun w => w.root.Plain) (makeDirectory p) :=
  keeps_makeDirectory (fun _ h => h) fun _ _ _ h _ hname hparent hvacant =>
    (frame_makeDirectory h hname hparent hvacant (List.prefix_refl _)).plain h

theorem dirAt_of_makeDirectory (hplain : w.root.Plain)
    (hrun : makeDirectory target w = (.ok (), w')) : w'.root.DirAt (target.place w'.cwd) := by
  obtain ⟨fault, h⟩ | ⟨parent, name, hplace, -, hparent, -, h⟩ := makeDirectory_cases hplain target
  · rw [h] at hrun
    cases hrun
  · rw [h] at hrun
    cases hrun
    exact ⟨[], (congrArg _ hplace).trans (get?_alter_self hplain hparent _)⟩

theorem dirAt_of_unlessThere {fault : FileFault} (hplain : w.root.Plain)
    (hrun : unlessThere target fault w = (.ok (), w')) : w'.root.DirAt (target.place w'.cwd) := by
  rw [unlessThere, bind_apply, ask_apply] at hrun
  dsimp only at hrun
  split at hrun
  · next hdir =>
    cases hrun
    obtain ⟨entries, hfind⟩ := isDirectory_iff.1 hdir
    exact ⟨entries, (locate_of_find? hplain hfind true).2⟩
  · cases hrun

/-- A directory is there after it was made, or after what was done instead. -/
theorem dirAt_of_tryCatch (hplain : w.root.Plain) {handler : FileFault → FileAction Unit}
    (hhandler : ∀ fault w₁, w₁.root.Plain → handler fault w₁ = (.ok (), w') →
      w'.root.DirAt (target.place w'.cwd))
    (hrun : tryCatch (makeDirectory target) handler w = (.ok (), w')) :
    w'.root.DirAt (target.place w'.cwd) := by
  rw [tryCatch_apply] at hrun
  split at hrun
  · next hmake =>
    cases hrun
    exact dirAt_of_makeDirectory hplain hmake
  · next fault w₁ hmake =>
    have hplain₁ := keeps_plain_makeDirectory target w hplain
    rw [hmake] at hplain₁
    exact hhandler fault w₁ hplain₁ hrun

/-- After directories were made there is one at the place of the path. -/
theorem dirAt_of_makeDirectories (hplain : w.root.Plain) (hnot : target.text ≠ "")
    (hrun : makeDirectories target w = (.ok (), w')) : w'.root.DirAt (target.place w'.cwd) := by
  rw [makeDirectories, Path.ancestors, makeFirst, if_neg hnot] at hrun
  refine dirAt_of_tryCatch hplain (fun fault w₁ hplain₁ hrun => ?_) hrun
  split at hrun
  · rw [bind_eq_ok_iff] at hrun
    obtain ⟨_, w₂, hparents, hrun⟩ := hrun
    have hplain₂ : ((makeFirst (Path.parents target.parts.length target)) w₁).2.root.Plain :=
      keeps_makeFirst (fun p _ => keeps_plain_makeDirectory p) w₁ hplain₁
    rw [hparents] at hplain₂
    exact dirAt_of_tryCatch hplain₂ (fun _ _ => dirAt_of_unlessThere) hrun
  · exact dirAt_of_unlessThere hplain₁ hrun

/-- Where nothing was there is an empty directory. -/
theorem get?_of_makeDirectories (hplain : w.root.Plain) (hnot : target.text ≠ "")
    (hturns : ∀ turn, target.TurnsAt w.cwd turn → w.root.DirAt turn)
    (hvacant : w.root.get? (target.place w.cwd) = none)
    (hrun : makeDirectories target w = (.ok (), w')) :
    Frame (Inside (target.place w.cwd)) w w' ∧
      w'.root.get? (target.place w.cwd) = some (.directory []) := by
  have hkeeps : Keeps (fun w' => w'.cwd = w.cwd ∧ w'.root.Plain ∧
      (∀ turn, target.TurnsAt w.cwd turn → w'.root.DirAt turn) ∧
      (w'.root.get? (target.place w.cwd) = none ∨
        w'.root.get? (target.place w.cwd) = some (.directory []))) (makeDirectories target) := by
    refine keeps_makeDirectories (fun _ h => h.2.1) (fun w' h => by rw [h.1]; exact h.2.2.1) ?_
    rintro w' parent name ⟨hcwd, hplain', hdirs, hempty⟩ hle hname hparent hnone
    rw [hcwd] at hle
    have hnew : (w'.put (parent ++ [name]) (.directory [])).root.get? (parent ++ [name])
        = some (.directory []) := get?_alter_self hplain' hparent _
    refine ⟨hcwd, (frame_makeDirectory hplain' hname hparent hnone hle).plain hplain',
      fun turn hturn => ?_, ?_⟩
    · refine (dirAt_alter_iff _ fun hle => ?_).2 (hdirs turn hturn)
      exact not_dirAt_of_none hnone ((hdirs turn hturn).of_below hle)
    · obtain ⟨back, hback⟩ := hle
      rw [← hback]
      cases back with
      | nil => exact .inr ((congrArg _ (List.append_nil _)).trans hnew)
      | cons first back =>
        rw [get?_append, hnew]
        exact .inl rfl
  have hend := hkeeps w ⟨rfl, hplain, hturns, .inl hvacant⟩
  have hdir := dirAt_of_makeDirectories hplain hnot hrun
  rw [hrun] at hend
  obtain ⟨hcwd, -, -, hempty⟩ := hend
  rw [hcwd] at hdir
  refine ⟨?_, hempty.resolve_left fun hnone => not_dirAt_of_none hnone hdir⟩
  have hframe := (frame_makeDirectories hplain hturns).1 (target.place w.cwd ++ [""])
    (List.prefix_append _ _)
  rw [hrun] at hframe
  refine hframe.mono fun t heq => ⟨t, ?_, List.prefix_refl _⟩
  subst heq
  exact ⟨List.prefix_append _ _, by simp⟩

/-! ## Files -/

/-- What is read is at the place of the path. -/
theorem get?_of_read (hplain : w.root.Plain) {data : ByteArray}
    (hrun : read source w = (.ok data, w')) :
    w' = w ∧ ∃ mode, w.find? source = some (.file data mode) ∧
      w.root.get? (source.place w.cwd) = some (.file data mode) := by
  obtain ⟨fault, h⟩ | ⟨data', mode, hfind, h⟩ := read_cases (w := w) source
  · rw [h] at hrun
    cases hrun
  · rw [h] at hrun
    cases hrun
    exact ⟨rfl, mode, hfind, (locate_of_find? hplain hfind true).2⟩

/-- What is written is at the place of the path, with the permission that a file there had. -/
theorem get?_of_writeWith (hplain : w.root.Plain) {executable : Option Bool} {data : ByteArray}
    (hrun : writeWith executable target data w = (.ok (), w')) :
    Frame (· = target.place w.cwd) w w' ∧ ∃ mode,
      w'.root.get? (target.place w.cwd) = some (.file data (executable.getD mode)) ∧
      (w.root.get? (target.place w.cwd) = none ∨
        ∃ old, w.root.get? (target.place w.cwd) = some (.file old mode)) := by
  have hkeeps : Keeps (Frame (· = target.place w.cwd) w) (writeWith executable target data) :=
    keeps_writeWith hplain (by rfl) (List.prefix_refl _) executable data
  have hframe := hkeeps w (.refl _ w)
  rw [hrun] at hframe
  refine ⟨hframe, ?_⟩
  obtain ⟨fault, h⟩ | ⟨parent, name, hplace, -, -, hparent, hvacant, h⟩ | ⟨old, mode, hfind, h⟩ :=
    writeWith_cases hplain executable target data
  · rw [h] at hrun
    cases hrun
  · rw [h] at hrun
    cases hrun
    rw [hplace]
    exact ⟨false, get?_alter_self hplain hparent _, .inl hvacant⟩
  · have hfile := (locate_of_find? hplain hfind true).2
    obtain ⟨name, hname, hends⟩ := endsWith_of_isFile hplain hfind
    obtain ⟨parent, hplace⟩ := Path.exists_place hname hends w.cwd
    rw [h] at hrun
    cases hrun
    rw [hplace] at hfile ⊢
    exact ⟨mode, get?_alter_self hplain (dirAt_of_get? hfile) _, .inr ⟨old, hfile⟩⟩

/-- Whether an action copies the tree at the place of one path to that of another, without the
entries of the excluded names: if it succeeds where nothing was yet, the copy is there, and nothing
else has changed. -/
def Copies (exclude : List String) (action : Path → Path → FileAction Unit) : Prop :=
  ∀ ⦃w w' : World⦄ ⦃source target : Path⦄ ⦃last : String⦄, w.root.Plain → IsName last →
    target.EndsWith last → (∀ turn, target.TurnsAt w.cwd turn → w.root.DirAt turn) →
    w.root.get? (target.place w.cwd) = none → ¬ source.place w.cwd <+: target.place w.cwd →
    action source target w = (.ok (), w') →
    Frame (target.place w.cwd <+: ·) w w' ∧ ∃ node,
      w.root.get? (source.place w.cwd) = some node ∧
      w'.root.get? (target.place w.cwd) = some (node.prune exclude)

/-- A copy of a file has its contents and its permission. -/
theorem copies_copyFile (exclude : List String) : Copies exclude copyFile := by
  intro w w' source target _ hplain _ _ _ hvacant hapart hrun
  have hframe : Frame (target.place w.cwd <+: ·) w (copyFile source target w).2 :=
    keeps_copyFile hplain (List.prefix_refl _) (List.prefix_refl (target.place w.cwd)) w (.refl _ w)
  rw [hrun] at hframe
  refine ⟨hframe, ?_⟩
  rw [copyFile, bind_apply, ask_apply] at hrun
  dsimp only at hrun
  split at hrun
  · rw [bind_eq_ok_iff] at hrun
    obtain ⟨_, w₁, hthrow, -⟩ := hrun
    cases hthrow
  rw [bind_eq_ok_iff] at hrun
  obtain ⟨data, w₁, hread, hrun⟩ := hrun
  obtain ⟨rfl, mode, hfind, hfile⟩ := get?_of_read hplain hread
  rw [bind_apply, ask_apply] at hrun
  simp only [hfind] at hrun
  rw [bind_eq_ok_iff] at hrun
  obtain ⟨⟨⟩, w₂, hempty, hrun⟩ := hrun
  obtain ⟨hemptied, _, hthere, -⟩ := get?_of_writeWith hplain hempty
  rw [bind_eq_ok_iff] at hrun
  obtain ⟨again, w₃, hread', hrun⟩ := hrun
  obtain ⟨rfl, mode', -, hfile'⟩ := get?_of_read (hemptied.plain hplain) hread'
  obtain ⟨-, mode'', hdone, hbefore⟩ := get?_of_writeWith (hemptied.plain hplain) hrun
  -- The source is what it was, for the target does not lie in it.
  have hbelow : ¬ target.place w₁.cwd <+: source.place w₁.cwd := by
    rintro ⟨back, hback⟩
    rw [← hback, get?_append, hvacant] at hfile
    cases hfile
  rw [hemptied.cwd] at hfile' hdone hbefore
  rw [hemptied.get?_beside (fun _ heq => heq ▸ List.prefix_refl _) hbelow hapart, hfile] at hfile'
  cases hfile'
  rw [hthere] at hbefore
  obtain hnone | ⟨old, hold⟩ := hbefore
  · cases hnone
  · cases hold
    exact ⟨_, hfile, hdone⟩

/-! ## Directories -/

/-- What is listed are the names in the directory at the place of the path. -/
theorem get?_of_list (hplain : w.root.Plain) {names : List String}
    (hrun : list source w = (.ok names, w')) :
    w' = w ∧ ∃ entries, w.root.get? (source.place w.cwd) = some (.directory entries) ∧
      names = entries.map Prod.fst := by
  rw [list, bind_apply, orFault_apply] at hrun
  cases hlocate : w.locate true source with
  | error fault =>
    rw [hlocate] at hrun
    cases hrun
  | ok place =>
    rw [hlocate] at hrun
    cases place with
    | vacant parent name asDirectory => cases hrun
    | node place =>
      obtain ⟨rfl, -⟩ := (locate_eq_node_iff hplain).1 hlocate
      simp only [bind_apply, get_apply] at hrun
      cases hnode : w.root.get? (source.place w.cwd) with
      | none =>
        rw [hnode] at hrun
        cases hrun
      | some node =>
        rw [hnode] at hrun
        cases node with
        | file data mode => cases hrun
        | link target => cases hrun
        | directory entries =>
          cases hrun
          exact ⟨rfl, entries, rfl, rfl⟩

/-- What is done for one entry of a directory that is copied. -/
def copyEntry (exclude : List String) (depth : Nat) (source target : Path) (name : String) :
    FileAction Unit := do
  unless exclude.contains name do
    if ← ask (·.isDirectory (source.join name)) then
      copyTreeWithin exclude depth (source.join name) (target.join name)
    else copyFile (source.join name) (target.join name)

theorem copyTreeWithin_succ (exclude : List String) (depth : Nat) (source target : Path) :
    copyTreeWithin exclude (depth + 1) source target = (do
      unless ← ask (·.exists? target) do makeDirectories target
      let names ← list source
      forM names (copyEntry exclude depth source target)) := by
  have hentry (name : String) : (do
        copyEntry exclude depth source target name
        pure (ForInStep.yield PUnit.unit)) = (if exclude.contains name then pure (.yield PUnit.unit)
        else do
          if ← ask (·.isDirectory (source.join name)) then
            copyTreeWithin exclude depth (source.join name) (target.join name)
            pure (.yield PUnit.unit)
          else
            copyFile (source.join name) (target.join name)
            pure (.yield PUnit.unit) : FileAction (ForInStep PUnit)) := by
    rw [copyEntry]
    split
    · rfl
    · rw [bind_assoc]
      congr 1
      funext directory
      split <;> rfl
  simp only [copyTreeWithin, ← forIn_eq_forM, hentry, bind_pure_unit]

section

variable {exclude : List String} {depth : Nat} {name : String}

/-- A copy to where nothing is makes a directory there and copies entry by entry. -/
theorem copyTreeWithin_apply (hmissing : w.exists? target = false) :
    copyTreeWithin exclude (depth + 1) source target w = (do
      makeDirectories target
      let names ← list source
      forM names (copyEntry exclude depth source target) : FileAction Unit) w := by
  rw [copyTreeWithin_succ, bind_apply, ask_apply, hmissing]
  rfl

theorem copyEntry_of_out (hout : exclude.contains name) :
    copyEntry exclude depth source target name w = (.ok (), w) := by
  rw [copyEntry, if_pos hout]
  rfl

theorem copyEntry_of_directory (hkept : ¬ exclude.contains name)
    (hdir : w.isDirectory (source.join name)) :
    copyEntry exclude depth source target name w
      = copyTreeWithin exclude depth (source.join name) (target.join name) w := by
  rw [copyEntry, if_neg hkept, bind_apply, ask_apply]
  dsimp only
  rw [if_pos hdir]

theorem copyEntry_of_not_directory (hkept : ¬ exclude.contains name)
    (hfile : w.isDirectory (source.join name) = false) :
    copyEntry exclude depth source target name w
      = copyFile (source.join name) (target.join name) w := by
  rw [copyEntry, if_neg hkept, bind_apply, ask_apply]
  dsimp only
  rw [if_neg (Bool.eq_false_iff.1 hfile)]

/-- An entry is left out, or copied as the directory or the file that it is. -/
theorem of_copyEntry (hrun : copyEntry exclude depth source target name w = (.ok (), w')) :
    exclude.contains name ∧ w' = w ∨ ¬ exclude.contains name ∧
      (w.isDirectory (source.join name) ∧
          copyTreeWithin exclude depth (source.join name) (target.join name) w = (.ok (), w') ∨
        w.isDirectory (source.join name) = false ∧
          copyFile (source.join name) (target.join name) w = (.ok (), w')) := by
  by_cases hout : exclude.contains name
  · rw [copyEntry_of_out hout] at hrun
    cases hrun
    exact .inl ⟨hout, rfl⟩
  cases hdir : w.isDirectory (source.join name) with
  | true =>
    rw [copyEntry_of_directory hout hdir] at hrun
    exact .inr ⟨hout, .inl ⟨rfl, hrun⟩⟩
  | false =>
    rw [copyEntry_of_not_directory hout hdir] at hrun
    exact .inr ⟨hout, .inr ⟨rfl, hrun⟩⟩

end

theorem exists?_of_vacant (hplain : w.root.Plain)
    (hvacant : w.root.get? (target.place w.cwd) = none) : w.exists? target = false := by
  rw [World.exists?, Option.isSome_eq_false_iff, Option.isNone_iff_eq_none]
  refine Option.eq_none_iff_forall_not_mem.2 fun node hfind => ?_
  rw [(locate_of_find? hplain hfind true).2] at hvacant
  cases hvacant

theorem isName_of_mem_keys (hplain : w.root.Plain) {place : List String}
    {entries : List (String × Node)} (hentries : w.root.get? place = some (.directory entries))
    {name : String} (hname : name ∈ entries.map Prod.fst) : IsName name := by
  obtain ⟨entry, hentry, rfl⟩ := List.mem_map.1 hname
  exact hplain.named place entries hentries entry hentry

/-- None of the names before another one in a list is the same. -/
theorem not_mem_of_nodup {done rest : List String} {name : String}
    (h : (done ++ name :: rest).Nodup) : name ∉ done := fun hmem =>
  (List.nodup_cons.1 (List.nodup_middle.1 h)).1 (List.mem_append_left rest hmem)

open prune (pruneEntries)

/-- How far the copy of a directory has come: it has the entries of the names that are done. -/
structure Copied (exclude : List String) (entries : List (String × Node)) (t : List String)
    (w : World) (done : List String) (w' : World) : Prop where
  frame : Frame (Inside t) w w'
  dir : w'.root.DirAt t
  entry : ∀ name, w'.root.get? (t ++ [name])
    = if name ∈ done then child? name (pruneEntries exclude entries) else none

namespace Copied

variable {exclude done : List String} {entries : List (String × Node)} {t : List String}
variable {w₁ w₂ : World} {name : String}

theorem start (hframe : Frame (Inside t) w w₁) (h : w₁.root.get? t = some (.directory [])) :
    Copied exclude entries t w [] w₁ where
  frame := hframe
  dir := ⟨[], h⟩
  entry name := by
    rw [get?_append, h]
    rfl

/-- An entry that is left out. -/
theorem skip (h : Copied exclude entries t w done w₁) (hname : exclude.contains name) :
    Copied exclude entries t w (done ++ [name]) w₁ where
  frame := h.frame
  dir := h.dir
  entry other := by
    rw [h.entry]
    by_cases hother : other = name
    · subst hother
      rw [child?_pruneEntries, if_pos hname, ite_self, ite_self]
    · simp [hother]

/-- An entry that is copied. -/
theorem copy (h : Copied exclude entries t w done w₁) (hname : ¬ exclude.contains name)
    {node : Node} (hnode : child? name entries = some node)
    (hframe : Frame (t ++ [name] <+: ·) w₁ w₂)
    (hcopy : w₂.root.get? (t ++ [name]) = some (node.prune exclude)) :
    Copied exclude entries t w (done ++ [name]) w₂ where
  frame := by
    refine h.frame.trans (hframe.mono fun other hother => ⟨other, ⟨?_, ?_⟩, List.prefix_refl _⟩)
    · exact (List.prefix_append _ _).trans hother
    · rintro rfl
      exact not_concat_le _ _ hother
  dir := hframe.dir t (fun _ hother hle => not_concat_le _ _ (hother.trans hle)) h.dir
  entry other := by
    by_cases hother : other = name
    · subst hother
      rw [hcopy, if_pos (by simp), child?_pruneEntries, if_neg hname, hnode, Option.map_some]
    · rw [hframe.get?_beside (fun _ => id), h.entry]
      · simp [hother]
      · simpa using Ne.symm hother
      · simpa using hother

/-- A copy of all entries is the directory without what was left out. -/
theorem get?_eq (h : Copied exclude entries t w (entries.map Prod.fst) w₁)
    (hplain : w.root.Plain) (hordered : (entries.map Prod.fst).Pairwise (· < ·)) :
    w₁.root.get? t = some ((directory entries).prune exclude) := by
  obtain ⟨copied, hcopied⟩ := h.dir
  rw [hcopied, prune]
  congr 2
  refine ext_of_child? ((h.frame.plain hplain).ordered t copied hcopied)
    (hordered.sublist (pruneEntries_sublist exclude entries)) fun name => ?_
  rw [← get?_concat hcopied, h.entry]
  split
  · rfl
  · next hname =>
    have hnone : child? name entries = none := Option.eq_none_iff_forall_not_mem.2
      fun _ hnode => hname (List.mem_map_of_mem (mem_of_child? hnode))
    rw [child?_pruneEntries, hnone, Option.map_none, ite_self]

/-- One more entry. -/
theorem of_copies {action : Path → Path → FileAction Unit} (hcopies : Copies exclude action)
    (h : Copied exclude entries (target.place w.cwd) w done w₁) (hplain : w.root.Plain)
    (hturns : ∀ turn, target.TurnsAt w.cwd turn → w.root.DirAt turn ∧
      ¬ target.place w.cwd <+: turn)
    (hbelow : ¬ target.place w.cwd <+: source.place w.cwd)
    (habove : ¬ source.place w.cwd <+: target.place w.cwd)
    (hentries : w.root.get? (source.place w.cwd) = some (.directory entries))
    (hname : IsName name) (hdone : name ∉ done) (hkept : ¬ exclude.contains name)
    (hrun : action (source.join name) (target.join name) w₁ = (.ok (), w₂)) :
    Copied exclude entries (target.place w.cwd) w (done ++ [name]) w₂ := by
  have hsource : (source.join name).place w₁.cwd = source.place w.cwd ++ [name] := by
    rw [h.frame.cwd, Path.place_join source hname]
  have htarget : (target.join name).place w₁.cwd = target.place w.cwd ++ [name] := by
    rw [h.frame.cwd, Path.place_join target hname]
  have hcopied := hcopies (h.frame.plain hplain) hname (Path.endsWith_join target hname)
    (fun turn hturn => ?_) ?_ ?_ hrun
  · rw [hsource, htarget] at hcopied
    obtain ⟨hframe, node, hnode, hcopy⟩ := hcopied
    rw [h.frame.get?_beside (fun _ h => h.1), get?_concat hentries] at hnode
    · exact h.copy hkept hnode hframe hcopy
    · simpa using not_le_append hbelow habove [] [name]
    · simpa using not_le_append habove hbelow [name] []
  · rw [Path.turnsAt_join hname, h.frame.cwd] at hturn
    obtain ⟨hdir, hclear⟩ := hturns turn hturn
    exact h.frame.dir turn (fun _ hother hle => hclear (hother.1.trans hle)) hdir
  · rw [htarget, h.entry, if_neg hdone]
  · rw [hsource, htarget]
    exact not_le_append habove hbelow _ _

end Copied

/-- A copy of a directory is the directory without what is left out at every level. -/
theorem copies_copyTreeWithin (exclude : List String) (depth : Nat) :
    Copies exclude (copyTreeWithin exclude depth) := by
  induction depth with
  | zero =>
    intro w w' source target _ _ _ _ _ _ _ hrun
    cases hrun
  | succ depth ih =>
    intro w w' source target last hplain hlast hends hturns hvacant hapart hrun
    have hclear : ∀ turn, target.TurnsAt w.cwd turn →
        w.root.DirAt turn ∧ ¬ target.place w.cwd <+: turn := fun turn hturn =>
      ⟨hturns turn hturn, fun hle =>
        not_dirAt_of_none hvacant ((hturns turn hturn).of_below hle)⟩
    have hframe : Frame (Inside (target.place w.cwd)) w
        (copyTreeWithin exclude (depth + 1) source target w).2 :=
      keeps_copyTreeWithin hplain exclude (depth + 1) (List.prefix_refl _) hclear w (.refl _ w)
    rw [hrun] at hframe
    refine ⟨hframe.mono fun t ht => ⟨t, ht.1, List.prefix_refl _⟩, ?_⟩
    rw [copyTreeWithin_apply (exists?_of_vacant hplain hvacant), bind_eq_ok_iff] at hrun
    obtain ⟨⟨⟩, w₁, hmake, hrun⟩ := hrun
    obtain ⟨hmade, hnew⟩ := get?_of_makeDirectories hplain (Path.text_ne_of_endsWith hlast hends)
      hturns hvacant hmake
    rw [bind_eq_ok_iff] at hrun
    obtain ⟨names, w₂, hlist, hloop⟩ := hrun
    obtain ⟨rfl, entries, hentries, rfl⟩ := get?_of_list (hmade.plain hplain) hlist
    rw [hmade.cwd] at hentries
    -- The source does not lie in the target, where nothing is yet.
    have hbelow : ¬ target.place w.cwd <+: source.place w.cwd := by
      rintro ⟨back, hback⟩
      cases back with
      | nil => exact hapart (by rw [← hback, List.append_nil])
      | cons first back =>
        rw [← hback, get?_append, hnew] at hentries
        cases hentries
    rw [hmade.get?_beside (fun _ h => h.1) hbelow hapart] at hentries
    have hordered := hplain.ordered _ _ hentries
    refine ⟨_, hentries, Copied.get?_eq (w := w) ?_ hplain hordered⟩
    refine of_forM_eq_ok (P := Copied exclude entries (target.place w.cwd) w) hloop
      (.start hmade hnew) fun done name rest hnames s s' hs hentry => ?_
    have hname : IsName name := isName_of_mem_keys hplain hentries (by simp [hnames])
    have hdone : name ∉ done := not_mem_of_nodup (hnames ▸ hordered.imp String.ne_of_lt)
    obtain ⟨hout, rfl⟩ | ⟨hkept, ⟨-, hcopy⟩ | ⟨-, hcopy⟩⟩ := of_copyEntry hentry
    · exact hs.skip hout
    · exact hs.of_copies ih hplain hclear hbelow hapart hentries hname hdone hkept hcopy
    · exact hs.of_copies (copies_copyFile exclude) hplain hclear hbelow hapart hentries hname hdone
        hkept hcopy

end Files

end StubManager
