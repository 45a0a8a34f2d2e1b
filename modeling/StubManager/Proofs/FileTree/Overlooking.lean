import StubManager.Proofs.FileTree.Avoiding

/-!
# Files that are overlooked

An action overlooks a file if it does the same in the world without it (`Overlooks`). Operations
whose paths avoid a file overlook it: main statements `overlooks_copyTree`, `overlooks_replace`,
`overlooks_moveOver` and `overlooks_makeTemporary`.
-/

namespace StubManager

open Node Running World Files

/-! ## Actions that commute with a change of the state -/

section

variable {σ ε ε' α β : Type} {I : σ → Prop} {φ : σ → σ}

/-- Whether an action keeps a property of the state and, where it holds, commutes with a change of
the state: the answer is the same after the change. -/
def Commutes (I : σ → Prop) (φ : σ → σ) (x : ExceptT ε (StateM σ) α) : Prop :=
  ∀ s, I s → I (x s).2 ∧ x (φ s) = ((x s).1, φ (x s).2)

/-- Whether a change keeps a property of the state and, where it holds, can be made before or after
another one. -/
def Exchanges (I : σ → Prop) (φ f : σ → σ) : Prop := ∀ s, I s → I (f s) ∧ f (φ s) = φ (f s)

theorem exchanges_id : Exchanges I φ id := fun _ hs => ⟨hs, rfl⟩

theorem Exchanges.comp {f g : σ → σ} (hf : Exchanges I φ f) (hg : Exchanges I φ g) :
    Exchanges I φ fun s => g (f s) := by
  intro s hs
  obtain ⟨hkept, hsame⟩ := hf s hs
  obtain ⟨hkept', hsame'⟩ := hg _ hkept
  exact ⟨hkept', (congrArg g hsame).trans hsame'⟩

theorem Exchanges.foldl {f : σ → α → σ} {xs : List α}
    (hf : ∀ a ∈ xs, Exchanges I φ (f · a)) : Exchanges I φ (xs.foldl f) := by
  induction xs with
  | nil => exact exchanges_id
  | cons a xs ih =>
    rw [List.forall_mem_cons] at hf
    exact hf.1.comp (ih hf.2)

theorem Exchanges.modify {f : σ → σ} (hf : Exchanges I φ f) :
    Commutes I φ (modify f : ExceptT ε (StateM σ) PUnit) := by
  intro s hs
  obtain ⟨hkept, hsame⟩ := hf s hs
  exact ⟨hkept, congrArg (Prod.mk _) hsame⟩

theorem commutes_pure (a : α) : Commutes I φ (pure a : ExceptT ε (StateM σ) α) :=
  fun _ hs => ⟨hs, rfl⟩

theorem commutes_throw (e : ε) : Commutes I φ (throw e : ExceptT ε (StateM σ) α) :=
  fun _ hs => ⟨hs, rfl⟩

theorem commutes_ofExcept (answer : Except ε α) :
    Commutes I φ (MonadExcept.ofExcept answer : ExceptT ε (StateM σ) α) := by
  intro s hs
  rw [ofExcept_apply, ofExcept_apply]
  exact ⟨hs, rfl⟩

namespace Commutes

theorem bind {x : ExceptT ε (StateM σ) α} {f : α → ExceptT ε (StateM σ) β} (hx : Commutes I φ x)
    (hf : ∀ s a, I s → (x s).1 = .ok a → Commutes I φ (f a)) : Commutes I φ (x >>= f) := by
  intro s hs
  obtain ⟨hkept, hsame⟩ := hx s hs
  have hnext := hf s
  rw [bind_apply, bind_apply, hsame]
  generalize x s = step at hkept hnext
  obtain ⟨_ | a, s'⟩ := step
  · exact ⟨hkept, rfl⟩
  · exact hnext a hs rfl s' hkept

theorem tryCatch {x : ExceptT ε (StateM σ) α} {f : ε → ExceptT ε (StateM σ) α}
    (hx : Commutes I φ x) (hf : ∀ e, Commutes I φ (f e)) : Commutes I φ (tryCatch x f) := by
  intro s hs
  obtain ⟨hkept, hsame⟩ := hx s hs
  rw [tryCatch_apply, tryCatch_apply, hsame]
  generalize x s = step at hkept
  obtain ⟨e | a, s'⟩ := step
  · exact hf e s' hkept
  · exact ⟨hkept, rfl⟩

theorem forIn {xs : List α} {body : α → PUnit → ExceptT ε (StateM σ) (ForInStep PUnit)}
    (hbody : ∀ a ∈ xs, ∀ b, Commutes I φ (body a b)) (b : PUnit) :
    Commutes I φ (ForIn.forIn xs b body) := by
  induction xs with
  | nil => exact commutes_pure b
  | cons a xs ih =>
    rw [List.forall_mem_cons] at hbody
    rw [List.forIn_cons]
    refine (hbody.1 b).bind fun _ step _ _ => ?_
    cases step with
    | done b => exact commutes_pure b
    | yield b => exact ih hbody.2

end Commutes

end

section

variable {ε ε' α : Type} {I : World → Prop} {φ : World → World}

theorem commutes_ask {question : World → α} (h : ∀ w, I w → question (φ w) = question w) :
    Commutes I φ (ask question : Action ε α) := by
  intro w hw
  rw [ask_apply, ask_apply, h w hw]
  exact ⟨hw, rfl⟩

namespace Commutes

theorem adapt {x : Action ε α} (hx : Commutes I φ x) (f : ε → ε') :
    Commutes I φ (ExceptT.adapt f x : Action ε' α) := by
  intro w hw
  obtain ⟨hkept, hsame⟩ := hx w hw
  rw [adapt_apply, adapt_apply, hsame]
  exact ⟨hkept, rfl⟩

theorem run {x : Action ε α} (hx : Commutes I φ x) :
    Commutes I φ (liftM (ExceptT.run x) : Action ε' (Except ε α)) := by
  intro w hw
  obtain ⟨hkept, hsame⟩ := hx w hw
  rw [run_apply, run_apply, hsame]
  exact ⟨hkept, rfl⟩

/-- An operation whose fault does not matter. -/
theorem quietly {x : FileAction Unit} (hx : Commutes I φ x) :
    Exchanges I φ (Files.quietly x) := by
  intro w hw
  obtain ⟨hkept, hsame⟩ := hx w hw
  rw [quietly_apply, quietly_apply, hsame]
  exact ⟨hkept, rfl⟩

theorem passing {x : FileAction Unit} (hx : Commutes I φ x) : Commutes I φ (Files.passing x) :=
  hx.quietly.modify

end Commutes

end

namespace Files

variable {ε α : Type} {place : List String} {dirs : List String → Prop} {w₀ w : World}
variable {p source target : Path}

/-- Whether an action overlooks the file at a place on the way from a world: it spares the file, and
does the same without it. -/
def Overlooks (place : List String) (dirs : List String → Prop) (w₀ : World) (x : Action ε α) :
    Prop :=
  Commutes (Spared (· = place) dirs w₀) (·.erase place) x

theorem outside_iff {t : List String} : Outside (· = place) t ↔ ¬ place <+: t :=
  ⟨fun h => h place rfl, fun h _ heq => heq ▸ h⟩

theorem fileAt_of_spared (hfile : w₀.root.FileAt place) (hw : Spared (· = place) dirs w₀ w) :
    w.root.FileAt place := by
  rwa [FileAt, hw.same place rfl]

/-! ## Reading -/

theorem overlooks_isDirectory (h : Avoids place w₀.cwd p) :
    Overlooks place dirs w₀ (ask (·.isDirectory p) : Action ε Bool) :=
  commutes_ask fun _ hw => isDirectory_erase hw.plain (hw.cwd.symm ▸ h)

theorem overlooks_exists? (h : Avoids place w₀.cwd p) :
    Overlooks place dirs w₀ (ask (·.exists? p) : Action ε Bool) :=
  commutes_ask fun _ hw => exists?_erase hw.plain (hw.cwd.symm ▸ h)

theorem overlooks_read (h : Avoids place w₀.cwd p) : Overlooks place dirs w₀ (read p) := by
  intro w hw
  refine ⟨keeps_read p w hw, ?_⟩
  rw [← hw.cwd] at h
  rw [read, bind_apply, bind_apply, orFault_apply, orFault_apply, locate_erase hw.plain h]
  cases hlocate : w.locate true p with
  | error fault => rfl
  | ok found =>
    cases found with
    | vacant parent name asDirectory => rfl
    | node names =>
      obtain ⟨rfl, -⟩ := (locate_eq_node_iff hw.plain).1 hlocate
      simp only [bind_apply, get_apply, World.erase]
      obtain ⟨hnone, hnone'⟩ | ⟨data, mode, hfile, hfile'⟩ | ⟨entries, entries', hdir, hdir'⟩ :=
        get?_erase_cases hw.plain h.not_le
      · rw [hnone, hnone']
        rfl
      · rw [hfile, hfile']
        rfl
      · rw [hdir, hdir']
        rfl

theorem overlooks_readText (h : Avoids place w₀.cwd p) : Overlooks place dirs w₀ (readText p) := by
  refine (overlooks_read h).bind fun _ data _ _ => ?_
  cases String.fromUTF8? data with
  | some text => exact commutes_pure text
  | none => exact commutes_throw _

theorem overlooks_unlessThere (h : Avoids place w₀.cwd p) (fault : FileFault) :
    Overlooks place dirs w₀ (unlessThere p fault) := by
  refine (overlooks_isDirectory h).bind fun _ isDirectory _ _ => ?_
  split
  · exact commutes_pure _
  · exact commutes_throw _

/-- A directory that does not lie above the file holds the same names without it. -/
theorem overlooks_list (h : Avoids place w₀.cwd p) (hnot : ¬ p.place w₀.cwd <+: place) :
    Overlooks place dirs w₀ (list p) := by
  intro w hw
  refine ⟨keeps_list p w hw, ?_⟩
  rw [← hw.cwd] at h hnot
  have hsame : (w.root.erase place).get? (p.place w.cwd) = w.root.get? (p.place w.cwd) :=
    get?_alter_of_disjoint _ w.root h.not_le hnot
  rw [list, bind_apply, bind_apply, orFault_apply, orFault_apply, locate_erase hw.plain h]
  cases hlocate : w.locate true p with
  | error fault => rfl
  | ok found =>
    cases found with
    | vacant parent name asDirectory => rfl
    | node names =>
      obtain ⟨rfl, -⟩ := (locate_eq_node_iff hw.plain).1 hlocate
      simp only [bind_apply, get_apply, World.erase, hsame]
      cases w.root.get? (p.place w.cwd) with
      | none => rfl
      | some node => cases node <;> rfl

/-! ## Single entries -/

theorem overlooks_removeTree (h : Avoids place w₀.cwd p)
    (haloof : Aloof (· = place) dirs (p.place w₀.cwd)) :
    Overlooks place dirs w₀ (removeTree p) := by
  intro w hw
  have hkept := (enduring_spared (· = place) dirs w₀).keeps_removeTree haloof w hw
  refine ⟨hkept, ?_⟩
  have hnot := (haloof.kept place rfl).2
  rw [← hw.cwd] at h hnot
  rw [removeTree, bind_apply, bind_apply, orFault_apply, orFault_apply,
    locate_erase hw.plain h]
  cases hlocate : w.locate false p with
  | error fault => rfl
  | ok found =>
    cases found with
    | vacant parent name asDirectory => rfl
    | node names =>
      obtain ⟨rfl, -⟩ := (locate_eq_node_iff hw.plain).1 hlocate
      have hgone : ((.ok () : Except FileFault Unit), (w.erase place).erase (p.place w.cwd))
          = (.ok (), (w.erase (p.place w.cwd)).erase place) :=
        congrArg (Prod.mk _) (erase_alter hw.plain _ h.not_le hnot)
      simp only [bind_apply, get_apply]
      rw [show (w.erase place).root = w.root.erase place from rfl]
      obtain ⟨hnone, hnone'⟩ | ⟨data, mode, hold, hold'⟩ | ⟨entries, entries', hdir, hdir'⟩ :=
        get?_erase_cases hw.plain h.not_le
      · rw [hnone, hnone']
        rfl
      · rw [hold, hold']
        rfl
      · rw [hdir, hdir']
        exact hgone

section

variable (hfile : w₀.root.FileAt place)
include hfile

/-- A new entry where nothing is yet. -/
theorem put_erase_of_vacant (hw : Spared (· = place) dirs w₀ w) {t : List String}
    (hbelow : ¬ place <+: t) (hvacant : w.root.get? t = none) (node : Node) :
    (w.erase place).put t node = (w.put t node).erase place := by
  refine erase_alter hw.plain _ hbelow ?_
  exact not_le_of_not_dirAt (fileAt_of_spared hfile hw) (not_dirAt_of_none hvacant) hbelow

theorem overlooks_writeWith (h : Avoids place w₀.cwd p) (executable : Option Bool)
    (data : ByteArray) : Overlooks place dirs w₀ (writeWith executable p data) := by
  intro w hw
  have hkept := (enduring_spared (· = place) dirs w₀).keeps_writeWith
    (outside_iff.2 h.not_le) executable data w hw
  refine ⟨hkept, ?_⟩
  rw [← hw.cwd] at h
  rw [writeWith, bind_apply, bind_apply, orFault_apply, orFault_apply, locate_erase hw.plain h]
  cases hlocate : w.locate true p with
  | error fault => rfl
  | ok found =>
    cases found with
    | vacant parent name asDirectory =>
      obtain ⟨hplace, -, hvacant, -⟩ := of_locate_eq_vacant hw.plain hlocate
      cases asDirectory with
      | true => rfl
      | false =>
        exact congrArg (Prod.mk _)
          (put_erase_of_vacant hfile hw (hplace ▸ h.not_le) hvacant _)
    | node names =>
      obtain ⟨rfl, -⟩ := (locate_eq_node_iff hw.plain).1 hlocate
      simp only [bind_apply, get_apply]
      rw [show (w.erase place).root = w.root.erase place from rfl]
      obtain ⟨hnone, hnone'⟩ | ⟨data, mode, hold, hold'⟩ | ⟨entries, entries', hdir, hdir'⟩ :=
        get?_erase_cases hw.plain h.not_le
      · rw [hnone, hnone']
        rfl
      · rw [hold, hold']
        refine congrArg (Prod.mk _) (erase_alter hw.plain _ h.not_le ?_)
        exact not_le_of_not_dirAt (fileAt_of_spared hfile hw) (FileAt.not_dirAt ⟨_, _, hold⟩)
          h.not_le
      · rw [hdir, hdir']
        rfl

theorem overlooks_makeDirectory (h : Avoids place w₀.cwd p) :
    Overlooks place dirs w₀ (makeDirectory p) := by
  intro w hw
  have hkept := (enduring_spared (· = place) dirs w₀).keeps_makeDirectory
    (outside_iff.2 h.not_le) w hw
  refine ⟨hkept, ?_⟩
  rw [← hw.cwd] at h
  rw [makeDirectory, bind_apply, bind_apply, orFault_apply, orFault_apply,
    locate_erase hw.plain h]
  cases hlocate : w.locate false p with
  | error fault => rfl
  | ok found =>
    cases found with
    | node names => rfl
    | vacant parent name asDirectory =>
      obtain ⟨hplace, -, hvacant, -⟩ := of_locate_eq_vacant hw.plain hlocate
      exact congrArg (Prod.mk _) (put_erase_of_vacant hfile hw (hplace ▸ h.not_le) hvacant _)

theorem overlooks_removeFile (h : Avoids place w₀.cwd p) :
    Overlooks place dirs w₀ (removeFile p) := by
  intro w hw
  have hkept := (enduring_spared (· = place) dirs w₀).keeps_removeFile
    (outside_iff.2 h.not_le) w hw
  refine ⟨hkept, ?_⟩
  rw [← hw.cwd] at h
  rw [removeFile, bind_apply, bind_apply, orFault_apply, orFault_apply,
    locate_erase hw.plain h]
  cases hlocate : w.locate false p with
  | error fault => rfl
  | ok found =>
    cases found with
    | vacant parent name asDirectory => rfl
    | node names =>
      obtain ⟨rfl, -⟩ := (locate_eq_node_iff hw.plain).1 hlocate
      simp only [bind_apply, get_apply]
      rw [show (w.erase place).root = w.root.erase place from rfl]
      obtain ⟨hnone, hnone'⟩ | ⟨data, mode, hold, hold'⟩ | ⟨entries, entries', hdir, hdir'⟩ :=
        get?_erase_cases hw.plain h.not_le
      · rw [hnone, hnone']
        rfl
      · rw [hold, hold']
        refine congrArg (Prod.mk _) (erase_alter hw.plain _ h.not_le ?_)
        exact not_le_of_not_dirAt (fileAt_of_spared hfile hw) (FileAt.not_dirAt ⟨_, _, hold⟩)
          h.not_le
      · rw [hdir, hdir']
        rfl

/-- Whether a node may be moved to a place does not depend on the file, and if it may, the place
does not lie above the file. -/
theorem replaceFault?_erase (hw : Spared (· = place) dirs w₀ w) {t : List String} {node : Node}
    (hbelow : ¬ place <+: t) (ht : (∃ data mode, node = .file data mode) ∨ ¬ t <+: place) :
    ((w.erase place).root.get? t).bind (replaceFault? node)
        = (w.root.get? t).bind (replaceFault? node) ∧
      ((w.root.get? t).bind (replaceFault? node) = none → ¬ t <+: place) := by
  obtain ⟨data, mode, rfl⟩ | hnot := ht
  · have hfile' := fileAt_of_spared hfile hw
    obtain ⟨hnone, hnone'⟩ | ⟨old, oldMode, hold, hold'⟩ | ⟨entries, entries', hdir, hdir'⟩ :=
      get?_erase_cases hw.plain hbelow
    · exact ⟨by rw [hnone, World.erase, hnone'], fun _ =>
        not_le_of_not_dirAt hfile' (not_dirAt_of_none hnone) hbelow⟩
    · exact ⟨by rw [hold, World.erase, hold'], fun _ =>
        not_le_of_not_dirAt hfile' (FileAt.not_dirAt ⟨_, _, hold⟩) hbelow⟩
    · rw [World.erase, hdir, hdir']
      exact ⟨rfl, fun h => nomatch h⟩
  · exact ⟨congrArg (Option.bind · _) (get?_alter_of_disjoint _ w.root hbelow hnot),
      fun _ => hnot⟩

/-- A move of what is not above the file, to where it may go. -/
theorem rename_erase (hw : Spared (· = place) dirs w₀ w) (hs : Avoids place w.cwd source)
    (ht : Avoids place w.cwd target) (hsource : ¬ source.place w.cwd <+: place)
    (htarget : w.root.FileAt (source.place w.cwd) ∨ ¬ target.place w.cwd <+: place) :
    rename source target (w.erase place)
      = ((rename source target w).1, (rename source target w).2.erase place) := by
  have hsame : (w.erase place).root.get? (source.place w.cwd) = w.root.get? (source.place w.cwd) :=
    get?_alter_of_disjoint _ w.root hs.not_le hsource
  rw [rename, bind_apply, bind_apply, orFault_apply, orFault_apply, locateParent_erase hw.plain hs]
  cases hsplit : w.locateParent source with
  | error fault => rfl
  | ok sourceSplit =>
    obtain ⟨sourceParent, sourceName, sourceSlash⟩ := sourceSplit
    simp only [bind_apply, orFault_apply]
    rw [locateParent_erase hw.plain ht]
    cases hsplit' : w.locateParent target with
    | error fault => rfl
    | ok targetSplit =>
      obtain ⟨targetParent, targetName, targetSlash⟩ := targetSplit
      dsimp only
      split
      · rfl
      next hspecial =>
      split
      · rfl
      next hlong =>
      simp only [bind_apply, get_apply]
      simp only [Bool.or_eq_true, decide_eq_true_eq, not_or, Nat.not_lt] at hspecial hlong
      obtain ⟨hplace, -, -, -⟩ := of_locateParent hw.plain hsplit
        ⟨hspecial.1.1.1, hspecial.1.1.2, hspecial.1.2⟩ hlong.1
      obtain ⟨hplace', -, -, -⟩ := of_locateParent hw.plain hsplit'
        ⟨hspecial.2.1.1, hspecial.2.1.2, hspecial.2.2⟩ hlong.2
      rw [← hplace, ← hplace', hsame]
      cases hnode : w.root.get? (source.place w.cwd) with
      | none => rfl
      | some node =>
      have hleaf : (∃ data mode, node = .file data mode) ∨ ¬ target.place w.cwd <+: place := by
        obtain ⟨data, mode, hold⟩ | hapart := htarget
        · exact .inl ⟨data, mode, Option.some.inj (hnode.symm.trans hold)⟩
        · exact .inr hapart
      obtain ⟨hfault, hfree⟩ := replaceFault?_erase hfile hw ht.not_le hleaf
      dsimp only
      split
      · rfl
      split
      · rfl
      split
      · rfl
      split
      · rfl
      rw [hfault]
      cases hreplace : (w.root.get? (target.place w.cwd)).bind (replaceFault? node) with
      | some fault => rfl
      | none =>
        have hplain : (w.erase (source.place w.cwd)).root.Plain :=
          hw.plain.alter fun _ heq => absurd heq (Option.some_ne_none _).symm
        have htaken : (w.erase place).erase (source.place w.cwd)
            = (w.erase (source.place w.cwd)).erase place :=
          erase_alter hw.plain _ hs.not_le hsource
        have hput : ((w.erase (source.place w.cwd)).erase place).put (target.place w.cwd) node
            = ((w.erase (source.place w.cwd)).put (target.place w.cwd) node).erase place :=
          erase_alter hplain _ ht.not_le (hfree hreplace)
        rw [htaken]
        exact congrArg (Prod.mk _) hput

/-! ## Directories and copies -/

theorem overlooks_makeFirst {paths : List Path} (h : ∀ p ∈ paths, Avoids place w₀.cwd p) :
    Overlooks place dirs w₀ (makeFirst paths) := by
  induction paths with
  | nil => exact commutes_throw _
  | cons p paths ih =>
    rw [List.forall_mem_cons] at h
    rw [makeFirst]
    split
    · exact commutes_pure _
    · refine (overlooks_makeDirectory hfile h.1).tryCatch fun fault => ?_
      split
      · refine (ih h.2).bind fun _ _ _ _ => ?_
        exact (overlooks_makeDirectory hfile h.1).tryCatch (overlooks_unlessThere h.1)
      · exact overlooks_unlessThere h.1 _

theorem overlooks_makeDirectories (h : Avoids place w₀.cwd p) :
    Overlooks place dirs w₀ (makeDirectories p) :=
  overlooks_makeFirst hfile fun _ hq => h.ancestor hq

/-- Whether a file may be run. -/
def isExecutable (p : Path) (w : World) : Bool :=
  match w.find? p with
  | some (.file _ executable) => executable
  | _ => false

omit hfile in
theorem isExecutable_erase (hplain : w.root.Plain) (h : Avoids place w.cwd p) :
    isExecutable p (w.erase place) = isExecutable p w := by
  obtain ⟨back, hback⟩ := find?_erase hplain h
  rw [isExecutable, isExecutable, hback]
  cases w.find? p with
  | none => rfl
  | some node =>
    cases node with
    | file data mode => rw [Option.map_some, alter_file]
    | link target => rw [Option.map_some, alter_link]
    | directory entries =>
      obtain ⟨entries', hentries'⟩ := exists_alter_directory (fun _ => none) back entries
      rw [Option.map_some, hentries']

theorem overlooks_copyFile (hs : Avoids place w₀.cwd source) (ht : Avoids place w₀.cwd target) :
    Overlooks place dirs w₀ (copyFile source target) := by
  have hcopy : Overlooks place dirs w₀ (do
      let _ ← read source
      let executable ← ask (isExecutable source)
      writeWith (some executable) target ByteArray.empty
      writeWith none target (← read source)) := by
    have hmode : ∀ w : World, Spared (· = place) dirs w₀ w →
        isExecutable source (w.erase place) = isExecutable source w :=
      fun _ hw => isExecutable_erase hw.plain (hw.cwd.symm ▸ hs)
    refine (overlooks_read hs).bind fun _ _ _ _ => (commutes_ask hmode).bind fun _ _ _ _ => ?_
    refine (overlooks_writeWith hfile ht _ _).bind fun _ _ _ _ => ?_
    exact (overlooks_read hs).bind fun _ _ _ _ => overlooks_writeWith hfile ht _ _
  refine (overlooks_isDirectory hs).bind fun _ isDirectory _ _ => ?_
  split
  · exact (commutes_throw _).bind fun _ _ _ _ => hcopy
  · exact hcopy

theorem overlooks_copyTreeWithin (exclude : List String) (depth : Nat)
    (hs : Clear place w₀.cwd source) (ht : Clear place w₀.cwd target) :
    Overlooks place dirs w₀ (copyTreeWithin exclude depth source target) := by
  induction depth generalizing source target with
  | zero => exact commutes_throw _
  | succ depth ih =>
    have hentries : Overlooks place dirs w₀ (do
        for name in ← list source do
          unless exclude.contains name do
            if ← ask (·.isDirectory (source.join name)) then
              copyTreeWithin exclude depth (source.join name) (target.join name)
            else copyFile (source.join name) (target.join name)) := by
      refine (overlooks_list hs.avoids hs.above).bind fun w names hw hnames => ?_
      refine (Commutes.forIn (fun name hmem _ => ?_) _).bind fun _ _ _ _ => commutes_pure _
      have hname : IsName name := isName_of_list hw.plain hnames name hmem
      have hdone : ∀ {x : FileAction Unit}, Overlooks place dirs w₀ x →
          Overlooks place dirs w₀ (do x; pure (ForInStep.yield PUnit.unit)) :=
        fun hx => hx.bind fun _ _ _ _ => commutes_pure _
      split
      · exact commutes_pure _
      · refine (overlooks_isDirectory (hs.join hname).avoids).bind fun _ isDirectory _ _ => ?_
        split
        · exact hdone (ih (hs.join hname) (ht.join hname))
        · exact hdone (overlooks_copyFile hfile (hs.join hname).avoids (ht.join hname).avoids)
    refine (overlooks_exists? ht.avoids).bind fun _ isThere _ _ => ?_
    split
    · exact hentries
    · exact (overlooks_makeDirectories hfile ht.avoids).bind fun _ _ _ _ => hentries

theorem overlooks_copyTree (exclude : List String) (hs : Clear place w₀.cwd source)
    (ht : Clear place w₀.cwd target) : Overlooks place dirs w₀ (copyTree exclude source target) :=
  overlooks_copyTreeWithin hfile exclude pathLimit hs ht

/-! ## Moving and replacing -/

omit hfile in
theorem overlooks_clear (h : Avoids place w₀.cwd p)
    (haloof : Aloof (· = place) dirs (p.place w₀.cwd)) :
    Overlooks place dirs w₀ (clear p) := by
  refine (overlooks_exists? h).bind fun _ isThere _ _ => ?_
  split
  · exact overlooks_removeTree h haloof
  · exact commutes_pure _

theorem overlooks_rename (hs : Avoids place w₀.cwd source) (ht : Avoids place w₀.cwd target)
    (hsource : Aloof (· = place) dirs (source.place w₀.cwd))
    (htarget : Aloof (· = place) dirs (target.place w₀.cwd)) :
    Overlooks place dirs w₀ (rename source target) := by
  intro w hw
  have hkept := (enduring_spared (· = place) dirs w₀).keeps_rename hsource htarget w hw
  refine ⟨hkept, ?_⟩
  have habove := (hsource.kept place rfl).2
  have habove' := (htarget.kept place rfl).2
  rw [← hw.cwd] at hs ht habove habove'
  exact rename_erase hfile hw hs ht habove (.inr habove')

theorem overlooks_moveOver (hs : Avoids place w₀.cwd source) (ht : Avoids place w₀.cwd target)
    (hsource : Aloof (· = place) dirs (source.place w₀.cwd))
    (htarget : Aloof (· = place) dirs (target.place w₀.cwd)) :
    Overlooks place dirs w₀ (moveOver source target) :=
  (overlooks_clear ht htarget).bind fun _ _ _ _ => overlooks_rename hfile hs ht hsource htarget

theorem overlooks_replaceBy {draft : Path} (hd : Avoids place w₀.cwd draft)
    (h : Avoids place w₀.cwd p) (data : ByteArray) :
    Overlooks place dirs w₀ (replaceBy draft p data) := by
  have hlasting := (enduring_spared (· = place) dirs w₀).toLasting
  intro w hw
  have hwrite := (overlooks_writeWith hfile hd none data w hw).2
  rw [replaceBy, bind_apply, bind_apply, write, hwrite]
  obtain ⟨fault, hrun⟩ | ⟨w', hrun, hw', hdraft⟩ :=
    hlasting.writeWith_cases hw (outside_iff.2 hd.not_le) none data
  · rw [hrun]
    exact ⟨hw, rfl⟩
  rw [hrun]
  dsimp only
  -- what was written is a file, so it may be moved wherever it may go
  have hmoved := hlasting.rename_file (outside_iff.2 hd.not_le) (outside_iff.2 h.not_le) hw' hdraft
  have hrename : rename draft p (w'.erase place)
      = ((rename draft p w').1, (rename draft p w').2.erase place) := by
    rw [← hw'.cwd] at hd h
    exact rename_erase hfile hw' hd h
      (not_le_of_not_dirAt (fileAt_of_spared hfile hw') hdraft.not_dirAt hd.not_le) (.inl hdraft)
  have hback : Overlooks place dirs w₀ (removeFile draft <|> pure () : FileAction Unit) :=
    (overlooks_removeFile hfile hd).tryCatch fun _ => commutes_pure ()
  rw [tryCatch_apply, tryCatch_apply, hrename]
  generalize rename draft p w' = step at hmoved
  obtain ⟨fault | _, w''⟩ := step
  · exact hback.bind (fun _ _ _ _ => commutes_throw fault) w'' hmoved
  · exact ⟨hmoved, rfl⟩

/-- A file is replaced that does not lie beside the file, or whose draft goes by another name. -/
theorem overlooks_replace {name : String} (hname : IsName name) (hends : p.EndsWith name)
    (h : Avoids place w₀.cwd p)
    (hdraft : ∀ draft ∈ temporaryNames ".tmp", place ≠ (holder p).place w₀.cwd ++ [draft])
    (data : ByteArray) : Overlooks place dirs w₀ (replace p data) := by
  have hholder : Avoids place w₀.cwd (holder p) := fun other hother =>
    h other (passes_holder hname hends hother)
  refine (overlooks_makeDirectories hfile hholder).bind fun _ _ _ _ => ?_
  refine (commutes_ask fun w hw => ?_).bind fun w draft? _ hfree => ?_
  · rw [← hw.cwd] at hholder hdraft
    exact freeName?_erase hw.plain (by decide) hholder hdraft
  cases draft? with
  | none => exact commutes_throw _
  | some draft =>
    rw [ask_apply, Except.ok.injEq] at hfree
    have hmem := (of_freeName? hfree).1
    have hisName := isName_of_mem_temporaryNames (by decide) (by decide) hmem
    refine overlooks_replaceBy hfile (hholder.join hisName ?_) h data
    rw [List.prefix_concat_iff]
    exact not_or.2 ⟨hdraft draft hmem, hholder.not_le⟩

/-- A temporary directory is made where the file does not lie. -/
theorem overlooks_makeTemporary {stem : String} (hstem : '/' ∉ stem.toList ∧ 2 < stem.length)
    (h : Avoids place w₀.cwd w₀.tempDir)
    (hnames : ∀ name ∈ temporaryNames stem, place ≠ w₀.tempDir.place w₀.cwd ++ [name]) :
    Overlooks place dirs w₀ (makeTemporary stem) := by
  have hask : Overlooks place dirs w₀ (ask (·.tempDir) : Action Failure Path) :=
    commutes_ask fun _ _ => rfl
  refine hask.bind fun w directory hw hdirectory => ?_
  rw [ask_apply, Except.ok.injEq, hw.tempDir] at hdirectory
  subst hdirectory
  refine (commutes_ask fun w hw => ?_).bind fun w name? _ hfree => ?_
  · rw [← hw.cwd] at h hnames
    exact freeName?_erase hw.plain hstem h hnames
  cases name? with
  | none => exact commutes_throw _
  | some name =>
    rw [ask_apply, Except.ok.injEq] at hfree
    have hmem := (of_freeName? hfree).1
    have hisName := isName_of_mem_temporaryNames hstem.1 hstem.2 hmem
    have hjoin : Avoids place w₀.cwd (w₀.tempDir.join name) := by
      refine h.join hisName ?_
      rw [List.prefix_concat_iff]
      exact not_or.2 ⟨hnames name hmem, h.not_le⟩
    exact ((overlooks_makeDirectory hfile hjoin).adapt _).bind fun _ _ _ _ => commutes_pure _

end

theorem overlooks_now : Overlooks place dirs w₀ now := by
  intro w hw
  exact ⟨hw.of_root_eq rfl rfl rfl, rfl⟩

end Files

end StubManager
