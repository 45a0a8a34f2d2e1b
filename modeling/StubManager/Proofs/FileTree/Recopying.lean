import StubManager.Proofs.FileTree.Copying
import StubManager.Proofs.FileTree.Sparing

/-!
# Copies that succeed again

A copy that succeeded in one world succeeds in another where the same source is, to a target that is
vacant there as well (`recopies_copyTreeWithin`). The targets may be different if the paths below
the one are no longer than those below the other (`Fits`).
-/

namespace StubManager

open Node Running World

namespace Running

variable {σ τ ε α : Type}

/-- A loop that succeeded succeeds from another state if every step does. -/
theorem exists_forM_eq_ok {P : List α → σ → τ → Prop} {xs : List α}
    {f : α → ExceptT ε (StateM σ) PUnit} {f' : α → ExceptT ε (StateM τ) PUnit} {s s' : σ} {t : τ}
    (hrun : forM xs f s = (.ok PUnit.unit, s')) (hs : P [] s t)
    (hstep : ∀ done a rest, xs = done ++ a :: rest → ∀ s s' t, P done s t →
      f a s = (.ok PUnit.unit, s') →
        ∃ t', f' a t = (.ok PUnit.unit, t') ∧ P (done ++ [a]) s' t') :
    ∃ t', forM xs f' t = (.ok PUnit.unit, t') := by
  suffices hrest : ∀ rest done s t, xs = done ++ rest → P done s t →
      forM rest f s = (.ok PUnit.unit, s') → ∃ t', forM rest f' t = (.ok PUnit.unit, t') from
    hrest xs [] s t rfl hs hrun
  intro rest
  induction rest with
  | nil => exact fun _ _ t _ _ _ => ⟨t, rfl⟩
  | cons a rest ih =>
    intro done s t hxs hs hrun
    rw [List.forM_cons, bind_eq_ok_iff] at hrun
    obtain ⟨⟨⟩, s₁, ha, hrun⟩ := hrun
    obtain ⟨t₁, ha', hs₁⟩ := hstep done a rest hxs s s₁ t hs ha
    obtain ⟨t', hmore⟩ :=
      ih (done ++ [a]) s₁ t₁ (by rw [hxs, List.append_assoc, List.singleton_append]) hs₁ hrun
    exact ⟨t', by rw [List.forM_cons, bind_apply, ha']; exact hmore⟩

end Running

namespace Files

variable {w w' v : World} {source target target' : Path} {last : String}

/-! ## Targets -/

/-- Whether a path leads to a directory, and with its last name to nothing in there. -/
structure Vacant (w : World) (target : Path) : Prop where
  plain : w.root.Plain
  name : ∃ last, IsName last ∧ target.EndsWith last
  turns : ∀ turn, target.TurnsAt w.cwd turn → w.root.DirAt turn
  parent : ∀ parent last, target.place w.cwd = parent ++ [last] → w.root.DirAt parent
  vacant : w.root.get? (target.place w.cwd) = none

/-- Whether every path below one target can lead somewhere if the same path below another can. -/
def Fits (target target' : Path) : Prop :=
  ∀ names : List String, (∀ name ∈ names, IsName name) →
    Valid (names.foldl Path.join target) → Valid (names.foldl Path.join target')

theorem Fits.valid (h : Fits target target') : Valid target → Valid target' := h [] (by simp)

theorem Fits.join (h : Fits target target') {name : String} (hname : IsName name) :
    Fits (target.join name) (target'.join name) := fun names hnames =>
  h (name :: names) (List.forall_mem_cons.2 ⟨hname, hnames⟩)

namespace Vacant

theorem locate (h : Vacant v target) (hvalid : Valid target) (followLast : Bool) :
    ∃ parent last, target.place v.cwd = parent ++ [last] ∧ IsName last ∧ v.root.DirAt parent ∧
      v.locate followLast target = .ok (.vacant parent last false) := by
  obtain ⟨last, hlast, hends⟩ := h.name
  obtain ⟨parent, hplace⟩ := Path.exists_place hlast hends v.cwd
  have hparent := h.parent parent last hplace
  exact ⟨parent, last, hplace, hlast, hparent, locate_of_vacant h.plain hlast hends h.turns hvalid
    hplace hparent (hplace ▸ h.vacant) followLast⟩

theorem makeDirectories_eq (h : Vacant v target) (hvalid : Valid target) :
    ∃ v', makeDirectories target v = (.ok (), v') := by
  obtain ⟨last, hlast, hends⟩ := h.name
  obtain ⟨parent, last, -, -, -, hlocate⟩ := h.locate hvalid false
  have hmake : makeDirectory target v = (.ok (), v.put (parent ++ [last]) (.directory [])) := by
    rw [makeDirectory, bind_apply, orFault_apply, hlocate]
    rfl
  rw [makeDirectories, Path.ancestors, makeFirst, if_neg (Path.text_ne_of_endsWith hlast hends),
    tryCatch_apply, hmake]
  exact ⟨_, rfl⟩

theorem writeWith_eq (h : Vacant v target) (hvalid : Valid target) (executable : Option Bool)
    (data : ByteArray) : ∃ v', writeWith executable target data v = (.ok (), v') := by
  obtain ⟨parent, last, -, -, -, hlocate⟩ := h.locate hvalid true
  rw [writeWith, bind_apply, orFault_apply, hlocate]
  exact ⟨_, rfl⟩

end Vacant

/-! ## Files -/

/-- What a copy of a file that succeeded tells of its paths. -/
theorem of_copyFile_eq_ok (hplain : w.root.Plain)
    (hvacant : w.root.get? (target.place w.cwd) = none)
    (hrun : copyFile source target w = (.ok (), w')) :
    Valid target ∧ ∃ data mode, w.find? source = some (.file data mode) := by
  rw [copyFile, bind_apply, ask_apply] at hrun
  dsimp only at hrun
  split at hrun
  · rw [bind_eq_ok_iff] at hrun
    obtain ⟨_, w₁, hthrow, -⟩ := hrun
    cases hthrow
  rw [bind_eq_ok_iff] at hrun
  obtain ⟨data, w₁, hread, hrun⟩ := hrun
  obtain ⟨rfl, mode, hfind, -⟩ := get?_of_read hplain hread
  rw [bind_apply, ask_apply] at hrun
  simp only [hfind] at hrun
  rw [bind_eq_ok_iff] at hrun
  obtain ⟨⟨⟩, w₂, hwrite, -⟩ := hrun
  refine ⟨?_, data, mode, hfind⟩
  obtain ⟨fault, h⟩ | ⟨parent, name, -, -, hvalid, -⟩ | ⟨old, mode, hfile, -⟩ :=
    writeWith_cases hplain (some mode) target ByteArray.empty
  · rw [h] at hwrite
    cases hwrite
  · exact hvalid
  · rw [(locate_of_find? hplain hfile true).2] at hvacant
    cases hvacant

/-- A path leads to the tree that it led to when something is made beside that. -/
theorem find?_beside (hplain : w.root.Plain) {touched : List String → Prop} {t : List String}
    {node : Node} (hframe : Frame touched w w') (htouched : ∀ other, touched other → t <+: other)
    (hvacant : w.root.get? t = none) (hapart : ¬ source.place w.cwd <+: t)
    (hfind : w.find? source = some node) : w'.find? source = some node := by
  obtain ⟨hvalid, hway, hnode⟩ := (find?_eq_some_iff hplain).1 hfind
  refine (find?_eq_some_iff (hframe.plain hplain)).2 ⟨hvalid, fun place hplace => ?_, ?_⟩
  · rw [onWay, hframe.cwd] at hplace
    have hdir := hway place hplace
    refine hframe.dir place (fun other hother hle => ?_) hdir
    exact not_dirAt_of_none hvacant (hdir.of_below ((htouched other hother).trans hle))
  · have hbelow : ¬ t <+: source.place w.cwd :=
      not_le_of_get?_ne_none (by rw [hnode]; exact Option.some_ne_none _) hvacant
    rw [hframe.cwd, hframe.get?_beside htouched hbelow hapart, hnode]

/-- A file is copied where nothing is yet. -/
theorem exists_copyFile (h : Vacant v target) (hvalid : Valid target)
    (hapart : ¬ source.place v.cwd <+: target.place v.cwd) {data : ByteArray} {mode : Bool}
    (hfind : v.find? source = some (.file data mode)) :
    ∃ v', copyFile source target v = (.ok (), v') := by
  have hnot : v.isDirectory source = false := by rw [World.isDirectory, hfind]; rfl
  obtain ⟨v₁, hempty⟩ := h.writeWith_eq hvalid (some mode) ByteArray.empty
  obtain ⟨hframe, _, hthere, -⟩ := get?_of_writeWith h.plain hempty
  have hplain := hframe.plain h.plain
  -- The source is read again behind the new file.
  have hagain : v₁.find? source = some (.file data mode) :=
    find?_beside h.plain hframe (fun _ heq => heq ▸ List.prefix_refl _) h.vacant hapart hfind
  obtain ⟨last, hlast, hends⟩ := h.name
  have hfile : v₁.find? target = some (.file ByteArray.empty mode) := by
    rw [find?_of_endsWith hplain hlast hends (fun turn hturn => ?_) hvalid, hframe.cwd, hthere]
    · rfl
    · rw [hframe.cwd] at hturn
      have hdir := h.turns turn hturn
      refine hframe.dir turn (fun _ heq hle => ?_) hdir
      exact not_dirAt_of_none h.vacant (hdir.of_below (heq ▸ hle))
  refine ⟨v₁.put (target.place v₁.cwd) (.file data mode), ?_⟩
  rw [copyFile, bind_apply, ask_apply, hnot]
  dsimp only
  rw [if_neg Bool.false_ne_true, bind_apply, read_of_find? hfind]
  dsimp only
  rw [bind_apply, ask_apply, hfind]
  dsimp only
  rw [bind_apply, hempty]
  dsimp only
  rw [bind_apply, read_of_find? hagain]
  exact write_of_isFile hplain hfile data

/-! ## Directories -/

theorem list_of_find? {entries : List (String × Node)}
    (h : w.find? source = some (.directory entries)) :
    list source w = (.ok (entries.map Prod.fst), w) := by
  rw [find?] at h
  split at h
  · next place hlocate =>
    simp only [list, bind_apply, orFault_apply, hlocate, get_apply, h]
    rfl
  · cases h

/-- What is listed is in a directory that the path leads to. -/
theorem find?_of_list {names : List String} (hrun : list source w = (.ok names, w')) :
    w' = w ∧ ∃ entries, w.find? source = some (.directory entries) ∧
      names = entries.map Prod.fst := by
  rw [list, bind_apply, orFault_apply] at hrun
  cases hlocate : w.locate true source with
  | error fault =>
    rw [hlocate] at hrun
    cases hrun
  | ok place =>
    rw [hlocate] at hrun
    cases place with
    | vacant parent name asDirectory => cases hrun
    | node place =>
      simp only [bind_apply, get_apply] at hrun
      cases hnode : w.root.get? place with
      | none =>
        rw [hnode] at hrun
        cases hrun
      | some node =>
        rw [hnode] at hrun
        cases node with
        | file data mode => cases hrun
        | link target => cases hrun
        | directory entries =>
          cases hrun
          exact ⟨rfl, entries, by rw [find?, hlocate]; exact hnode, rfl⟩

/-- A path under which a directory was made can lead somewhere. -/
theorem valid_of_makeDirectories (hplain : w.root.Plain) (hnot : target.text ≠ "")
    (hrun : makeDirectories target w = (.ok (), w')) : Valid target := by
  have hmade : ∀ {w₁ w₂ : World}, w₁.root.Plain → makeDirectory target w₁ = (.ok (), w₂) →
      Valid target := by
    intro w₁ w₂ hplain₁ hmake
    rw [makeDirectory, bind_apply, orFault_apply] at hmake
    cases hlocate : w₁.locate false target with
    | error fault =>
      rw [hlocate] at hmake
      cases hmake
    | ok place =>
      rw [hlocate] at hmake
      cases place with
      | node place => cases hmake
      | vacant parent name asDirectory => exact (of_locate_eq_vacant hplain₁ hlocate).2.2.2.2
  have hthere : ∀ {fault w₁ w₂}, w₁.root.Plain → unlessThere target fault w₁ = (.ok (), w₂) →
      Valid target := by
    intro fault w₁ w₂ hplain₁ hrun
    rw [unlessThere, bind_apply, ask_apply] at hrun
    dsimp only at hrun
    split at hrun
    · next hdir =>
      obtain ⟨entries, hfind⟩ := isDirectory_iff.1 hdir
      exact ((find?_eq_some_iff hplain₁).1 hfind).1
    · cases hrun
  rw [makeDirectories, Path.ancestors, makeFirst, if_neg hnot, tryCatch_apply] at hrun
  split at hrun
  · next hmake => exact hmade hplain hmake
  next fault w₁ hmake =>
  have hplain₁ := keeps_plain_makeDirectory target w hplain
  rw [hmake] at hplain₁
  split at hrun
  · rw [bind_eq_ok_iff] at hrun
    obtain ⟨_, w₂, hparents, hrun⟩ := hrun
    have hplain₂ : ((makeFirst (Path.parents target.parts.length target)) w₁).2.root.Plain :=
      keeps_makeFirst (fun p _ => keeps_plain_makeDirectory p) w₁ hplain₁
    rw [hparents] at hplain₂
    rw [tryCatch_apply] at hrun
    split at hrun
    · next hmake => exact hmade hplain₂ hmake
    · next fault w₃ hmake =>
      have hplain₃ := keeps_plain_makeDirectory target w₂ hplain₂
      rw [hmake] at hplain₃
      exact hthere hplain₃ hrun
  · exact hthere hplain₁ hrun

/-- What is in the source is found there while it is copied. -/
theorem Copied.find?_join {exclude done : List String} {entries : List (String × Node)}
    {t : List String} {name : String} (h : Copied exclude entries t w done w')
    (hplain : w.root.Plain) (hvacant : w.root.get? t = none)
    (hsource : w.find? source = some (.directory entries)) (habove : ¬ source.place w.cwd <+: t)
    (hname : IsName name) (hvalid : Valid (source.join name)) :
    w'.find? (source.join name) = child? name entries := by
  have hentries := (locate_of_find? hplain hsource true).2
  have hbelow : ¬ t <+: source.place w.cwd :=
    not_le_of_get?_ne_none (by rw [hentries]; exact Option.some_ne_none _) hvacant
  rw [find?_of_endsWith (h.frame.plain hplain) hname (Path.endsWith_join source hname)
    (fun turn hturn => ?_) hvalid, h.frame.cwd, Path.place_join source hname,
    h.frame.get?_beside (fun _ h => h.1), get?_concat hentries]
  · simpa using not_le_append hbelow habove [] [name]
  · simpa using not_le_append habove hbelow [name] []
  · rw [Path.turnsAt_join hname, h.frame.cwd] at hturn
    have hdir := dirAt_of_turnsAt hplain hsource hturn
    refine h.frame.dir turn (fun _ hother hle => ?_) hdir
    exact not_dirAt_of_none hvacant (hdir.of_below (hother.1.trans hle))

/-- An entry of a target that is being filled is vacant until it is done. -/
theorem Copied.vacant_join {exclude done : List String} {entries : List (String × Node)}
    {name : String} (h : Copied exclude entries (target.place w.cwd) w done w')
    (hplain : w.root.Plain) (hvacant : w.root.get? (target.place w.cwd) = none)
    (hturns : ∀ turn, target.TurnsAt w.cwd turn → w.root.DirAt turn) (hname : IsName name)
    (hdone : name ∉ done) : Vacant w' (target.join name) := by
  have hplace : (target.join name).place w'.cwd = target.place w.cwd ++ [name] := by
    rw [h.frame.cwd, Path.place_join target hname]
  refine ⟨h.frame.plain hplain, ⟨name, hname, Path.endsWith_join target hname⟩,
    fun turn hturn => ?_, fun parent last hat => ?_, ?_⟩
  · rw [Path.turnsAt_join hname, h.frame.cwd] at hturn
    have hdir := hturns turn hturn
    refine h.frame.dir turn (fun _ hother hle => ?_) hdir
    exact not_dirAt_of_none hvacant (hdir.of_below (hother.1.trans hle))
  · obtain ⟨rfl, -⟩ := List.append_inj' (hat.symm.trans hplace) rfl
    exact h.dir
  · rw [hplace, h.entry, if_neg hdone]

/-- Whether a copy that succeeded succeeds in another world, from a path that leads to the same tree
there, to a target that is vacant there as well. -/
def Recopies (action : Path → Path → FileAction Unit) : Prop :=
  ∀ ⦃w w' v : World⦄ ⦃source target target' : Path⦄ ⦃node : Node⦄,
    Vacant w target → Vacant v target' → Fits target target' →
    w.find? source = some node → v.find? source = some node →
    ¬ source.place w.cwd <+: target.place w.cwd → ¬ source.place v.cwd <+: target'.place v.cwd →
    action source target w = (.ok (), w') → ∃ v', action source target' v = (.ok (), v')

theorem recopies_copyFile : Recopies copyFile := by
  intro w w' v source target target' node h h' hfits hfind hfind' _ hapart' hrun
  obtain ⟨hvalid, data, mode, hfile⟩ := of_copyFile_eq_ok h.plain h.vacant hrun
  obtain rfl := Option.some.inj (hfind.symm.trans hfile)
  exact exists_copyFile h' (hfits.valid hvalid) hapart' hfind'

/-! ## Directories in two worlds -/

/-- A directory of the same entries in two worlds, and a target in each where nothing is yet. -/
structure Paired (w v : World) (source target target' : Path)
    (entries : List (String × Node)) : Prop where
  left : Vacant w target
  right : Vacant v target'
  fits : Fits target target'
  found : w.find? source = some (.directory entries)
  found' : v.find? source = some (.directory entries)
  apart : ¬ source.place w.cwd <+: target.place w.cwd
  apart' : ¬ source.place v.cwd <+: target'.place v.cwd

section

variable {exclude done : List String} {entries : List (String × Node)} {name : String}
variable {s s' t : World}

theorem Vacant.not_below (h : Vacant w target)
    (hsource : w.find? source = some (.directory entries)) :
    ¬ target.place w.cwd <+: source.place w.cwd := by
  refine not_le_of_get?_ne_none ?_ h.vacant
  rw [(locate_of_find? h.plain hsource true).2]
  exact Option.some_ne_none _

/-- One more entry of a directory that is copied. -/
theorem Vacant.copied (h : Vacant w target) (hsource : w.find? source = some (.directory entries))
    (hapart : ¬ source.place w.cwd <+: target.place w.cwd)
    (hs : Copied exclude entries (target.place w.cwd) w done s) (hname : IsName name)
    (hdone : name ∉ done) (hkept : ¬ exclude.contains name)
    {action : Path → Path → FileAction Unit} (hcopies : Copies exclude action)
    (hrun : action (source.join name) (target.join name) s = (.ok (), s')) :
    Copied exclude entries (target.place w.cwd) w (done ++ [name]) s' := by
  refine hs.of_copies hcopies h.plain (fun turn hturn => ⟨h.turns turn hturn, fun hle => ?_⟩)
    (h.not_below hsource) hapart (locate_of_find? h.plain hsource true).2 hname hdone hkept hrun
  exact not_dirAt_of_none h.vacant ((h.turns turn hturn).of_below hle)

/-- An entry does not lie above its copy. -/
theorem Vacant.apart_join (h : Vacant w target)
    (hsource : w.find? source = some (.directory entries))
    (hapart : ¬ source.place w.cwd <+: target.place w.cwd)
    (hs : Copied exclude entries (target.place w.cwd) w done s) (hname : IsName name) :
    ¬ (source.join name).place s.cwd <+: (target.join name).place s.cwd := by
  rw [hs.frame.cwd, Path.place_join source hname, Path.place_join target hname]
  exact not_le_append hapart (h.not_below hsource) _ _

namespace Paired

variable (h : Paired w v source target target' entries)
variable (hs : Copied exclude entries (target.place w.cwd) w done s)
variable (ht : Copied exclude entries (target'.place v.cwd) v done t)
variable (hname : IsName name)

include h hs ht hname

/-- While both copies are made, the source is the same in both. -/
theorem find?_join {child : Node} (hchild : s.find? (source.join name) = some child) :
    t.find? (source.join name) = some child := by
  have hvalid := ((find?_eq_some_iff (hs.frame.plain h.left.plain)).1 hchild).1
  rw [hs.find?_join h.left.plain h.left.vacant h.found h.apart hname hvalid] at hchild
  rw [ht.find?_join h.right.plain h.right.vacant h.found' h.apart' hname hvalid, hchild]

/-- One more entry that is copied in both. -/
theorem again {action : Path → Path → FileAction Unit} (hrecopies : Recopies action)
    (hcopies : Copies exclude action) (hdone : name ∉ done) (hkept : ¬ exclude.contains name)
    {child : Node} (hchild : s.find? (source.join name) = some child)
    (hrun : action (source.join name) (target.join name) s = (.ok (), s')) :
    ∃ t', action (source.join name) (target'.join name) t = (.ok (), t') ∧
      Copied exclude entries (target.place w.cwd) w (done ++ [name]) s' ∧
      Copied exclude entries (target'.place v.cwd) v (done ++ [name]) t' := by
  obtain ⟨t', hrun'⟩ := hrecopies
    (hs.vacant_join h.left.plain h.left.vacant h.left.turns hname hdone)
    (ht.vacant_join h.right.plain h.right.vacant h.right.turns hname hdone)
    (h.fits.join hname) hchild (h.find?_join hs ht hname hchild)
    (h.left.apart_join h.found h.apart hs hname) (h.right.apart_join h.found' h.apart' ht hname)
    hrun
  exact ⟨t', hrun', h.left.copied h.found h.apart hs hname hdone hkept hcopies hrun,
    h.right.copied h.found' h.apart' ht hname hdone hkept hcopies hrun'⟩

/-- One more entry in both, whatever it is. -/
theorem copyEntry {depth : Nat} (hrecopies : Recopies (copyTreeWithin exclude depth))
    (hdone : name ∉ done) (hrun : copyEntry exclude depth source target name s = (.ok (), s')) :
    ∃ t', Files.copyEntry exclude depth source target' name t = (.ok (), t') ∧
      Copied exclude entries (target.place w.cwd) w (done ++ [name]) s' ∧
      Copied exclude entries (target'.place v.cwd) v (done ++ [name]) t' := by
  obtain ⟨hout, rfl⟩ | ⟨hkept, ⟨hdir, hcopy⟩ | ⟨-, hcopy⟩⟩ := of_copyEntry hrun
  · exact ⟨t, copyEntry_of_out hout, hs.skip hout, ht.skip hout⟩
  · obtain ⟨inner, hchild⟩ := isDirectory_iff.1 hdir
    have hdir' := isDirectory_iff.2 ⟨inner, h.find?_join hs ht hname hchild⟩
    rw [copyEntry_of_directory hkept hdir']
    exact h.again hs ht hname hrecopies (copies_copyTreeWithin exclude depth) hdone hkept hchild
      hcopy
  · have hvacant := hs.vacant_join h.left.plain h.left.vacant h.left.turns hname hdone
    obtain ⟨-, data, mode, hchild⟩ := of_copyFile_eq_ok hvacant.plain hvacant.vacant hcopy
    have hfile : t.isDirectory (source.join name) = false := by
      rw [World.isDirectory, h.find?_join hs ht hname hchild]
      rfl
    rw [copyEntry_of_not_directory hkept hfile]
    exact h.again hs ht hname recopies_copyFile (copies_copyFile exclude) hdone hkept hchild hcopy

end Paired

end

theorem Vacant.text_ne (h : Vacant w target) : target.text ≠ "" :=
  have ⟨_, hlast, hends⟩ := h.name
  Path.text_ne_of_endsWith hlast hends

theorem recopies_copyTreeWithin (exclude : List String) (depth : Nat) :
    Recopies (copyTreeWithin exclude depth) := by
  induction depth with
  | zero =>
    intro w w' v source target target' node _ _ _ _ _ _ _ hrun
    cases hrun
  | succ depth ih =>
    intro w w' v source target target' node h h' hfits hfind hfind' hapart hapart' hrun
    rw [copyTreeWithin_apply (exists?_of_vacant h.plain h.vacant)] at hrun
    rw [copyTreeWithin_apply (exists?_of_vacant h'.plain h'.vacant)]
    -- Both targets are made, and what is listed is the same.
    rw [bind_eq_ok_iff] at hrun
    obtain ⟨⟨⟩, w₁, hmake, hrun⟩ := hrun
    obtain ⟨v₁, hmake'⟩ :=
      h'.makeDirectories_eq (hfits.valid (valid_of_makeDirectories h.plain h.text_ne hmake))
    obtain ⟨hmade, hnew⟩ := get?_of_makeDirectories h.plain h.text_ne h.turns h.vacant hmake
    obtain ⟨hmade', hnew'⟩ := get?_of_makeDirectories h'.plain h'.text_ne h'.turns h'.vacant hmake'
    rw [bind_eq_ok_iff] at hrun
    obtain ⟨names, w₂, hlist, hloop⟩ := hrun
    obtain ⟨rfl, entries, hentries, rfl⟩ := find?_of_list hlist
    obtain rfl : node = .directory entries := Option.some.inj
      ((find?_beside h.plain hmade (fun _ h => h.1) h.vacant hapart hfind).symm.trans hentries)
    have hentries' := find?_beside h'.plain hmade' (fun _ h => h.1) h'.vacant hapart' hfind'
    rw [bind_apply, hmake']
    dsimp only
    rw [bind_apply, list_of_find? hentries']
    dsimp only
    have hpaired : Paired w v source target target' entries :=
      ⟨h, h', hfits, hfind, hfind', hapart, hapart'⟩
    have hnode := (locate_of_find? h.plain hfind true).2
    have hordered := h.plain.ordered _ _ hnode
    refine exists_forM_eq_ok
      (P := fun done s t => Copied exclude entries (target.place w.cwd) w done s ∧
        Copied exclude entries (target'.place v.cwd) v done t)
      hloop ⟨.start hmade hnew, .start hmade' hnew'⟩
      fun done name rest hnames s s' t ⟨hs, ht⟩ hstep => ?_
    have hname : IsName name := isName_of_mem_keys h.plain hnode (by simp [hnames])
    have hdone : name ∉ done := not_mem_of_nodup (hnames ▸ hordered.imp String.ne_of_lt)
    exact hpaired.copyEntry hs ht hname ih hdone hstep

end Files

end StubManager
