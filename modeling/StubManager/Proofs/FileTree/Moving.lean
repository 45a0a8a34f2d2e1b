import StubManager.Proofs.FileTree.Changes
import StubManager.Proofs.FileTree.Under

/-!
# Clearing and moving

Clearing a path takes away the directory that it leads to (`clear_cases`) and nothing else. A move
over another directory beside it takes a node as a whole or leaves it where it is
(`moveOver_cases`).
-/

namespace StubManager

open Node Running World

namespace Files

variable {w w' : World} {base p : Path} {front : List String} {entry : String}

/-! ## Clearing -/

/-- Clearing a path takes away the directory that it leads to, if any. -/
theorem clear_cases (hplain : w.root.Plain) (p : Path) :
    (∃ fault, clear p w = (.error fault, w)) ∨
      (w.find? p = none ∧ clear p w = (.ok (), w)) ∨
      ∃ entries, w.find? p = some (.directory entries) ∧
        clear p w = (.ok (), w.erase (p.place w.cwd)) := by
  rw [clear, bind_apply, ask_apply]
  dsimp only
  split
  · exact (removeTree_cases hplain p).imp_right .inr
  · next hmissing =>
    refine .inr (.inl ⟨?_, rfl⟩)
    simpa [World.exists?] using hmissing

theorem frame_clear (hplain : w.root.Plain) (p : Path) :
    Frame (· = p.place w.cwd) w (clear p w).2 := by
  obtain ⟨fault, h⟩ | ⟨-, h⟩ | ⟨entries, -, h⟩ := clear_cases hplain p
  · rw [h]
    exact .refl _ w
  · rw [h]
    exact .refl _ w
  · rw [h]
    exact (Frame.refl _ w).erase rfl (List.prefix_refl _)

/-- Clearing takes away no file and puts none. -/
theorem get?_clear_eq_file_iff (hplain : w.root.Plain) (hp : base.Under front entry p)
    (data : ByteArray) (mode : Bool) :
    (clear p w).2.root.get? (p.place w.cwd) = some (.file data mode) ↔
      w.root.get? (p.place w.cwd) = some (.file data mode) := by
  obtain ⟨fault, h⟩ | ⟨-, h⟩ | ⟨entries, hfind, h⟩ := clear_cases hplain p
  · rw [h]
  · rw [h]
  · have hnode := (locate_of_find? hplain hfind true).2
    obtain ⟨parent, hplace⟩ := hp.exists_place w.cwd
    rw [hplace] at hnode h ⊢
    have hgone : (w.erase (parent ++ [entry])).root.get? (parent ++ [entry]) = none :=
      hplain.get?_alter_self (dirAt_of_get? hnode)
    rw [h, hgone, hnode]
    simp

/-- Nothing is left where a path was cleared. -/
theorem get?_of_clear (hplain : w.root.Plain)
    (hturns : ∀ turn, base.TurnsAt w.cwd turn → w.root.DirAt turn)
    (hp : base.Under front entry p) (hvalid : Valid p) (hclear : clear p w = (.ok (), w')) :
    w'.root.get? (p.place w.cwd) = none := by
  have hfound := find?_of_under hplain hp hturns hvalid
  obtain ⟨fault, h⟩ | ⟨hfind, h⟩ | ⟨entries, hfind, h⟩ := clear_cases hplain p
  · rw [h] at hclear
    cases hclear
  · rw [h] at hclear
    cases hclear
    rw [← hfound, hfind]
  · have hnode := hfound.symm.trans hfind
    obtain ⟨parent, hplace⟩ := hp.exists_place w.cwd
    rw [hplace] at hnode h ⊢
    rw [h] at hclear
    cases hclear
    exact hplain.get?_alter_self (dirAt_of_get? hnode)

/-- A path is cleared if it does not lead to a file. -/
theorem clear_eq_ok (hplain : w.root.Plain)
    (hturns : ∀ turn, base.TurnsAt w.cwd turn → w.root.DirAt turn)
    (hp : base.Under front entry p) (hvalid : Valid p) (hnot : ¬ w.root.FileAt (p.place w.cwd)) :
    (clear p w).1 = .ok () := by
  have hfound := find?_of_under hplain hp hturns hvalid
  rw [clear, bind_apply, ask_apply]
  dsimp only
  rw [World.exists?, hfound]
  cases hnode : w.root.get? (p.place w.cwd) with
  | none => rfl
  | some node =>
    cases node with
    | file data mode => exact absurd ⟨data, mode, hnode⟩ hnot
    | link target => exact absurd hnode (hplain.linkless _ _)
    | directory entries =>
      rw [Option.isSome_some, if_pos rfl, removeTree_of_isDirectory hplain (hfound.trans hnode)]

/-! ## Moving -/

theorem short_of_endsWith {p : Path} {name : String} (hname : IsName name)
    (hends : p.EndsWith name) (hvalid : Valid p) : ¬ nameLimit < name.utf8ByteSize := by
  obtain ⟨front, hsteps⟩ := exists_steps_of_endsWith hends
  exact Nat.not_lt.2 (hvalid.2 name (by simp [hsteps]) hname.1 hname.2.1 hname.2.2.1)

/-- A node is moved to a free name in its directory. -/
theorem rename_beside (hplain : w.root.Plain) {source target : Path} {parent : List String}
    {name name' : String} {node : Node} (hname : IsName name) (hname' : IsName name')
    (hends : source.EndsWith name) (hends' : target.EndsWith name')
    (hturns : ∀ turn, source.TurnsAt w.cwd turn → w.root.DirAt turn)
    (hturns' : ∀ turn, target.TurnsAt w.cwd turn → w.root.DirAt turn)
    (hvalid : Valid source) (hvalid' : Valid target)
    (hplace : source.place w.cwd = parent ++ [name])
    (hplace' : target.place w.cwd = parent ++ [name']) (hne : name ≠ name')
    (hnode : w.root.get? (parent ++ [name]) = some node)
    (hfree : w.root.get? (parent ++ [name']) = none) :
    rename source target w
      = (.ok (), (w.erase (parent ++ [name])).put (parent ++ [name']) node) := by
  have hparent := dirAt_of_get? hnode
  have hsource := locateParent_of_endsWith hplain hname hends hturns hvalid hplace hparent
  have htarget := locateParent_of_endsWith hplain hname' hends' hturns' hvalid' hplace' hparent
  have hnot : ∀ name, (parent ++ [name]).isPrefixOf parent = false := by
    intro name
    rw [← Bool.not_eq_true, List.isPrefixOf_iff_prefix]
    intro hle
    have hlength := hle.length_le
    rw [List.length_append, List.length_singleton] at hlength
    omega
  have hother : parent ++ [name] ≠ parent ++ [name'] := fun heq =>
    hne (List.cons.inj (List.append_inj' heq rfl).2).1
  have hshort := short_of_endsWith hname hends hvalid
  have hshort' := short_of_endsWith hname' hends' hvalid'
  simp only [rename, bind_apply, orFault_apply, hsource, htarget]
  simp [bind_apply, get_apply, hname.1, hname.2.1, hname.2.2.1, hname'.1, hname'.2.1,
    hname'.2.2.1, hshort, hshort', hnode, hfree, hnot, hother]
  rfl

/-- The node moved is found at its new place, and not at its old one. -/
theorem get?_of_move (hplain : w.root.Plain) {parent parent' : List String} {name name' : String}
    {node : Node} (new : Node) (hnode : w.root.get? (parent ++ [name]) = some node)
    (hparent' : w.root.DirAt parent') (hbelow : ¬ parent ++ [name] <+: parent' ++ [name'])
    (habove : ¬ parent' ++ [name'] <+: parent ++ [name]) :
    ((w.erase (parent ++ [name])).put (parent' ++ [name']) new).root.get? (parent' ++ [name'])
        = some new ∧
      ((w.erase (parent ++ [name])).put (parent' ++ [name']) new).root.get? (parent ++ [name])
        = none := by
  have herased : (w.erase (parent ++ [name])).root.Plain :=
    ((Frame.refl (fun _ => True) w).erase trivial (List.prefix_refl _)).plain hplain
  have hgone : (w.erase (parent ++ [name])).root.get? (parent ++ [name]) = none :=
    hplain.get?_alter_self (dirAt_of_get? hnode)
  constructor
  · refine herased.get?_alter_self ((dirAt_alter_iff _ fun hle => hbelow ?_).2 hparent')
    exact hle.trans (List.prefix_append _ _)
  · exact (get?_alter_of_disjoint _ _ habove hbelow).trans hgone

/-- A move over another directory clears its place first. -/
theorem moveOver_steps (hplain : w.root.Plain) (source : Path) {target : Path}
    (hturns : ∀ turn, base.TurnsAt w.cwd turn → w.root.DirAt turn)
    (htarget : base.Under front entry target) :
    ∃ w₁, Frame (· = target.place w.cwd) w w₁ ∧
      (∀ data mode, w₁.root.get? (target.place w.cwd) = some (.file data mode) ↔
        w.root.get? (target.place w.cwd) = some (.file data mode)) ∧
      ((∃ fault, moveOver source target w = (.error fault, w₁)) ∧
          (Valid target → w.root.FileAt (target.place w.cwd)) ∨
        moveOver source target w = rename source target w₁ ∧
          (Valid target → w₁.root.get? (target.place w.cwd) = none)) := by
  refine ⟨(clear target w).2, frame_clear hplain target,
    get?_clear_eq_file_iff hplain htarget, ?_⟩
  have hgone : ∀ w₁, clear target w = (.ok (), w₁) → Valid target →
      w₁.root.get? (target.place w.cwd) = none :=
    fun _ hclear hvalid => get?_of_clear hplain hturns htarget hvalid hclear
  have hok := clear_eq_ok hplain hturns htarget
  rw [moveOver, bind_apply]
  generalize clear target w = step at hgone hok
  obtain ⟨result, w₁⟩ := step
  cases result with
  | error fault =>
    refine .inl ⟨⟨fault, rfl⟩, fun hvalid => ?_⟩
    by_contra hnot
    cases hok hvalid hnot
  | ok _ => exact .inr ⟨rfl, hgone w₁ rfl⟩

section

variable {entry' : String} {source target : Path}

/-- Entries of one directory are apart. -/
theorem not_le_of_entry_ne (home front : List String) (hne : entry ≠ entry') :
    ¬ home ++ (front ++ [entry]) <+: home ++ (front ++ [entry']) := by
  rw [List.prefix_append_right_inj, List.prefix_append_right_inj]
  simpa using hne

/-- A node is moved beside itself to a free name, or it stays. -/
theorem rename_beside_cases (hplain : w.root.Plain)
    (hturns : ∀ turn, base.TurnsAt w.cwd turn → w.root.DirAt turn)
    (hsource : base.Under front entry source) (htarget : base.Under front entry' target)
    (hne : entry ≠ entry')
    (hfree : Valid target → w.root.get? (target.place w.cwd) = none) :
    ((∃ fault, rename source target w = (.error fault, w)) ∧
        (Valid source → Valid target → w.root.get? (source.place w.cwd) = none)) ∨
      ∃ node w', rename source target w = (.ok (), w') ∧ Valid source ∧ Valid target ∧
        w.root.get? (source.place w.cwd) = some node ∧
        w'.root.get? (target.place w.cwd) = some node ∧
        w'.root.get? (source.place w.cwd) = none := by
  obtain ⟨hplace, hplace'⟩ := And.intro (hsource.place w.cwd) (htarget.place w.cwd)
  have hbelow := not_le_of_entry_ne (base.place w.cwd) front hne
  have habove := not_le_of_entry_ne (base.place w.cwd) front hne.symm
  rw [← hplace, ← hplace'] at hbelow habove
  rw [← List.append_assoc] at hplace hplace'
  obtain ⟨fault, h⟩ | ⟨heq, -, h⟩ |
      ⟨parent, name, node, hat, -, hvalid, hvalid', hparent, hnode, -, h⟩ :=
    rename_cases hplain source target
  · refine .inl ⟨⟨fault, h⟩, fun hvalid hvalid' => ?_⟩
    by_contra hthere
    obtain ⟨node, hnode⟩ := Option.ne_none_iff_exists'.1 hthere
    rw [rename_beside hplain hsource.isName_entry htarget.isName_entry hsource.endsWith
      htarget.endsWith (fun turn hturn => hturns turn (hsource.turnsAt hturn))
      (fun turn hturn => hturns turn (htarget.turnsAt hturn)) hvalid hvalid' hplace hplace'
      hne (hplace ▸ hnode) (hplace' ▸ hfree hvalid')] at h
    cases h
  · exact absurd (heq ▸ List.prefix_refl _) hbelow
  · rw [hplace] at hbelow habove hnode h ⊢
    rw [hat] at hbelow habove h ⊢
    obtain ⟨hnew, hold⟩ := get?_of_move hplain node hnode hparent hbelow habove
    exact .inr ⟨node, _, h, hvalid, hvalid', hnode, hnew, hold⟩

/-- What holds after a directory was moved to another place in the same directory. -/
theorem moveOver_cases (hplain : w.root.Plain)
    (hturns : ∀ turn, base.TurnsAt w.cwd turn →
      w.root.DirAt turn ∧ ¬ target.place w.cwd <+: turn)
    (hsource : base.Under front entry source) (htarget : base.Under front entry' target)
    (hne : entry ≠ entry') :
    ∃ result w', moveOver source target w = (result, w') ∧
      Frame (fun t => t = source.place w.cwd ∨ t = target.place w.cwd) w w' ∧
      (match result with
        | .error _ => w'.root.get? (source.place w.cwd) = w.root.get? (source.place w.cwd)
        | .ok () => Valid source ∧ Valid target ∧ ∃ node,
            w.root.get? (source.place w.cwd) = some node ∧
            w'.root.get? (target.place w.cwd) = some node ∧
            w'.root.get? (source.place w.cwd) = none) ∧
      (Valid source → Valid target → ¬ w.root.FileAt (target.place w.cwd) →
        (∃ node, w.root.get? (source.place w.cwd) = some node) → result = .ok ()) := by
  obtain ⟨w₁, hframe, -, hrun⟩ := moveOver_steps hplain source
    (fun turn hturn => (hturns turn hturn).1) htarget
  have hsame : w₁.root.get? (source.place w.cwd) = w.root.get? (source.place w.cwd) := by
    refine hframe.apart _ ?_
    rintro t rfl
    rw [hsource.place, htarget.place]
    exact ⟨not_le_of_entry_ne _ _ hne.symm, not_le_of_entry_ne _ _ hne⟩
  have hframe' : Frame (fun t => t = source.place w.cwd ∨ t = target.place w.cwd) w w₁ :=
    hframe.mono fun t ht => ⟨t, .inr ht, List.prefix_refl _⟩
  obtain ⟨⟨fault, hrun⟩, hfile⟩ | ⟨hrun, hfree⟩ := hrun
  · refine ⟨.error fault, w₁, hrun, hframe', hsame, fun _ hvalid hnot _ => ?_⟩
    exact absurd (hfile hvalid) hnot
  · have hturns₁ : ∀ turn, base.TurnsAt w₁.cwd turn → w₁.root.DirAt turn := by
      rw [hframe.cwd]
      intro turn hturn
      exact hframe.dir turn (fun t ht => ht ▸ (hturns turn hturn).2) (hturns turn hturn).1
    have hframe₂ : Frame _ w (rename source target w₁).2 := keeps_rename hplain (.inl rfl)
      (.inr rfl) (List.prefix_refl _) (List.prefix_refl _) w₁ hframe'
    rw [hrun, ← hsame]
    rw [← hframe.cwd] at hfree
    have hcases := rename_beside_cases (hframe.plain hplain) hturns₁ hsource htarget hne hfree
    rw [hframe.cwd] at hcases
    obtain ⟨⟨fault, h⟩, hnone⟩ | ⟨node, w', h, hvalid, hvalid', hnode, hnew, hold⟩ := hcases
    · refine ⟨.error fault, w₁, h, hframe', rfl, fun hvalid hvalid' _ hthere => ?_⟩
      obtain ⟨node, hnode⟩ := hthere
      rw [hnone hvalid hvalid'] at hnode
      cases hnode
    · rw [h] at hframe₂
      exact ⟨.ok (), w', h, hframe₂, ⟨hvalid, hvalid', node, hnode, hnew, hold⟩,
        fun _ _ _ _ => rfl⟩

end

end Files

end StubManager
