import StubManager.Proofs.FileTree.Lasting

/-!
# Places that are spared

`Spared kept dirs w w'` says that the trees at the places `kept` are in `w'` what they were in `w`,
and that there are directories at `dirs`. New directories and changes of files outside of these
trees spare them, and so does whatever happens to places apart from them (`enduring_spared`).
-/

namespace StubManager

open Node Running World Files

/-- Whether the trees at some places stay as they are, and directories are at others. -/
structure Spared (kept dirs : List String → Prop) (w w' : World) : Prop where
  cwd : w'.cwd = w.cwd
  tempDir : w'.tempDir = w.tempDir
  plain : w'.root.Plain
  same : ∀ place, kept place → w'.root.get? place = w.root.get? place
  dir : ∀ place, dirs place → w'.root.DirAt place

/-- Whether a place lies in none of the kept trees. -/
def Outside (kept : List String → Prop) (t : List String) : Prop :=
  ∀ place, kept place → ¬ place <+: t

/-- Whether a place lies in none of the kept trees, nor above one, nor above a directory that is to
remain. -/
structure Aloof (kept dirs : List String → Prop) (t : List String) : Prop where
  kept : ∀ place, kept place → ¬ place <+: t ∧ ¬ t <+: place
  dirs : ∀ place, dirs place → ¬ t <+: place

variable {kept dirs : List String → Prop} {w w' w'' : World} {t : List String}

theorem Outside.of_le {t' : List String} (h : Outside kept t') (hle : t <+: t') : Outside kept t :=
  fun place hplace hle' => h place hplace (hle'.trans hle)

namespace Aloof

theorem outside (h : Aloof kept dirs t) : Outside kept t := fun place hplace =>
  (h.kept place hplace).1

/-- What lies below a place apart from the kept trees lies in none of them. -/
theorem outside_below (h : Aloof kept dirs t) {t' : List String} (hle : t <+: t') :
    Outside kept t' := by
  intro place hplace hle'
  obtain ⟨hbelow, habove⟩ := h.kept place hplace
  exact (List.prefix_or_prefix_of_prefix hle' hle).elim hbelow habove

theorem mono (h : Aloof kept dirs t) {t' : List String} (hle : t <+: t') : Aloof kept dirs t' where
  kept place hplace := ⟨h.outside_below hle place hplace, fun hle' =>
    (h.kept place hplace).2 (hle.trans hle')⟩
  dirs place hplace hle' := h.dirs place hplace (hle.trans hle')

theorem roomy (h : Aloof kept dirs t) :
    Roomy (Outside kept) (Outside kept) (Aloof kept dirs) t :=
  ⟨h, fun _ hle => ⟨h.outside_below hle, h.outside_below hle⟩⟩

end Aloof

/-- A directory in one to work in is one to work in as well. -/
theorem workspace_join {cwd : List String} {p : Path}
    (h : Workspace (Outside kept) (Outside kept) (Aloof kept dirs) cwd p) {name : String}
    (hname : IsName name) :
    Workspace (Outside kept) (Outside kept) (Aloof kept dirs) cwd (p.join name) where
  way := (h.join hname).1
  room := by
    refine Aloof.roomy (h.room.loose.mono ?_)
    rw [Path.place_join p hname]
    exact List.prefix_append _ _

namespace Spared

theorem refl (kept : List String → Prop) (hplain : w.root.Plain)
    (hdirs : ∀ place, dirs place → w.root.DirAt place) : Spared kept dirs w w :=
  ⟨rfl, rfl, hplain, fun _ _ => rfl, hdirs⟩

theorem trans (h : Spared kept dirs w w') (h' : Spared kept dirs w' w'') :
    Spared kept dirs w w'' where
  cwd := h'.cwd.trans h.cwd
  tempDir := h'.tempDir.trans h.tempDir
  plain := h'.plain
  same place hplace := (h'.same place hplace).trans (h.same place hplace)
  dir := h'.dir

theorem of_root_eq (h : Spared kept dirs w w') (hroot : w''.root = w'.root)
    (hcwd : w''.cwd = w'.cwd) (htempDir : w''.tempDir = w'.tempDir) : Spared kept dirs w w'' where
  cwd := hcwd.trans h.cwd
  tempDir := htempDir.trans h.tempDir
  plain := hroot ▸ h.plain
  same place hplace := hroot ▸ h.same place hplace
  dir place hplace := hroot ▸ h.dir place hplace

/-- A change of one entry. -/
theorem alter (h : Spared kept dirs w w') {f : Option Node → Option Node}
    (hf : ∀ node, f (w'.root.get? t) = some node →
      (∀ name, t.getLast? = some name → IsName name) ∧ node.Plain)
    (hsame : ∀ place, kept place → (w'.alter f t).root.get? place = w'.root.get? place)
    (hdir : ∀ place, dirs place → w'.root.DirAt place → ¬ t <+: place) :
    Spared kept dirs w (w'.alter f t) where
  cwd := h.cwd
  tempDir := h.tempDir
  plain := h.plain.alter hf
  same place hplace := (hsame place hplace).trans (h.same place hplace)
  dir place hplace :=
    have hnow := h.dir place hplace
    (dirAt_alter_iff f (hdir place hplace hnow)).2 hnow

/-- A change of an entry that is no directory before and after. -/
theorem alter_leaf (h : Spared kept dirs w w') {f : Option Node → Option Node}
    (hf : ∀ node, f (w'.root.get? t) = some node →
      (∀ name, t.getLast? = some name → IsName name) ∧ node.Plain)
    (ht : Outside kept t) (hbefore : ¬ w'.root.DirAt t)
    (hafter : ∀ entries, f (w'.root.get? t) ≠ some (.directory entries)) :
    Spared kept dirs w (w'.alter f t) :=
  h.alter hf (fun place hplace => get?_alter_of_leaf h.plain hbefore hafter (ht place hplace))
    fun _ _ hnow hle => hbefore (hnow.of_below hle)

/-- A change of an entry apart from the kept trees. -/
theorem alter_aloof (h : Spared kept dirs w w') {f : Option Node → Option Node}
    (hf : ∀ node, f (w'.root.get? t) = some node →
      (∀ name, t.getLast? = some name → IsName name) ∧ node.Plain)
    (ht : Aloof kept dirs t) : Spared kept dirs w (w'.alter f t) :=
  h.alter hf (fun place hplace => get?_alter_of_disjoint f w'.root (ht.kept place hplace).2
    (ht.kept place hplace).1) fun place hplace _ => ht.dirs place hplace

/-- A path whose turns are spared leads to the spared tree that it led to. -/
theorem find?_eq (h : Spared kept dirs w w') (hplain : w.root.Plain) {p : Path} {node : Node}
    (hfind : w.find? p = some node) (hkept : kept (p.place w.cwd))
    (hturns : ∀ turn, p.TurnsAt w.cwd turn → dirs turn) : w'.find? p = some node := by
  obtain ⟨hvalid, hway, hnode⟩ := (find?_eq_some_iff hplain).1 hfind
  have hsame := h.same _ hkept
  refine (find?_eq_some_iff h.plain).2 ⟨hvalid, fun v hv => ?_, ?_⟩
  · rw [onWay, h.cwd] at hv
    obtain ⟨turn, hturn, hle⟩ | hle := (passes_of_mem_onWay hv).le
    · exact (h.dir turn (hturns turn hturn)).of_below hle
    by_cases heq : v = p.place w.cwd
    · rw [DirAt, heq, hsame, ← heq]
      exact hway v hv
    · exact DirAt.of_get? (hsame.trans hnode) hle heq
  · rw [h.cwd, hsame, hnode]

end Spared

/-- A new directory is seen at its own place and above it only. -/
theorem get?_put_directory (hplain : w.root.Plain) {parent : List String} {name : String}
    (hparent : w.root.DirAt parent) (hvacant : w.root.get? (parent ++ [name]) = none)
    {place : List String} (hnot : ¬ place <+: parent ++ [name]) :
    (w.put (parent ++ [name]) (.directory [])).root.get? place = w.root.get? place := by
  by_cases hle : parent ++ [name] <+: place
  · obtain ⟨back, rfl⟩ := hle
    have hnew : (w.put (parent ++ [name]) (.directory [])).root.get? (parent ++ [name])
        = some (.directory []) := hplain.get?_alter_self hparent
    cases back with
    | nil => exact absurd (by simp) hnot
    | cons first back =>
      rw [get?_append _ (parent ++ [name]), get?_append _ (parent ++ [name]), hnew, hvacant]
      rfl
  · exact get?_alter_of_disjoint _ w.root hle hnot

theorem enduring_spared (kept dirs : List String → Prop) (w : World) :
    Enduring (Spared kept dirs w) w.cwd (Outside kept) (Outside kept) (Aloof kept dirs) where
  cwd _ h := h.cwd
  plain _ h := h.plain
  made w' parent name h hidle hname hparent hvacant :=
    h.alter (fun _ heq => Option.some.inj heq ▸ ⟨by simpa using hname, plain_empty⟩)
      (fun place hplace => get?_put_directory h.plain hparent hvacant (hidle place hplace))
      fun _ _ hnow hle => not_dirAt_of_none hvacant (hnow.of_below hle)
  written w' parent name data mode h hfree hname _ hnot :=
    h.alter_leaf (fun _ heq => Option.some.inj heq ▸ ⟨by simpa using hname, plain_file _ _⟩)
      hfree hnot fun _ => by simp
  removed w' place h hfree hfile :=
    h.alter_leaf (fun _ heq => nomatch heq) hfree hfile.not_dirAt fun _ => by simp
  erased w' place h haloof := h.alter_aloof (fun _ heq => nomatch heq) haloof
  put w' place node h haloof hname hnode :=
    h.alter_aloof (fun _ heq => Option.some.inj heq ▸ ⟨hname, hnode⟩) haloof

/-! ## Drafts -/

/-- Whether no draft of a file can come to lie at a place: something is there, or its name is not
that of a draft beside the file. -/
def Undrafted (p : Path) (w : World) (place : List String) : Prop :=
  w.root.get? place ≠ none ∨ ∀ name ∈ temporaryNames ".tmp",
    (holder p).place w.cwd ++ [name] ≠ place

/-- Replacing a file spares the trees that its path avoids. -/
theorem spared_replace {p : Path} {name : String} (hname : IsName name) (hends : p.EndsWith name)
    (hway : ∀ place, p.Passes w.cwd place → Outside kept place)
    (hdraft : ∀ place, kept place → Undrafted p w place) (data : ByteArray) :
    Keeps (Spared kept dirs w) (replace p data) := by
  have hholder : ∀ place, (holder p).Passes w.cwd place → Outside kept place :=
    fun place hpasses => hway place (passes_holder hname hends hpasses)
  refine (enduring_spared kept dirs w).keeps_replace hholder (hway _ (p.passes_place _))
    (fun w' draft hw' hmem hvacant place hplace hle => ?_) data
  rw [List.prefix_concat_iff] at hle
  obtain rfl | hle := hle
  · obtain hthere | hnames := hdraft _ hplace
    · rw [← hw'.same _ hplace] at hthere
      exact hthere hvacant
    · exact hnames draft hmem rfl
  · exact hholder _ ((holder p).passes_place _) place hplace hle

/-! ## Temporary directories -/

/-- Whether temporary directories that can still be made are apart from a place: the path to them
avoids it, and none of them lies at or above it. -/
structure Unhandled (stems : List String) (w : World) (place : List String) : Prop where
  way : ∀ other, w.tempDir.Passes w.cwd other → ¬ place <+: other
  room : w.root.get? place ≠ none ∨ ∀ stem ∈ stems, ∀ name ∈ temporaryNames stem,
    ¬ w.tempDir.place w.cwd ++ [name] <+: place

/-- A way that never turns back, beside a tree that is there. -/
theorem Unhandled.of_straight {stems : List String} {place : List String}
    (hstraight : ".." ∉ w.tempDir.names) (hnot : ¬ place <+: w.tempDir.place w.cwd)
    (hthere : w.root.get? place ≠ none) : Unhandled stems w place where
  way _ hpasses hle := hnot (hle.trans (hpasses.le_of_straight hstraight))
  room := .inl hthere

/-- What is there lies at or below no place where nothing is. -/
theorem not_le_of_get?_ne_none {place : List String} (h : w.root.get? place ≠ none)
    (hvacant : w.root.get? t = none) : ¬ t <+: place := by
  rintro ⟨back, rfl⟩
  rw [get?_append, hvacant] at h
  exact h rfl

theorem Unhandled.spared {stems : List String} {place : List String}
    (h : Unhandled stems w place) (hspared : Spared kept dirs w w') (hkept : kept place) :
    Unhandled stems w' place := by
  obtain ⟨hway, hroom⟩ := h
  rw [← hspared.cwd, ← hspared.tempDir] at hway hroom
  rw [← hspared.same place hkept] at hroom
  exact ⟨hway, hroom⟩

theorem spacious_spared {stems : List String} {stem : String} (hstem : stem ∈ stems)
    (h : ∀ place, kept place → Unhandled stems w place)
    (hdirs : ∀ place, dirs place → w.root.DirAt place) :
    Spacious (Outside kept) (Outside kept) (Aloof kept dirs) stem w where
  way other hother place hplace := (h place hplace).way other hother
  room name hname hvacant := by
    refine Aloof.roomy ⟨fun place hplace => ?_, fun place hplace hle => ?_⟩
    · obtain ⟨hway, hroom⟩ := h place hplace
      have habove : ¬ w.tempDir.place w.cwd ++ [name] <+: place :=
        hroom.elim (not_le_of_get?_ne_none · hvacant) fun hnames => hnames stem hstem name hname
      refine ⟨fun hle => ?_, habove⟩
      rw [List.prefix_concat_iff] at hle
      obtain rfl | hle := hle
      · exact habove (List.prefix_refl _)
      · exact hway _ (w.tempDir.passes_place w.cwd) hle
    · exact not_dirAt_of_none hvacant ((hdirs place hplace).of_below hle)

end StubManager
