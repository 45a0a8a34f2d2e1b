import StubManager.Proofs.Artifact.Application
import StubManager.Proofs.Installation.Restoration
import StubManager.Proofs.Registry.Saving
import StubManager.Proofs.Registry.Sparing
import StubManager.Proofs.Registry.Staging
import StubManager.Proofs.Transaction.Targets

/-!
# Stubs that are listed

An addition that succeeds leaves a list that can be read and holds the name of the stub
(`lists_run_iff`), unless that name is new and holds a line feed: it is written as it is, and a
string is not read over the end of a line (`not_lists_of_break`). The list must lie apart from what
the addition changes besides (`Manifest.Detached`).
-/

namespace StubManager

open Node World Running Registry Transaction

variable {w w' : World} {site site' : Site} {m : Manifest} {name : String}

/-! ## Lists in texts -/

namespace Artifact

open ListText

variable {artifact result : Artifact} {list : ListText}

/-- A name that was added is listed, and the list can be read, unless the name is new and holds a
line feed. -/
theorem listed_apply_adding_iff (h : artifact.locate = .ok list)
    (happly : artifact.apply (.adding [name]) = .ok result) :
    result.anchor = artifact.anchor ∧ result.origin = artifact.origin ∧
      ((∃ names, result.entries = .ok names ∧ name ∈ names) ↔
        '\n' ∉ name.toList ∨ name ∈ list.values) := by
  rw [ChangeSet.adding] at happly
  obtain ⟨hvalid, -⟩ := of_apply_eq_ok happly
  rw [apply_ofNames h hvalid] at happly
  obtain ⟨rfl, hcases⟩ := foldlM_addNode_cases (foldlM_removeValue h []).2 happly
  refine ⟨rfl, rfl, ?_⟩
  rw [entries]
  obtain hwritten | ⟨⟨_, hmem, hbreak, hnew⟩, failure, herror⟩ := hcases
  · obtain ⟨-, hlocate⟩ := foldlM_addNode (foldlM_removeValue h []).2 hwritten
    have hname := hwritten name (List.mem_singleton_self name)
    rw [hlocate]
    refine iff_of_true ⟨_, rfl, ?_⟩ (or_iff_not_imp_left.2 fun hnot => hname (not_not.1 hnot))
    rw [List.foldl_cons, List.foldl_nil, values_extend hname]
    exact mem_withName.2 (.inr rfl)
  · obtain rfl := List.mem_singleton.1 hmem
    rw [herror]
    exact iff_of_false (fun ⟨_, heq, _⟩ => nomatch heq) (not_or.2 ⟨not_not.2 hbreak, hnew⟩)

/-- A text is loaded from the contents of its file. -/
theorem load_of_contents (artifact : Artifact) {p : Path} (horigin : artifact.origin = p.text)
    (h : w.contents? p = some artifact.text.toUTF8) :
    load p artifact.anchor w = (.ok artifact, w) := by
  obtain ⟨mode, hfind⟩ := contents?_eq_some_iff.1 h
  have htext : String.fromUTF8? artifact.text.toUTF8 = some artifact.text :=
    dif_pos (String.isValidUTF8 _)
  rw [load, bind_apply, adapt_apply, Files.readText, bind_apply, Files.read_of_find? hfind]
  simp only [htext]
  rw [← horigin]
  rfl

theorem of_load_eq_ok {p : Path} {anchor : String} (h : load p anchor w = (.ok artifact, w')) :
    w' = w ∧ artifact.anchor = anchor ∧ artifact.origin = p.text ∧
      w.contents? p = some artifact.text.toUTF8 := by
  rw [load, bind_apply, adapt_apply, Files.readText, bind_apply] at h
  obtain ⟨fault, hread⟩ | ⟨data, mode, hfile, hread⟩ := Files.read_cases (w := w) p
  · rw [hread] at h
    cases h
  · rw [hread] at h
    dsimp only at h
    cases htext : String.fromUTF8? data with
    | none =>
      rw [htext] at h
      cases h
    | some text =>
      rw [htext] at h
      cases h
      have hdata : text.toUTF8 = data := by
        rw [String.fromUTF8?] at htext
        split at htext
        · cases htext
          rfl
        · cases htext
      exact ⟨rfl, rfl, rfl, contents?_eq_some_iff.2 ⟨mode, hdata ▸ hfile⟩⟩

end Artifact

/-! ## Lists of projects -/

namespace Manifest

/-- Whether the list can be read and holds a name. -/
def Lists (m : Manifest) (w : World) (name : String) : Prop :=
  ∃ names, (m.entries w).1 = .ok names ∧ name ∈ names

instance (m : Manifest) (w : World) (name : String) : Decidable (m.Lists w name) :=
  match h : (m.entries w).1 with
  | .ok names => decidable_of_iff (name ∈ names)
    ⟨fun hmem => ⟨names, h, hmem⟩, fun ⟨_, heq, hmem⟩ => Except.ok.inj (h.symm.trans heq) ▸ hmem⟩
  | .error _ => .isFalse fun ⟨_, heq, _⟩ => nomatch h.symm.trans heq

/-- The list is read from the contents of its file. -/
theorem lists_iff {artifact : Artifact} (hanchor : artifact.anchor = m.anchor)
    (horigin : artifact.origin = m.path.text)
    (h : w.contents? m.path = some artifact.text.toUTF8) :
    m.Lists w name ↔ ∃ names, artifact.entries = .ok names ∧ name ∈ names := by
  have hload := artifact.load_of_contents horigin h
  rw [hanchor] at hload
  rw [Lists, entries, bind_apply, load, hload]
  dsimp only
  rw [ofExcept_apply]

theorem Lists.congr (h : m.Lists w name) (hsame : w'.contents? m.path = w.contents? m.path) :
    m.Lists w' name := by
  have hlists := h
  obtain ⟨names, hentries, -⟩ := h
  obtain ⟨artifact, w₁, hload, -⟩ := of_bind_eq_ok hentries
  obtain ⟨-, hanchor, horigin, hdata⟩ := Artifact.of_load_eq_ok hload
  rw [lists_iff hanchor horigin hdata] at hlists
  exact (lists_iff hanchor horigin (hsame.trans hdata)).2 hlists

theorem lists_congr (hsame : w'.contents? m.path = w.contents? m.path) :
    m.Lists w' name ↔ m.Lists w name := ⟨fun h => h.congr hsame.symm, fun h => h.congr hsame⟩

/-- What the addition of a name makes of the contents of the file with the list. -/
def Rewrites (m : Manifest) (name : String) (old new : ByteArray) : Prop :=
  ∃ current updated : Artifact, current.anchor = m.anchor ∧ current.origin = m.path.text ∧
    current.apply (.adding [name]) = .ok updated ∧ current.text.toUTF8 = old ∧
    updated.text.toUTF8 = new

/-- Once the file has the contents that an addition makes of it, the name is listed unless it is new
and holds a line feed. -/
theorem Rewrites.lists_iff {old new : ByteArray} (h : m.Rewrites name old new)
    (hold : w.contents? m.path = some old) (hnew : w'.contents? m.path = some new) :
    m.Lists w' name ↔ '\n' ∉ name.toList ∨ m.Lists w name := by
  obtain ⟨current, updated, hanchor, horigin, happly, rfl, rfl⟩ := h
  obtain ⟨-, list, hlocate⟩ := Artifact.of_apply_eq_ok happly
  obtain ⟨hanchor', horigin', hlisted⟩ := Artifact.listed_apply_adding_iff hlocate happly
  have hbefore : m.Lists w name ↔ name ∈ list.values := by
    rw [Manifest.lists_iff hanchor horigin hold, Artifact.entries, hlocate]
    constructor
    · rintro ⟨names, heq, hmem⟩
      exact Except.ok.inj heq ▸ hmem
    · exact fun hmem => ⟨_, rfl, hmem⟩
  rw [Manifest.lists_iff (hanchor'.trans hanchor) (horigin'.trans horigin) hnew, hlisted, hbefore]

/-- What a plan to add a name amounts to. -/
theorem of_plan_adding {planned : Option Artifact}
    (h : m.plan (.adding [name]) w = (.ok planned, w')) :
    w' = w ∧ ∃ old new : ByteArray, w.contents? m.path = some old ∧
      (planned = none → new = old) ∧ (∀ artifact ∈ planned, artifact.text.toUTF8 = new) ∧
      m.Rewrites name old new := by
  rw [plan, bind_eq_ok_iff] at h
  obtain ⟨current, w₁, hload, h⟩ := h
  obtain ⟨rfl, hanchor, horigin, hold⟩ := Artifact.of_load_eq_ok hload
  rw [bind_eq_ok_iff] at h
  obtain ⟨updated, w₂, hstep, h⟩ := h
  rw [ofExcept_apply, Prod.mk.injEq] at hstep
  obtain ⟨happly, rfl⟩ := hstep
  obtain ⟨rfl, rfl⟩ : (if updated.text = current.text then none else some updated) = planned ∧
      w₁ = w' := ⟨Except.ok.inj (Prod.mk.inj h).1, (Prod.mk.inj h).2⟩
  refine ⟨rfl, _, updated.text.toUTF8, hold, fun hnone => ?_, fun artifact hsome => ?_,
    current, updated, hanchor, horigin, happly, rfl, rfl⟩
  · split at hnone
    · next hsame => rw [hsame]
    · cases hnone
  · split at hsome
    · cases hsome
    · cases hsome
      rfl

end Manifest

/-! ## Files that stay and files that are saved -/

namespace World

variable {p : Path} {data : ByteArray} {kept dirs : List String → Prop}

/-- What is known of a path that leads to a file. -/
theorem of_contents? (hplain : w.root.Plain) (h : w.contents? p = some data) :
    (∃ name, IsName name ∧ p.EndsWith name) ∧ Valid p ∧
      (∀ turn, p.TurnsAt w.cwd turn → w.root.DirAt turn) ∧
      ∃ mode, w.root.get? (p.place w.cwd) = some (.file data mode) := by
  obtain ⟨mode, hfind⟩ := contents?_eq_some_iff.1 h
  obtain ⟨name, hname⟩ := endsWith_of_isFile hplain hfind
  exact ⟨⟨name, hname⟩, ((find?_eq_some_iff hplain).1 hfind).1,
    fun turn hturn => dirAt_of_turnsAt hplain hfind hturn,
    mode, (locate_of_find? hplain hfind true).2⟩

/-- A file that is spared keeps its contents. -/
theorem contents?_of_spared (hplain : w.root.Plain) (h : w.contents? p = some data)
    (hspared : Spared kept dirs w w') (hkept : kept (p.place w.cwd))
    (hdirs : ∀ turn, p.TurnsAt w.cwd turn → dirs turn) : w'.contents? p = some data := by
  obtain ⟨⟨name, hname, hends⟩, hvalid, -, mode, hthere⟩ := of_contents? hplain h
  rw [← hspared.same _ hkept, ← hspared.cwd] at hthere
  rw [← hspared.cwd] at hdirs
  refine contents?_eq_some_iff.2 ⟨mode, Eq.trans ?_ hthere⟩
  exact find?_of_endsWith hspared.plain hname hends
    (fun turn hturn => hspared.dir turn (hdirs turn hturn)) hvalid

/-- Replacing a file leaves all directories. -/
theorem dirs_of_replace (hplain : w.root.Plain) {name : String} (hname : IsName name)
    (hends : p.EndsWith name) (hdirs : ∀ place, dirs place → w.root.DirAt place)
    (hrun : Files.replace p data w = (.ok (), w')) : Spared (fun _ => False) dirs w w' := by
  have hspared : Spared (fun _ => False) dirs w (Files.replace p data w).2 :=
    spared_replace hname hends (fun _ _ _ => False.elim) (fun _ => False.elim) data w
      (.refl _ hplain hdirs)
  rwa [hrun] at hspared

/-- A file that is replaced has the new contents. -/
theorem contents?_of_replace (hplain : w.root.Plain) {old : ByteArray}
    (h : w.contents? p = some old) (hrun : Files.replace p data w = (.ok (), w')) :
    w'.contents? p = some data := by
  obtain ⟨⟨name, hname, hends⟩, hvalid, hturns, mode, hthere⟩ := of_contents? hplain h
  have hspared := dirs_of_replace hplain hname hends hturns hrun
  obtain ⟨parent, w₁, hplace, -, hsame, hcases⟩ :=
    Files.replace_cases hplain hname hends hturns data
  rw [hplace] at hthere hcases
  obtain rfl := hsame (dirAt_of_get? hthere)
  obtain ⟨fault, hfail⟩ | ⟨-, hparent, -, hdone⟩ := hcases
  · rw [hrun] at hfail
    cases hfail
  · rw [hrun] at hdone
    cases hdone
    refine contents?_eq_some_iff.2 ⟨false, ?_⟩
    rw [find?_of_endsWith hspared.plain hname hends (fun turn hturn => hspared.dir turn hturn)
      hvalid]
    exact (congrArg _ hplace).trans (get?_alter_self hplain hparent _)

end World

/-! ## Additions -/

/-- Whether the list of a project lies apart from what the addition of a stub changes besides: its
file is there, and neither that nor a place where its path turns back lies in the directory of the
stub or in those beside it that the stub comes in by and is moved aside to. Nor does the way to the
index or to a temporary directory go over the file. -/
structure Manifest.Detached (m : Manifest) (home : Path) (w : World) (name : String) : Prop where
  settled : Settled home w
  file : ∃ data, w.contents? m.path = some data
  index : ¬ m.path.place w.cwd <+: indexPlace (home.place w.cwd)
  entries : ∀ entry ∈
      [directoryName name, incomingName (directoryName name), previousName (directoryName name)],
    Aloof (· = m.path.place w.cwd) (m.path.TurnsAt w.cwd)
      (entryPlace (home.place w.cwd) entry)
  temporary : ∀ place, w.tempDir.Passes w.cwd place → ¬ m.path.place w.cwd <+: place

/-- The directories that the paths of the home and of a list turn back at. -/
def Manifest.Turns (m : Manifest) (home : Path) (cwd turn : List String) : Prop :=
  home.TurnsAt cwd turn ∨ m.path.TurnsAt cwd turn

/-- What an addition leaves of a list: its file with the name added, and the name in the list unless
it is new and holds a line feed. -/
structure Manifest.Enlists (m : Manifest) (home : Path) (name : String) (w w' : World) : Prop where
  spared : Spared (fun _ => False) (m.Turns home w.cwd) w w'
  rewritten : ∃ old new, w.contents? m.path = some old ∧ w'.contents? m.path = some new ∧
    m.Rewrites name old new
  lists : m.Lists w' name ↔ '\n' ∉ name.toList ∨ m.Lists w name

namespace Manifest

variable {home : Path}

/-- Paths that never turn back. -/
theorem Detached.of_straight (hsettled : Settled home w) (hfile : (w.contents? m.path).isSome)
    (hlist : ".." ∉ m.path.names) (htempDir : ".." ∉ w.tempDir.names)
    (hindex : ¬ m.path.place w.cwd <+: indexPlace (home.place w.cwd))
    (htemporary : ¬ m.path.place w.cwd <+: w.tempDir.place w.cwd)
    (hentries : ∀ entry ∈
      [directoryName name, incomingName (directoryName name), previousName (directoryName name)],
      ¬ m.path.place w.cwd <+: entryPlace (home.place w.cwd) entry ∧
        ¬ entryPlace (home.place w.cwd) entry <+: m.path.place w.cwd) : m.Detached home w name where
  settled := hsettled
  file := Option.isSome_iff_exists.1 hfile
  index := hindex
  entries entry hentry := by
    refine ⟨?_, fun turn hturn => absurd hturn (Path.not_turnsAt_of_not_mem hlist w.cwd turn)⟩
    rintro _ rfl
    exact hentries entry hentry
  temporary place hpasses hle := htemporary (hle.trans (hpasses.le_of_straight htempDir))

theorem Detached.dirs (h : m.Detached home w name) (turn : List String)
    (hturn : m.Turns home w.cwd turn) : w.root.DirAt turn := by
  obtain ⟨data, hdata⟩ := h.file
  obtain hturn | hturn := hturn
  · exact (h.settled.turns turn hturn).1
  · exact (of_contents? h.settled.plain hdata).2.2.1 turn hturn

theorem Detached.aloof (h : m.Detached home w name) {entry : String} (hentry : entry ∈
      [directoryName name, incomingName (directoryName name), previousName (directoryName name)]) :
    Aloof (· = m.path.place w.cwd) (m.Turns home w.cwd)
      (entryPlace (home.place w.cwd) entry) where
  kept := (h.entries entry hentry).kept
  dirs turn hturn := hturn.elim (fun hturn => (h.settled.turns turn hturn).2 entry)
    ((h.entries entry hentry).dirs turn)

theorem Detached.separate (h : m.Detached home w name) :
    Separate home (directoryName name) (· = m.path.place w.cwd) (m.Turns home w.cwd) w where
  turns := by
    rintro turn hturn _ rfl hle
    obtain ⟨data, hdata⟩ := h.file
    obtain ⟨-, -, -, mode, hthere⟩ := of_contents? h.settled.plain hdata
    exact FileAt.not_dirAt ⟨data, mode, hthere⟩ ((h.settled.turns turn hturn).1.of_below hle)
  index := by
    rintro _ rfl
    exact h.index
  entries := by
    rintro entry (rfl | rfl) <;> exact h.aloof (by simp)
  drafts := by
    rintro _ rfl
    obtain ⟨data, hdata⟩ := h.file
    obtain ⟨-, -, -, mode, hthere⟩ := of_contents? h.settled.plain hdata
    exact .inl (by rw [hthere]; exact Option.some_ne_none _)

/-- There is room for a directory to stage the stub in. -/
theorem Detached.spacious (h : m.Detached home w name) :
    Spacious (Outside (· = m.path.place w.cwd)) (Outside (· = m.path.place w.cwd))
      (Aloof (· = m.path.place w.cwd) (m.Turns home w.cwd)) "mpstubs-stage-" w := by
  refine spacious_spared (List.mem_cons_self : _ ∈ temporaryStems) ?_ h.dirs
  rintro _ rfl
  obtain ⟨data, hdata⟩ := h.file
  obtain ⟨-, -, -, mode, hthere⟩ := of_contents? h.settled.plain hdata
  exact ⟨h.temporary, .inl (by rw [hthere]; exact Option.some_ne_none _)⟩

/-- What spares the list afterwards does not matter. -/
theorem Enlists.then_spared (h : m.Enlists home name w w') {w'' : World}
    (hspared : Spared (· = m.path.place w.cwd) (m.Turns home w.cwd) w' w'') :
    m.Enlists home name w w'' := by
  obtain ⟨hfirst, ⟨old, data, hold, hdata, hrewrites⟩, hlists⟩ := h
  have hdata' := contents?_of_spared hfirst.plain hdata hspared
    (by rw [hfirst.cwd]) fun turn hturn => .inr (hfirst.cwd ▸ hturn)
  refine ⟨hfirst.trans { hspared with same := fun _ => False.elim },
    ⟨old, data, hold, hdata', hrewrites⟩, ?_⟩
  rw [lists_congr (hdata'.trans hdata.symm), hlists]

end Manifest

theorem Work.of_andFinally_eq_ok {α : Type} {a : α} {body : Work α} {cleanup : World → World}
    (h : body.andFinally cleanup site = (.ok a, site')) :
    ∃ site₁, body site = (.ok a, site₁) ∧ site' = { site₁ with world := cleanup site₁.world } := by
  cases hbody : body site with
  | mk result site₁ =>
    rw [andFinally, hbody] at h
    cases h
    exact ⟨site₁, rfl, rfl⟩

namespace Installation

variable {home : Path} {added : Added} {old new : ByteArray} {planned : Option Artifact}
variable {manifest : Option Manifest}

/-! ### Names -/

theorem name_of_install {bundle : Bundle} {record : Record}
    (h : Registry.install bundle site = (.ok record, site')) : record.name = bundle.name := by
  rw [Registry.install, bind_eq_ok_iff] at h
  obtain ⟨registry, site₁, -, h⟩ := h
  rw [bind_eq_ok_iff] at h
  obtain ⟨directory, site₂, -, h⟩ := h
  rw [bind_eq_ok_iff] at h
  obtain ⟨_, site₃, -, h⟩ := h
  rw [bind_eq_ok_iff] at h
  obtain ⟨time, site₄, -, h⟩ := h
  rw [bind_eq_ok_iff] at h
  obtain ⟨_, site₅, -, h⟩ := h
  rw [bind_eq_ok_iff] at h
  obtain ⟨registry', site₆, -, h⟩ := h
  rw [bind_eq_ok_iff] at h
  obtain ⟨_, site₇, -, h⟩ := h
  cases h
  rfl

theorem name_of_listInstalled {record : Record}
    (h : listInstalled manifest record site = (.ok added, site')) : added.record = record := by
  rw [listInstalled, bind_eq_ok_iff] at h
  obtain ⟨edit, site₁, -, h⟩ := h
  rw [bind_eq_ok_iff] at h
  obtain ⟨saved, site₂, -, h⟩ := h
  cases h
  rfl

theorem name_of_installBundle {bundle : Bundle}
    (h : installBundle Registry.store manifest bundle site = (.ok added, site')) :
    added.record.name = bundle.name := by
  rw [installBundle, bind_eq_ok_iff] at h
  obtain ⟨edit, site₁, -, h⟩ := h
  rw [bind_eq_ok_iff] at h
  obtain ⟨registry, site₂, -, h⟩ := h
  rw [bind_eq_ok_iff] at h
  obtain ⟨footprint, site₃, -, h⟩ := h
  obtain ⟨site₄, site₅, hbody⟩ := Work.exists_of_protecting_eq_ok h
  rw [bind_eq_ok_iff] at hbody
  obtain ⟨record, site₆, hinstall, hbody⟩ := hbody
  rw [bind_eq_ok_iff] at hbody
  obtain ⟨saved, site₇, -, hbody⟩ := hbody
  cases hbody
  exact name_of_install hinstall

theorem name_of_find? {registry : Registry} {record : Record}
    (h : registry.find? name = some record) : record.name = name := by
  have := List.find?_some h
  simpa using this

/-- What is added is the bundle. -/
theorem name_of_register {bundle : Bundle} {force : Bool}
    (h : register Registry.store manifest bundle force site = (.ok added, site')) :
    added.record.name = bundle.name := by
  rw [register, bind_apply, Work.registry_apply] at h
  dsimp only at h
  cases hrecord : site.registry.find? bundle.name with
  | none =>
    rw [hrecord] at h
    exact name_of_installBundle h
  | some record =>
    rw [hrecord] at h
    cases force with
    | true => exact name_of_installBundle h
    | false => rw [name_of_listInstalled h, name_of_find? hrecord]

/-! ### Cases -/

/-- An addition that succeeded has listed the stub that goes by the identifier, or it has staged
what the identifier stands for. -/
theorem add_cases {catalog : Path} {identifier : String} {force : Bool}
    (h : add Registry.store catalog manifest identifier force site = (.ok added, site')) :
    (∃ record, site.registry.find? identifier = some record ∧
      listInstalled manifest record site = (.ok added, site')) ∨
    (force = true ∨ site.registry.find? identifier = none) ∧ ∃ bundle w₁ site₂,
      Bundle.ofIdentifier catalog identifier site.world = (.ok bundle, w₁) ∧
      register Registry.store manifest bundle force { site with world := w₁ }
        = (.ok added, site₂) ∧
      site' = { site₂ with world := Bundle.discard bundle.staging site₂.world } := by
  have hstaged : (do
      let bundle ← (Bundle.ofIdentifier catalog identifier : Action Failure Bundle)
      (register Registry.store manifest bundle force).andFinally
        (Bundle.discard bundle.staging) : Work Added) site = (.ok added, site') →
      ∃ bundle w₁ site₂, Bundle.ofIdentifier catalog identifier site.world = (.ok bundle, w₁) ∧
        register Registry.store manifest bundle force { site with world := w₁ }
          = (.ok added, site₂) ∧
        site' = { site₂ with world := Bundle.discard bundle.staging site₂.world } := by
    intro h
    rw [bind_eq_ok_iff] at h
    obtain ⟨bundle, site₁, hstage, h⟩ := h
    rw [Work.liftM_apply, Prod.mk.injEq] at hstage
    obtain ⟨hok, rfl⟩ := hstage
    obtain ⟨site₂, hregister, rfl⟩ := Work.of_andFinally_eq_ok h
    exact ⟨bundle, _, site₂, Prod.ext hok rfl, hregister, rfl⟩
  rw [add, bind_apply, Work.registry_apply] at h
  dsimp only at h
  cases hrecord : site.registry.find? identifier with
  | none =>
    rw [hrecord] at h
    exact .inr ⟨.inr rfl, hstaged h⟩
  | some record =>
    rw [hrecord] at h
    cases force with
    | true => exact .inr ⟨.inl rfl, hstaged h⟩
    | false => exact .inl ⟨record, rfl, h⟩

/-! ### Lists -/

/-- A planned edit is saved. -/
theorem contents?_of_saveEdit {dirs : List String → Prop} (hplain : site.world.root.Plain)
    (hdirs : ∀ place, dirs place → site.world.root.DirAt place)
    (hold : site.world.contents? m.path = some old) (hnone : planned = none → new = old)
    (hsome : ∀ artifact ∈ planned, artifact.text.toUTF8 = new) {saved : Bool}
    (hrun : Work.saveEdit (planned.map (·, m.path)) site = (.ok saved, site')) :
    site'.world.contents? m.path = some new ∧
      Spared (fun _ => False) dirs site.world site'.world := by
  cases planned with
  | none =>
    cases hrun
    rw [hnone rfl]
    exact ⟨hold, .refl _ hplain hdirs⟩
  | some artifact =>
    rw [Option.map_some, Work.saveEdit, bind_eq_ok_iff] at hrun
    obtain ⟨⟨⟩, site₁, hstep, hrun⟩ := hrun
    cases hrun
    rw [Work.liftM_apply, Prod.mk.injEq] at hstep
    obtain ⟨hok, rfl⟩ := hstep
    have hsave : Files.replace m.path new site.world
        = (.ok (), (artifact.save m.path site.world).2) := by
      rw [← hsome artifact rfl]
      exact of_adapt_eq_ok (Prod.ext hok rfl)
    obtain ⟨⟨name, hname, hends⟩, -⟩ := of_contents? hplain hold
    exact ⟨contents?_of_replace hplain hold hsave, dirs_of_replace hplain hname hends hdirs hsave⟩

/-- A plan that was made changes nothing. -/
theorem of_planEdit_eq_ok {edit : Option (Artifact × Path)}
    (h : Work.planEdit (some m) (.adding [name]) site = (.ok edit, site')) :
    site' = site ∧ ∃ planned, edit = planned.map (·, m.path) ∧
      m.plan (.adding [name]) site.world = (.ok planned, site.world) := by
  rw [Work.planEdit, bind_eq_ok_iff] at h
  obtain ⟨planned, site₁, hstep, h⟩ := h
  cases h
  rw [Work.liftM_apply, Prod.mk.injEq] at hstep
  obtain ⟨hok, rfl⟩ := hstep
  have hplan : m.plan (.adding [name]) site.world
      = (.ok planned, (m.plan (.adding [name]) site.world).2) := Prod.ext hok rfl
  obtain ⟨hsame, -⟩ := Manifest.of_plan_adding hplan
  rw [hsame] at hplan ⊢
  exact ⟨rfl, planned, rfl, hplan⟩

/-- A stub that is installed already is listed. -/
theorem enlists_listInstalled {record : Record}
    (hrun : listInstalled (some m) record site = (.ok added, site'))
    (h : m.Detached home w record.name)
    (hw : Spared (· = m.path.place w.cwd) (m.Turns home w.cwd) w site.world) :
    m.Enlists home record.name w site'.world := by
  rw [listInstalled, bind_eq_ok_iff] at hrun
  obtain ⟨edit, site₁, hplan, hrun⟩ := hrun
  obtain ⟨rfl, planned, rfl, hplanned⟩ := of_planEdit_eq_ok hplan
  obtain ⟨-, old, new, hold, hnone, hsome, hrewrites⟩ := Manifest.of_plan_adding hplanned
  rw [bind_eq_ok_iff] at hrun
  obtain ⟨saved, site₂, hsave, hrun⟩ := hrun
  cases hrun
  obtain ⟨hnew, hspared⟩ := contents?_of_saveEdit hw.plain hw.dir hold hnone hsome hsave
  obtain ⟨data, hdata⟩ := h.file
  have hsame := contents?_of_spared h.settled.plain hdata hw rfl fun _ => .inr
  have hold' := hdata.trans (hsame.symm.trans hold)
  exact ⟨{ hw with same := fun _ => False.elim }.trans hspared, ⟨old, new, hold', hnew, hrewrites⟩,
    hrewrites.lists_iff hold' hnew⟩

/-- A bundle is installed and listed. -/
theorem enlists_installBundle {bundle : Bundle}
    (hrun : installBundle Registry.store (some m) bundle site = (.ok added, site'))
    (h : m.Detached site.registry.home w bundle.name)
    (hw : Spared (· = m.path.place w.cwd) (m.Turns site.registry.home w.cwd) w site.world) :
    m.Enlists site.registry.home bundle.name w site'.world := by
  rw [installBundle, bind_eq_ok_iff] at hrun
  obtain ⟨edit, site₁, hplan, hrun⟩ := hrun
  obtain ⟨rfl, planned, rfl, hplanned⟩ := of_planEdit_eq_ok hplan
  obtain ⟨-, old, new, hold, hnone, hsome, hrewrites⟩ := Manifest.of_plan_adding hplanned
  rw [bind_apply, Work.registry_apply] at hrun
  dsimp only at hrun
  rw [bind_apply, ofExcept_apply] at hrun
  cases hfootprint : site₁.registry.footprint bundle.name with
  | error failure =>
    rw [hfootprint] at hrun
    cases hrun
  | ok footprint =>
    rw [hfootprint] at hrun
    obtain ⟨hname, hfiles, hdirectory⟩ := Registry.footprint_eq_ok hfootprint
    have hmovable : ∀ p, .directory p ∈
        footprint.targets ((planned.map (·, m.path)).map (·.2)) →
        Movable (Aloof (· = m.path.place w.cwd) (m.Turns site₁.registry.home w.cwd)) w.cwd p := by
      intro p hp
      obtain rfl : p = footprint.directory := by simpa [Footprint.targets] using hp
      rw [hdirectory, Movable, place_stubPath _ hname, place_of_under (preservedPath_stub _ hname)]
      exact ⟨h.aloof (by simp), h.aloof (by simp)⟩
    obtain ⟨t, w₁, site₂, ht, hw₁, hbody, rfl⟩ :=
      Work.of_protecting_eq_ok (enduring_spared _ _ w) hmovable hw hrun
    rw [bind_eq_ok_iff] at hbody
    obtain ⟨record, site₃, hinstall, hbody⟩ := hbody
    have hw₃ := (((store_stepwise.install bundle).spares h.separate)
      { site₁ with world := w₁ } ⟨rfl, hw₁⟩).world
    rw [hinstall] at hw₃
    rw [bind_eq_ok_iff] at hbody
    obtain ⟨saved, site₄, hsave, hbody⟩ := hbody
    cases hbody
    -- The list is what it was until it is saved, and then what was planned.
    obtain ⟨data, hdata⟩ := h.file
    have hbefore := contents?_of_spared h.settled.plain hdata hw rfl fun _ => .inr
    have hold₃ := contents?_of_spared h.settled.plain hdata hw₃ rfl fun _ => .inr
    rw [hold, Option.some.injEq] at hbefore
    rw [← hbefore] at hold₃
    obtain ⟨hnew, hspared⟩ := contents?_of_saveEdit hw₃.plain hw₃.dir hold₃ hnone hsome hsave
    have hold' := hbefore ▸ hdata
    have hsaved : m.Enlists site₁.registry.home bundle.name w site₂.world :=
      ⟨{ hw₃ with same := fun _ => False.elim }.trans hspared, ⟨old, new, hold', hnew, hrewrites⟩,
        hrewrites.lists_iff hold' hnew⟩
    refine hsaved.then_spared ?_
    have hcwd := hsaved.spared.cwd
    rw [← hcwd] at hmovable ⊢
    exact ht.commit (enduring_spared _ _ site₂.world) hmovable
      (.refl _ hspared.plain fun turn hturn => hspared.dir turn (hcwd ▸ hturn))

/-- A bundle is added. -/
theorem enlists_register {bundle : Bundle} {force : Bool}
    (hrun : register Registry.store (some m) bundle force site = (.ok added, site'))
    (h : m.Detached site.registry.home w bundle.name)
    (hw : Spared (· = m.path.place w.cwd) (m.Turns site.registry.home w.cwd) w site.world) :
    m.Enlists site.registry.home bundle.name w site'.world := by
  rw [register, bind_apply, Work.registry_apply] at hrun
  dsimp only at hrun
  cases hrecord : site.registry.find? bundle.name with
  | none =>
    rw [hrecord] at hrun
    exact enlists_installBundle hrun h hw
  | some record =>
    rw [hrecord] at hrun
    cases force with
    | true => exact enlists_installBundle hrun h hw
    | false =>
      rw [← name_of_find? hrecord] at h ⊢
      exact enlists_listInstalled hrun h hw

/-- A stub is staged, added and removed from where it was staged. -/
theorem enlists_add {catalog : Path} {identifier : String} {force : Bool}
    (hrun : add Registry.store catalog (some m) identifier force site = (.ok added, site'))
    (h : m.Detached site.registry.home site.world added.record.name) :
    m.Enlists site.registry.home added.record.name site.world site'.world := by
  have hw : Spared (· = m.path.place site.world.cwd)
      (m.Turns site.registry.home site.world.cwd) site.world site.world :=
    .refl _ h.settled.plain h.dirs
  obtain ⟨record, -, hinstalled⟩ | ⟨-, bundle, w₁, site₂, hstage, hregister, rfl⟩ :=
    add_cases hrun
  · rw [name_of_listInstalled hinstalled] at h ⊢
    exact enlists_listInstalled hinstalled h hw
  · obtain ⟨result, w₂, hstaged, hw₁, hroom⟩ := Bundle.ofIdentifier_spacious
      (enduring_spared _ _ site.world) hw h.spacious catalog identifier
    rw [hstage] at hstaged
    cases hstaged
    have hname := name_of_register hregister
    rw [hname] at h ⊢
    have henlists := enlists_register hregister h hw₁
    have hcwd := henlists.spared.cwd
    have hloose := (hroom bundle rfl).room.loose
    refine henlists.then_spared ?_
    rw [← hcwd] at hloose ⊢
    exact (enduring_spared _ _ site₂.world).keeps_removeTree hloose _
      (.refl _ henlists.spared.plain fun turn hturn => henlists.spared.dir turn (hcwd ▸ hturn))

/-! ## What can be added -/

/-- What can be added: the stub that goes by a name or lies in a directory, or a bundle that is
staged. -/
inductive Addition where
  | named (catalog : Path) (identifier : String)
  | staged (bundle : Bundle)

/-- Adds a stub to a registry and to the list of a project. -/
def Addition.run (m : Manifest) (force : Bool) : Addition → Work Added
  | named catalog identifier => add Registry.store catalog (some m) identifier force
  | staged bundle => register Registry.store (some m) bundle force

theorem enlists_run (addition : Addition) {force : Bool}
    (hrun : addition.run m force site = (.ok added, site'))
    (h : m.Detached site.registry.home site.world added.record.name) :
    m.Enlists site.registry.home added.record.name site.world site'.world := by
  cases addition with
  | named catalog identifier => exact enlists_add hrun h
  | staged bundle =>
    have hname := name_of_register hrun
    rw [hname] at h ⊢
    exact enlists_register hrun h (.refl _ h.settled.plain h.dirs)

/-- After an addition that succeeds the list can be read and holds the name of the stub, exactly if
the name holds no line feed or was listed before. -/
theorem lists_run_iff (addition : Addition) {force : Bool}
    (hrun : addition.run m force site = (.ok added, site'))
    (h : m.Detached site.registry.home site.world added.record.name) :
    m.Lists site'.world added.record.name ↔
      '\n' ∉ added.record.name.toList ∨ m.Lists site.world added.record.name :=
  (enlists_run addition hrun h).lists

theorem lists_run_of_replacement :
    ((Addition.staged smallBundle).run (manifestAt "list.py") true
        (smallSite "home" "stubs = []\n")).1.map (·.record.name) = .ok "x" ∧
      (manifestAt "list.py").Lists ((Addition.staged smallBundle).run (manifestAt "list.py") true
        (smallSite "home" "stubs = []\n")).2.world "x" := by
  have hname : ((Addition.staged smallBundle).run (manifestAt "list.py") true
      (smallSite "home" "stubs = []\n")).1.map (·.record.name) = .ok "x" := by decide +kernel
  refine ⟨hname, ?_⟩
  cases hrun : (Addition.staged smallBundle).run (manifestAt "list.py") true
    (smallSite "home" "stubs = []\n") with
  | mk result site' =>
    rw [hrun] at hname
    cases result with
    | error failure => cases hname
    | ok added =>
      have hname : added.record.name = "x" := Except.ok.inj hname
      rw [← hname]
      refine (lists_run_iff _ hrun ?_).2 (.inl ?_)
      · rw [hname]
        exact .of_straight (.of_straight (smallSite_plain _ _) (by decide +kernel) ⟨_, rfl⟩)
          (by decide +kernel) (by decide +kernel) (by decide +kernel) (by decide +kernel)
          (by decide +kernel) (by decide +kernel)
      · rw [hname]
        decide

/-- A list in the directory of a stub. -/
def innerSite : Site :=
  { smallSite "home" "" with
    world := (smallSite "home" "").world.put ["home", "stubs", "x", "list.py"]
      (.file "stubs = ['x']\n".toUTF8 false) }

/-- Additions that succeed can leave a list that cannot be read: of a stub whose name holds a line
feed, and of a list in the directory of a stub that is replaced. -/
theorem not_lists_of_break :
    (Bundle.isValidName "a\nb" ∧
      ((Addition.staged { smallBundle with name := "a\nb" }).run (manifestAt "list.py") false
        (smallSite "home" "stubs = []\n")).1.map (·.record.name) = .ok "a\nb" ∧
      ¬ (manifestAt "list.py").Lists
        ((Addition.staged { smallBundle with name := "a\nb" }).run (manifestAt "list.py") false
          (smallSite "home" "stubs = []\n")).2.world "a\nb") ∧
    (Bundle.isValidName "x" ∧
      ((Addition.staged smallBundle).run (manifestAt "home/stubs/x/list.py") true
        innerSite).1.map (·.record.name) = .ok "x" ∧
      ¬ (manifestAt "home/stubs/x/list.py").Lists
        ((Addition.staged smallBundle).run (manifestAt "home/stubs/x/list.py") true
          innerSite).2.world "x") := by
  decide +kernel

end Installation

end StubManager
