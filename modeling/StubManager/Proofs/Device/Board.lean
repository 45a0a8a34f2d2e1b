import StubManager.Proofs.Device.Recording
import StubManager.Proofs.FileTree.Overlooking

/-!
# Devices that go by what they are sent

What a `Board` does depends on the contents of the script files it is sent, not on where these lie,
and what it copies it stores in the directory it is given (`Board.transport`). So it overlooks every
other file: main statement `Board.overlooks_conduct`.
-/

namespace StubManager

open Node Running World Files

/-- What comes of copying a directory of a device into a local one. -/
structure Haul where
  /-- What the local directory holds afterwards. -/
  entries : List (String × Node)
  plain : (Node.directory entries).Plain
  /-- The names that lead from the local directory to the copy, or why there is none. -/
  answer : Except Failure (List String)
  named : ∀ names, answer = .ok names → ∀ name ∈ names, IsName name

/-- How a device behaves on its ports, by what it is sent. -/
structure Board (δ : Type) where
  connect : (port : String) → δ → Except Failure Unit × δ
  /-- What running a script of the given contents comes to; without contents it cannot be read. -/
  runScript : (port : String) → (contents : Option ByteArray) → δ → Except Failure Unit × δ
  /-- What copying comes to into a directory that holds the given entries. -/
  copyFrom : (port remote : String) → (held : List (String × Node)) → δ → Haul × δ
  disconnect : (port : String) → δ → Except Failure Unit × δ

variable {δ : Type}

namespace Board

/-- A step that only the device has to do with. -/
def step {α : Type} (action : δ → Except Failure α × δ) : LinkAction δ α := fun link =>
  let (result, device) := action link.device
  (result, { link with device })

/-- Stores what is copied in a directory that is there. -/
def store (board : Board δ) (port remote : String) (directory : Path) : LinkAction δ Path :=
  fun link =>
    match link.world.locate true directory with
    | .ok (.node place) =>
      let held := (link.world.root.get? place).elim [] Node.entries
      let (haul, device) := board.copyFrom port remote held link.device
      (haul.answer.map (·.foldl Path.join directory),
        { world := link.world.put place (.directory haul.entries), device })
    | _ => (.error (.fileSystem FileFault.notFound.message), link)

/-- Talks to a board. -/
def transport (board : Board δ) : Transport δ where
  connect port := step (board.connect port)
  runScript port script := fun link =>
    step (board.runScript port (Files.read script link.world).1.toOption) link
  copyFrom port remote directory := do
    LinkAction.onWorld (Files.stopping (Files.makeDirectories directory))
    board.store port remote directory
  disconnect port := step (board.disconnect port)

/-- Talks to a board, sending the same whatever the script is. -/
def sending (board : Board δ) (contents : Option ByteArray) : Transport δ :=
  { board.transport with runScript := fun port _ => step (board.runScript port contents) }

/-- A board that remembers what it was sent. -/
def heard (board : Board δ) : Board (δ × List (Option ByteArray)) where
  connect port := fun (device, sent) =>
    let (result, device) := board.connect port device
    (result, (device, sent))
  runScript port contents := fun (device, sent) =>
    let (result, device) := board.runScript port contents device
    (result, (device, sent ++ [contents]))
  copyFrom port remote held := fun (device, sent) =>
    let (haul, device) := board.copyFrom port remote held device
    (haul, (device, sent))
  disconnect port := fun (device, sent) =>
    let (result, device) := board.disconnect port device
    (result, (device, sent))

/-- A copy lies in the directory that was to be copied into. -/
theorem of_copyFrom_eq_ok {board : Board δ} {port remote : String} {directory copy : Path}
    {link link' : Link δ}
    (hrun : board.transport.copyFrom port remote directory link = (.ok copy, link')) :
    ∃ names : List String, (∀ name ∈ names, IsName name) ∧
      copy = names.foldl Path.join directory := by
  change (LinkAction.onWorld (Files.stopping (Files.makeDirectories directory)) >>= fun _ =>
    board.store port remote directory) link = _ at hrun
  rw [bind_eq_ok_iff] at hrun
  obtain ⟨_, link₁, -, hstore⟩ := hrun
  rw [store] at hstore
  split at hstore
  · next place _ =>
    have hresult : (board.copyFrom port remote ((link₁.world.root.get? place).elim [] Node.entries)
        link₁.device).1.answer.map (·.foldl Path.join directory) = .ok copy :=
      congrArg Prod.fst hstore
    generalize (board.copyFrom port remote _ _).1 = haul at hresult
    cases hanswer : haul.answer with
    | error failure =>
      rw [hanswer] at hresult
      cases hresult
    | ok names =>
      rw [hanswer] at hresult
      cases hresult
      exact ⟨names, haul.named names hanswer, rfl⟩
  · cases hstore

/-- Copying sends nothing. -/
theorem heard_copyFrom (board : Board δ) (port remote : String) (directory : Path)
    (link : Link (δ × List (Option ByteArray))) :
    (board.heard.transport.copyFrom port remote directory link).2.device.2 = link.device.2 := by
  have hmake : Keeps (fun now : Link (δ × List (Option ByteArray)) => now.device.2 = link.device.2)
      (LinkAction.onWorld (Files.stopping (Files.makeDirectories directory))) := fun _ hnow => hnow
  have hstore : Keeps (fun now : Link (δ × List (Option ByteArray)) => now.device.2 = link.device.2)
      (board.heard.store port remote directory) := by
    intro now hnow
    rw [store]
    split <;> exact hnow
  exact hmake.bind (fun _ _ _ _ => hstore) link rfl

/-! ## What a board keeps -/

section

variable {I : World → Prop} {cwd : List String} {idle free loose : List String → Prop}

theorem keeps_store (board : Board δ) (h : Enduring I cwd idle free loose) {directory : Path}
    (hdirectory : loose (directory.place cwd)) (port remote : String) :
    Keeps (fun link : Link δ => I link.world) (board.store port remote directory) := by
  intro link hlink
  rw [store]
  split
  · next place hlocate =>
    have hplain := h.plain _ hlink
    obtain ⟨rfl, -, -, hthere⟩ := (locate_eq_node_iff hplain).1 hlocate
    rw [h.cwd _ hlink] at hthere ⊢
    refine h.put _ _ _ hlink hdirectory (fun name hname => ?_) (Haul.plain _)
    obtain ⟨parent, hparent⟩ := List.getLast?_eq_some_iff.1 hname
    rw [hparent] at hthere
    obtain ⟨node, hnode⟩ := Option.isSome_iff_exists.1 hthere
    exact hplain.isName hnode
  · exact hlink

/-- A board keeps whatever leaves the directories alone that it copies into. -/
theorem sustains (board : Board δ) (h : Enduring I cwd idle free loose) :
    board.transport.Sustains I (Workspace idle free loose cwd) where
  connect _ _ hlink := hlink
  runScript _ _ _ hlink := hlink
  copyFrom port remote directory hdirectory := by
    have hmake : Keeps (fun link : Link δ => I link.world)
        (LinkAction.onWorld (Files.stopping (Files.makeDirectories directory))) :=
      fun link hlink => h.keeps_makeDirectories hdirectory.way link.world hlink
    exact hmake.bind fun _ _ _ _ => board.keeps_store h hdirectory.room.loose port remote
  disconnect _ _ hlink := hlink

end

/-! ## Files that a board overlooks -/

section

variable {place : List String} {dirs : List String → Prop} {w₀ : World}

/-- Whether a step of a transport overlooks the file at a place on the way from a world. -/
def Overlooks {α : Type} (place : List String) (dirs : List String → Prop) (w₀ : World)
    (action : LinkAction δ α) : Prop :=
  Commutes (fun link : Link δ => Spared (· = place) dirs w₀ link.world)
    (fun link => { link with world := link.world.erase place }) action

theorem overlooks_step {α : Type} (action : δ → Except Failure α × δ) :
    Overlooks place dirs w₀ (step action) := fun _ hlink => ⟨hlink, rfl⟩

theorem overlooks_store (board : Board δ) {directory : Path}
    (hdirectory : Clear place w₀.cwd directory)
    (haloof : Aloof (· = place) dirs (directory.place w₀.cwd)) (port remote : String) :
    Overlooks place dirs w₀ (board.store port remote directory) := by
  intro link hlink
  refine ⟨board.keeps_store (enduring_spared _ dirs w₀) haloof port remote link hlink, ?_⟩
  obtain ⟨havoids, habove⟩ := hdirectory
  rw [← hlink.cwd] at havoids habove
  rw [store, store]
  dsimp only
  rw [locate_erase hlink.plain havoids]
  cases hlocate : link.world.locate true directory with
  | error fault => rfl
  | ok found =>
    cases found with
    | vacant parent name asDirectory => rfl
    | node names =>
      obtain ⟨rfl, -⟩ := (locate_eq_node_iff hlink.plain).1 hlocate
      have hsame : (link.world.erase place).root.get? (directory.place link.world.cwd)
          = link.world.root.get? (directory.place link.world.cwd) :=
        get?_alter_of_disjoint _ link.world.root havoids.not_le habove
      dsimp only
      rw [hsame]
      refine congrArg (Prod.mk _) (congrArg (Link.mk · _) ?_)
      exact erase_alter hlink.plain _ havoids.not_le habove

theorem overlooks_onWorld {α : Type} {action : Action Failure α}
    (h : Files.Overlooks place dirs w₀ action) :
    Overlooks place dirs w₀ (LinkAction.onWorld action : LinkAction δ α) := by
  intro link hlink
  obtain ⟨hkept, hsame⟩ := h link.world hlink
  refine ⟨hkept, ?_⟩
  dsimp only [LinkAction.onWorld]
  rw [hsame]
  rfl

/-- A board copies the same beside a file. -/
theorem overlooks_copyFrom (board : Board δ) (hfile : w₀.root.FileAt place) {directory : Path}
    (hdirectory : Clear place w₀.cwd directory)
    (haloof : Aloof (· = place) dirs (directory.place w₀.cwd)) (port remote : String) :
    Overlooks place dirs w₀ (board.transport.copyFrom port remote directory) := by
  have hmake : Files.Overlooks place dirs w₀ (Files.stopping (Files.makeDirectories directory)) :=
    (overlooks_makeDirectories hfile hdirectory.avoids).adapt _
  exact (overlooks_onWorld hmake).bind fun _ _ _ _ =>
    board.overlooks_store hdirectory haloof port remote

/-- A conversation overlooks a file beside the directory that is copied into. -/
theorem overlooks_conduct (board : Board δ) (contents : Option ByteArray)
    (hfile : w₀.root.FileAt place) {workdir : Path}
    (hclear : Clear place w₀.cwd (workdir.join "device"))
    (haloof : Aloof (· = place) dirs ((workdir.join "device").place w₀.cwd)) (port : String)
    (script : Path) :
    Overlooks place dirs w₀ (Session.conduct (board.sending contents)
      { port, held := true, state := .connected }
      (Extraction.generate (board.sending contents) script workdir)) := by
  have hrun : Overlooks place dirs w₀ ((board.sending contents).runScript port script) :=
    overlooks_step _
  have hcopy : Overlooks place dirs w₀ ((board.sending contents).copyFrom port
      Extraction.deviceDirectory (workdir.join "device")) :=
    board.overlooks_copyFrom hfile hclear haloof port _
  have hleave : Overlooks place dirs w₀ ((board.sending contents).disconnect port) :=
    overlooks_step _
  intro link hlink
  obtain ⟨hlink₁, hsame₁⟩ := hrun link hlink
  dsimp only at hsame₁ ⊢
  rw [Extraction.conduct_generate, Extraction.conduct_generate, hsame₁]
  generalize (board.sending contents).runScript port script link = step at hlink₁
  obtain ⟨failure | _, link₁⟩ := step
  · obtain ⟨hlink₂, hsame₂⟩ := hleave link₁ hlink₁
    refine ⟨hlink₂, ?_⟩
    dsimp only at hsame₂ ⊢
    rw [hsame₂]
  obtain ⟨hlink₂, hsame₂⟩ := hcopy link₁ hlink₁
  dsimp only at hsame₂ ⊢
  rw [hsame₂]
  generalize (board.sending contents).copyFrom port Extraction.deviceDirectory
    (workdir.join "device") link₁ = step at hlink₂
  obtain ⟨failure | copy, link₂⟩ := step
  all_goals
    obtain ⟨hlink₃, hsame₃⟩ := hleave link₂ hlink₂
    refine ⟨hlink₃, ?_⟩
    dsimp only at hsame₃ ⊢
    rw [hsame₃]

theorem clear_of_conduct {board : Board δ} {contents : Option ByteArray} {workdir directory : Path}
    (hclear : Clear place w₀.cwd (workdir.join "device")) {port : String} {script : Path}
    {link link' : Link δ}
    (hrun : Session.conduct (board.sending contents) { port, held := true, state := .connected }
      (Extraction.generate (board.sending contents) script workdir) link = (.ok directory, link')) :
    Clear place w₀.cwd directory := by
  rw [Extraction.conduct_generate] at hrun
  split at hrun
  · cases hrun
  split at hrun
  · cases hrun
  · next copy link₂ hcopy =>
    obtain ⟨names, hnames, rfl⟩ := of_copyFrom_eq_ok hcopy
    have hsame : directory = names.foldl Path.join (workdir.join "device") := by
      have hresult := congrArg Prod.fst hrun
      dsimp only at hresult
      generalize ((board.sending contents).disconnect port link₂).1 = left at hresult
      cases left <;> cases hresult
      rfl
    rw [hsame]
    exact hclear.foldl_join hnames

end

end Board

end StubManager
