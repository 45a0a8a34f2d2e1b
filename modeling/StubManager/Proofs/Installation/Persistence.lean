import Mathlib.Data.List.Nodup
import StubManager.Proofs.Installation.Requests

/-!
# Records that persist

A registry on disk is an ordered map from names to records. Requests that are carried out one after
the other, each on the registry opened anew, leave exactly the records there that their answers tell
of (`load_carryOutAll`): a registration replaces the record of its name in its place or comes last,
a removal takes one record out, and nothing else changes them.
-/

namespace StubManager

open Node World Registry Running Installation

namespace Registry

variable {registry : Registry} {records : List Record}

/-! ## An ordered map of records -/

/-- The records after an effect, where no two have the same name. -/
def Effect.apply (records : List Record) : Effect → List Record
  | registered record =>
    if record.name ∈ records.map (·.name) then
      records.map fun other => if other.name = record.name then record else other
    else records ++ [record]
  | removed name => records.filter (·.name ≠ name)
  | nothing => records

theorem replaceFirst_eq {record : Record} (hnames : (records.map (·.name)).Nodup) :
    upsert.replaceFirst record records
      = records.map fun other => if other.name = record.name then record else other := by
  induction records with
  | nil => rfl
  | cons other records ih =>
    rw [List.map_cons, List.nodup_cons] at hnames
    rw [upsert.replaceFirst, List.map_cons]
    split
    · next heq =>
      -- no other record has the name
      have hrest : ∀ more ∈ records, more.name ≠ record.name := fun more hmore hmore' =>
        hnames.1 (heq ▸ hmore' ▸ List.mem_map_of_mem hmore)
      rw [List.map_congr_left fun more hmore => if_neg (hrest more hmore), List.map_id']
    · rw [ih hnames.2]

theorem eraseP_eq (name : String) (hnames : (records.map (·.name)).Nodup) :
    records.eraseP (·.name = name) = records.filter (·.name ≠ name) := by
  induction records with
  | nil => rfl
  | cons other records ih =>
    rw [List.map_cons, List.nodup_cons] at hnames
    by_cases heq : other.name = name
    · have hrest : ∀ more ∈ records, more.name ≠ name := fun more hmore hmore' =>
        hnames.1 (heq ▸ hmore' ▸ List.mem_map_of_mem hmore)
      rw [List.eraseP_cons_of_pos (by simpa using heq),
        List.filter_cons_of_neg (by simpa using heq), List.filter_eq_self.2 (by simpa using hrest)]
    · rw [List.eraseP_cons_of_neg (by simpa using heq),
        List.filter_cons_of_pos (by simpa using heq), ih hnames.2]

/-- The registry in hand changes as the ordered map does. -/
theorem Effect.on_records (effect : Effect) (hnames : (registry.records.map (·.name)).Nodup) :
    (effect.on registry).records = effect.apply registry.records := by
  cases effect with
  | registered record =>
    have hany : registry.records.any (·.name = record.name)
        ↔ record.name ∈ registry.records.map (·.name) := by
      simp
    rw [Effect.on, Effect.apply, upsert]
    by_cases hmem : record.name ∈ registry.records.map (·.name)
    · rw [if_pos (hany.2 hmem), if_pos hmem, replaceFirst_eq hnames]
    · rw [if_neg (mt hany.1 hmem), if_neg hmem]
  | removed name => exact eraseP_eq name hnames
  | nothing => rfl

/-- Names stay distinct. -/
theorem Effect.nodup_apply (effect : Effect) (hnames : (records.map (·.name)).Nodup) :
    ((effect.apply records).map (·.name)).Nodup := by
  cases effect with
  | registered record =>
    rw [Effect.apply]
    split
    · have hsame : (records.map fun other =>
          if other.name = record.name then record else other).map (·.name)
            = records.map (·.name) := by
        rw [List.map_map]
        refine List.map_congr_left fun other _ => ?_
        simp only [Function.comp_apply]
        split
        · next heq => exact heq.symm
        · rfl
      rwa [hsame]
    · next hmem =>
      rw [List.map_append]
      exact List.Nodup.append hnames (List.nodup_singleton _) (by simpa using hmem)
  | removed name => exact hnames.sublist (List.filter_sublist.map _)
  | nothing => exact hnames

end Registry

/-! ## Requests one after the other -/

namespace Request

/-- Carries out a request on the registry opened anew. -/
def carryOut (home : Path) (request : Request) : Action Failure Effect := do
  let registry ← Registry.load home
  fun world =>
    let (result, site) := request.perform { world, registry }
    (result, site.world)

/-- Carries out requests one after the other: their answers, and the world after them. -/
def carryOutAll (home : Path) : List Request → World → List (Except Failure Effect) × World
  | [], w => ([], w)
  | request :: more, w =>
    let (result, w') := request.carryOut home w
    let (results, w'') := carryOutAll home more w'
    (result :: results, w'')

/-- Whether an answer tells of a change. -/
def changes : Except Failure Effect → Bool
  | .error _ | .ok .nothing => false
  | .ok _ => true

theorem changes_ok {effect : Effect} (heffect : effect ≠ .nothing) :
    changes (.ok effect) = true := by
  cases effect with
  | registered record => rfl
  | removed name => rfl
  | nothing => exact absurd rfl heffect

/-- The records after an answer. Failures change nothing. -/
def recordedBy (records : List Record) : Except Failure Effect → List Record
  | .ok effect => effect.apply records
  | .error _ => records

/-- The lists of records that are written on the way to the given answers. -/
def written (records : List Record) : List (Except Failure Effect) → List (List Record)
  | [] => []
  | result :: more =>
    let records' := recordedBy records result
    if changes result then records' :: written records' more else written records' more

variable {home : Path} {w : World} {records : List Record} {request : Request}

theorem written_cons (result : Except Failure Effect) (more : List (Except Failure Effect)) :
    written records (result :: more)
      = written records [result] ++ written (recordedBy records result) more := by
  dsimp only [written]
  split <;> rfl

theorem nodup_recordedBy (result : Except Failure Effect)
    (hnames : (records.map (·.name)).Nodup) : ((recordedBy records result).map (·.name)).Nodup := by
  cases result with
  | error failure => exact hnames
  | ok effect => exact effect.nodup_apply hnames

/-- What one request does to the records on disk. -/
theorem load_carryOut (hload : (Registry.load home w).1 = .ok { home, records })
    (hnames : (records.map (·.name)).Nodup) (hsettled : Settled home w)
    (hproper : request.Proper home w.cwd) :
    ∃ result w', request.carryOut home w = (result, w') ∧ Remains home w w' ∧
      ((∀ known ∈ written records [result], Index.parse? (Index.render known) = some known) →
        (Registry.load home w').1 = .ok { home, records := recordedBy records result }) := by
  have hrun : Registry.load home w = (.ok { home, records }, w) := by
    rw [load_apply] at hload ⊢
    rw [show ofContents? _ _ = _ from hload]
  -- The request starts with the records that were loaded, whatever was in hand before.
  have hends : Ends id { world := w, registry := { home, records } }
      (request.perform { world := w, registry := { home, records } }) :=
    ends_perform hsettled hproper
  rw [carryOut, bind_apply, hrun]
  dsimp only
  generalize request.perform { world := w, registry := { home, records } } = ended at hends
  cases hends with
  | failed failure site' hhand hkept =>
    exact ⟨_, _, rfl, hkept.toRemains, fun _ => (hsettled.load_kept hkept).trans hload⟩
  | unchanged effect w' hnothing hkept =>
    refine ⟨_, _, rfl, hkept.toRemains, fun _ => (hsettled.load_kept hkept).trans ?_⟩
    rw [hload, show effect = .nothing from hnothing]
    rfl
  | saved effect site' heffect hregistry hremains hsaved =>
    refine ⟨_, _, rfl, hremains, fun hread => ?_⟩
    have hregistry' : site'.registry = { home, records := effect.apply records } := by
      have hrecords : (effect.on { home, records }).records = effect.apply records :=
        effect.on_records hnames
      have hhome : (effect.on { home, records }).home = home := effect.on_home _
      rw [show site'.registry = effect.on { home, records } from hregistry, ← hrecords]
      exact congrArg (Registry.mk · _) hhome
    have hwritten : effect.apply records ∈ written records [.ok effect] := by
      dsimp only [written]
      rw [if_pos (changes_ok (show effect ≠ .nothing from heffect))]
      exact List.mem_singleton.2 rfl
    have hloaded := hsaved.load
    rw [hregistry'] at hloaded
    exact congrArg Prod.fst (hloaded (hread _ hwritten))

/-! ## A small registry -/

/-- The start of a year. -/
def newYear (year : Nat) : Timestamp :=
  { year, month := 1, day := 1, hour := 0, minute := 0, second := 0, nanosecond := 0 }

/-- A home with the given records, a list beside it, and a copy of the stub `x`. -/
def smallWorld (records : List Record) : World where
  root := .directory [
    ("home", .directory [
      ("registry.yaml", .file (Index.render records).toUTF8 false),
      ("stubs", .directory [("x", .directory [])])]),
    ("list.py", .file "stubs = []\n".toUTF8 false),
    ("staging", .directory [("stub", .directory [
      ("modules.json",
        .file "\x7b\"name\": \"x\", \"firmware\": \x7b\"name\": \"m\"\x7d\x7d".toUTF8 false)])]),
    ("tmp", .directory [])]
  cwd := []
  tempDir := ⟨"tmp"⟩
  clock := newYear 2025

theorem smallWorld_plain (records : List Record) : (smallWorld records).root.Plain := by
  have hhome : (directory [("registry.yaml", .file (Index.render records).toUTF8 false),
      ("stubs", .directory [("x", .directory [])])]).Plain := by
    refine plain_directory_iff.2 ⟨?_, (by decide : ["registry.yaml", "stubs"].Pairwise (· < ·))⟩
    rw [List.forall_mem_cons, List.forall_mem_singleton]
    exact ⟨⟨(by decide +kernel : IsName "registry.yaml"), plain_file _ _⟩,
      by simp [plain_directory_iff, IsName]⟩
  refine plain_directory_iff.2
    ⟨?_, (by decide : ["home", "list.py", "staging", "tmp"].Pairwise (· < ·))⟩
  rw [List.forall_mem_cons]
  exact ⟨⟨(by decide +kernel : IsName "home"), hhome⟩,
    by simp [plain_directory_iff, plain_file, IsName]⟩

/-- A record under the given name. -/
def oldRecord (name : String) : Record :=
  { name, firmware := "f", source := "s", installed := newYear 2024 }

/-- The record of the copy of the stub `x`. -/
def newRecord : Record :=
  { name := "x", firmware := "firmware", source := "catalog", installed := newYear 2025 }

/-- Puts the copy in the place of the stub `x` and lists it at a path. -/
def replacing (list : String) : Request where
  task := .register smallBundle true
  manifest := some (manifestAt list)

theorem listedApart_list : ListedApart (some (manifestAt "list.py")) ⟨"home"⟩ [] := by
  rintro _ ⟨⟩
  have hapart : Path.place [] ⟨"list.py"⟩ ≠ indexPlace (Path.place [] ⟨"home"⟩) := by
    decide +kernel
  exact hapart

theorem replacing_proper : (replacing "list.py").Proper ⟨"home"⟩ [] :=
  ⟨.inl rfl, listedApart_list, trivial⟩

/-- A device with the same stub. -/
def smallTransport : Transport Unit where
  connect _ := pure ()
  runScript _ _ := pure ()
  copyFrom _ _ directory := do
    let copy := directory.join "stubs"
    LinkAction.onWorld (Files.stopping (do
      Files.makeDirectories directory
      Files.copyTree [] ⟨"staging/stub"⟩ copy))
    return copy
  disconnect _ := pure ()

theorem smallTransport_sustains {I : World → Prop} {cwd : List String}
    {idle free loose : List String → Prop} (h : Enduring I cwd idle free loose) :
    smallTransport.Sustains I (Workspace idle free loose cwd) where
  connect _ := keeps_pure _
  runScript _ _ := keeps_pure _
  copyFrom _ _ directory hdirectory := by
    obtain ⟨hidle, hfree⟩ := hdirectory.join (by decide : IsName "stubs")
    have hkeeps : Keeps I (do
        Files.makeDirectories directory
        Files.copyTree [] ⟨"staging/stub"⟩ (directory.join "stubs")) :=
      (h.keeps_makeDirectories hdirectory.way).bind fun _ _ _ _ =>
        h.keeps_copyTree [] ⟨"staging/stub"⟩ hidle hfree
    have hlink : Keeps (fun link : Link Unit => I link.world)
        (LinkAction.onWorld (Files.stopping (do
          Files.makeDirectories directory
          Files.copyTree [] ⟨"staging/stub"⟩ (directory.join "stubs"))) : LinkAction Unit Unit) :=
      fun link hlink => hkeeps link.world hlink
    exact hlink.bind fun _ _ _ _ => keeps_pure _
  disconnect _ := keeps_pure _

theorem smallTransport_keeping (home : Path) : smallTransport.Keeping home where
  connect _ _ hplain := .refl home hplain
  runScript _ _ _ hplain := .refl home hplain
  copyFrom port remote directory link hplain hdirectory :=
    (smallTransport_sustains (enduring_kept home link.world)).copyFrom port remote directory
      ⟨fun _ _ => trivial, hdirectory.roomy⟩ link (.refl home hplain)
  disconnect _ _ hplain := .refl home hplain

/-- Takes the stub from the device, in place of the old one, and lists it. -/
def extracting : Request where
  task := .extract smallTransport () { port := "p", script := ⟨"list.py"⟩ }
  manifest := some (manifestAt "list.py")

theorem extracting_proper : extracting.Proper ⟨"home"⟩ [] :=
  ⟨.inl rfl, listedApart_list, smallTransport_keeping _⟩

/-- The record of the stub from the device. -/
def deviceRecord : Record :=
  { name := "x", firmware := "m", source := "device:p", installed := newYear 2025 }

/-! ## What remains on disk -/

/-- The records on disk are those that the answers tell of, and their names stay distinct. -/
theorem load_carryOutAll (home : Path) (w : World) (records : List Record)
    (requests : List Request) (hload : (Registry.load home w).1 = .ok { home, records })
    (hnames : (records.map (·.name)).Nodup) (hsettled : Settled home w)
    (hproper : ∀ request ∈ requests, request.Proper home w.cwd)
    (hread : ∀ known ∈ written records (carryOutAll home requests w).1,
      Index.parse? (Index.render known) = some known) :
    (Registry.load home (carryOutAll home requests w).2).1
        = .ok { home, records := (carryOutAll home requests w).1.foldl recordedBy records } ∧
      (((carryOutAll home requests w).1.foldl recordedBy records).map (·.name)).Nodup := by
  -- Every request finds the records on disk that the answers before it tell of.
  induction requests generalizing w records with
  | nil => exact ⟨hload, hnames⟩
  | cons request requests ih =>
    rw [List.forall_mem_cons] at hproper
    obtain ⟨result, w', hrun, hremains, hstep⟩ := load_carryOut hload hnames hsettled hproper.1
    have hall : carryOutAll home (request :: requests) w
        = (result :: (carryOutAll home requests w').1, (carryOutAll home requests w').2) := by
      rw [carryOutAll, hrun]
    rw [hall] at hread ⊢
    rw [List.foldl_cons]
    rw [written_cons, List.forall_mem_append] at hread
    exact ih w' _ (hstep hread.1) (nodup_recordedBy result hnames) (hsettled.remains hremains)
      (hremains.cwd ▸ hproper.2) hread.2

theorem load_carryOutAll_of_extraction :
    (Registry.load ⟨"home"⟩ (carryOutAll ⟨"home"⟩ [{ task := .remove "y" }, extracting]
      (smallWorld [oldRecord "x"])).2).1
        = .ok { home := ⟨"home"⟩, records := [deviceRecord] } := by
  have hanswers : (carryOutAll ⟨"home"⟩ [{ task := .remove "y" }, extracting]
      (smallWorld [oldRecord "x"])).1
        = [.error (.notInstalled "y"), .ok (.registered deviceRecord)] := by
    decide +kernel
  have hproper : ∀ request ∈ [{ task := .remove "y" }, extracting],
      request.Proper ⟨"home"⟩ [] := by
    rw [List.forall_mem_cons, List.forall_mem_singleton]
    exact ⟨⟨.inl rfl, nofun, trivial⟩, extracting_proper⟩
  have hall := (load_carryOutAll ⟨"home"⟩ (smallWorld [oldRecord "x"]) [oldRecord "x"]
    [{ task := .remove "y" }, extracting] (by decide +kernel) (List.nodup_singleton _)
    (.of_straight (smallWorld_plain _) (by decide +kernel) ⟨_, rfl⟩) hproper
    (by rw [hanswers]; decide +kernel)).1
  rw [hanswers] at hall
  exact hall

/-- Whether the records on disk were the given ones and are not those that the answers tell of. -/
def Strays (home : Path) (w : World) (records : List Record) (requests : List Request) : Prop :=
  (Registry.load home w).1 = .ok { home, records } ∧
    (Registry.load home (carryOutAll home requests w).2).1
      ≠ .ok { home, records := (carryOutAll home requests w).1.foldl recordedBy records }

instance (home : Path) (w : World) (records : List Record) (requests : List Request) :
    Decidable (Strays home w records requests) :=
  inferInstanceAs (Decidable (_ ∧ _))

/-- The records on disk are others if the list that is edited is the index, if the path of the home
turns back at what a request moves, if a link leads the path there, and if the home lies where a
stub is staged. -/
theorem load_carryOutAll_ne :
    Strays ⟨"home"⟩ (smallWorld []) [] [replacing "home/registry.yaml"] ∧
      Strays ⟨"home/stubs/x/../.."⟩ (smallWorld [oldRecord "z"]) [oldRecord "z"]
        [replacing "list.py"] ∧
      Strays ⟨"link"⟩ ((smallWorld [oldRecord "z"]).put ["link"] (.link "home/stubs/x/../.."))
        [oldRecord "z"] [replacing "list.py"] ∧
      Strays ⟨"tmp/mpstubs-stage-XXXXXX"⟩ (smallWorld []) []
        [{ task := .add ⟨"catalog"⟩ "staging/stub" false }] := by
  decide +kernel

end Request

end StubManager
