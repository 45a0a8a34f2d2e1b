import StubManager.Proofs.Installation.Persistence
import StubManager.Proofs.Registry.Index

/-!
# Records in hand that drift

A registry that is kept open holds its records in hand while requests are carried out. What is on
disk are the records that were in hand after the last request that changed them and succeeded
(`load_work`). Records in hand drift from there exactly if a request fails after they were changed
(`inSync_iff`); the next request that succeeds puts them on disk.
-/

namespace StubManager

open Node Registry Running Installation

namespace Request

variable {site : Site} {request : Request} {requests : List Request} {registry : Registry}

/-- Whether the records in hand are those on disk. -/
def InSync (site : Site) : Prop :=
  (Registry.load site.registry.home site.world).1 = .ok site.registry

instance (site : Site) : Decidable (InSync site) :=
  inferInstanceAs (Decidable ((Registry.load site.registry.home site.world).1 = .ok site.registry))

/-- Carries out requests one after the other on a registry that is kept open. -/
def work (requests : List Request) (site : Site) : Site :=
  requests.foldl (fun site request => (request.perform site).2) site

/-- Whether a request fails and changes the records in hand. -/
def Drifts (request : Request) (site : Site) : Prop :=
  (request.perform site).1.isOk = false ∧ (request.perform site).2.registry ≠ site.registry

instance (request : Request) (site : Site) : Decidable (request.Drifts site) :=
  inferInstanceAs (Decidable (_ ∧ _))

/-- The registries in hand that requests save on their way. -/
def saved (site : Site) : List Request → List Registry
  | [] => []
  | request :: more =>
    let ended := request.perform site
    if changes ended.1 then ended.2.registry :: saved ended.2 more else saved ended.2 more

theorem work_concat (done : List Request) (request : Request) (site : Site) :
    work (done ++ [request]) site = (request.perform (work done site)).2 := by
  rw [work, List.foldl_append]
  rfl

theorem saved_cons (request : Request) (more : List Request) :
    saved site (request :: more)
      = saved site [request] ++ saved (request.perform site).2 more := by
  dsimp only [saved]
  split <;> rfl

theorem saved_append (done more : List Request) :
    saved site (done ++ more) = saved site done ++ saved (work done site) more := by
  induction done generalizing site with
  | nil => rfl
  | cons request done ih =>
    rw [List.cons_append, saved_cons, ih, saved_cons request done, List.append_assoc]
    rfl

/-! ## One request -/

section

variable (hsettled : Settled site.registry.home site.world)
  (hproper : request.Proper site.registry.home site.world.cwd)
  (hread : ∀ known ∈ saved site [request],
    Index.parse? (Index.render known.records) = some known.records)
include hsettled hproper hread

/-- What a request leaves on disk: the registry that it saved, or what was there. -/
theorem load_perform (hload : (Registry.load site.registry.home site.world).1 = .ok registry) :
    (Registry.load site.registry.home (request.perform site).2.world).1
      = .ok ((saved site [request]).getLastD registry) := by
  have hends := ends_perform hsettled hproper
  have hhome := hends.home
  dsimp only [saved] at hread ⊢
  generalize request.perform site = ended at hends hhome hread
  cases hends with
  | failed failure site' hhand hkept => exact (hsettled.load_kept hkept).trans hload
  | unchanged effect w' hnothing hkept =>
    obtain rfl : effect = .nothing := hnothing
    exact (hsettled.load_kept hkept).trans hload
  | saved effect site' heffect hregistry hremains hsaved =>
    rw [if_pos (changes_ok (show effect ≠ .nothing from heffect))] at hread ⊢
    rw [← hhome, hsaved.load (hread _ (List.mem_singleton_self _))]
    rfl

/-- Records in hand that are on disk stay so exactly if the request does not drift. -/
theorem inSync_perform (hsync : InSync site) :
    InSync (request.perform site).2 ↔ ¬ request.Drifts site := by
  have hload := load_perform hsettled hproper hread hsync
  have hends := ends_perform hsettled hproper
  rw [InSync, hends.home, hload, Except.ok.injEq, Drifts]
  dsimp only [saved]
  generalize request.perform site = ended at hends
  cases hends with
  | failed failure site' hhand hkept =>
    simp [changes, Except.isOk, Except.toBool, eq_comm]
  | unchanged effect w' hnothing hkept =>
    obtain rfl : effect = .nothing := hnothing
    simp [changes]
  | saved effect site' heffect hregistry hremains hsaved =>
    simp [changes_ok (show effect ≠ .nothing from heffect), Except.isOk, Except.toBool]

end

/-! ## A run of requests -/

theorem remains_work (hsettled : Settled site.registry.home site.world)
    (hproper : ∀ request ∈ requests, request.Proper site.registry.home site.world.cwd) :
    (work requests site).registry.home = site.registry.home ∧
      Remains site.registry.home site.world (work requests site).world := by
  induction requests using List.reverseRecOn with
  | nil => exact ⟨rfl, .refl _ hsettled.plain⟩
  | append_singleton done request ih =>
    rw [List.forall_mem_append, List.forall_mem_singleton] at hproper
    obtain ⟨hhome, hremains⟩ := ih hproper.1
    have hproper' : request.Proper (work done site).registry.home (work done site).world.cwd := by
      rw [hhome, hremains.cwd]
      exact hproper.2
    have hends := ends_perform (hhome.symm ▸ hsettled.remains hremains) hproper'
    rw [work_concat]
    exact ⟨hends.home.trans hhome, hremains.trans (hhome ▸ hends.remains)⟩

/-- What a run leaves on disk: the registry that it saved last, or what was there. -/
theorem load_work (hsettled : Settled site.registry.home site.world)
    (hproper : ∀ request ∈ requests, request.Proper site.registry.home site.world.cwd)
    (hread : ∀ known ∈ saved site requests,
      Index.parse? (Index.render known.records) = some known.records)
    (hload : (Registry.load site.registry.home site.world).1 = .ok registry) :
    (Registry.load site.registry.home (work requests site).world).1
      = .ok ((saved site requests).getLastD registry) := by
  induction requests using List.reverseRecOn with
  | nil => exact hload
  | append_singleton done request ih =>
    rw [List.forall_mem_append, List.forall_mem_singleton] at hproper
    rw [saved_append, List.forall_mem_append] at hread
    obtain ⟨hhome, hremains⟩ := remains_work hsettled hproper.1
    have hlast : (saved site (done ++ [request])).getLastD registry
        = (saved (work done site) [request]).getLastD ((saved site done).getLastD registry) := by
      rw [saved_append, List.getLastD_eq_getLast?, List.getLastD_eq_getLast?,
        List.getLastD_eq_getLast?, List.getLast?_append, Option.getD_or]
    rw [hlast, work_concat, ← hhome]
    refine load_perform (hhome.symm ▸ hsettled.remains hremains) ?_ hread.2 ?_
    · rw [hhome, hremains.cwd]
      exact hproper.2
    · rw [hhome]
      exact ih hproper.1 hread.1

theorem done_of_le {done : List Request} (hle : done <+: requests)
    (hproper : ∀ request ∈ requests, request.Proper site.registry.home site.world.cwd)
    (hread : ∀ known ∈ saved site requests,
      Index.parse? (Index.render known.records) = some known.records) :
    (∀ request ∈ done, request.Proper site.registry.home site.world.cwd) ∧
      ∀ known ∈ saved site done,
        Index.parse? (Index.render known.records) = some known.records := by
  obtain ⟨more, rfl⟩ := hle
  rw [saved_append, List.forall_mem_append] at hread
  rw [List.forall_mem_append] at hproper
  exact ⟨hproper.1, hread.1⟩

/-- On a registry that is kept open, what is on disk is what was saved last, the records in hand
move by at most one change with every request, and they are those on disk all along exactly if no
request fails and changes them. What is saved has times that texts have, as every record has that
was loaded. -/
theorem inSync_iff (site : Site) (requests : List Request) (hopened : InSync site)
    (hsettled : Settled site.registry.home site.world)
    (hproper : ∀ request ∈ requests, request.Proper site.registry.home site.world.cwd)
    (htimes : ∀ known ∈ saved site requests, ∀ record ∈ known.records, record.installed.isValid) :
    (∀ done, done <+: requests →
      (Registry.load site.registry.home (work done site).world).1
        = .ok ((saved site done).getLastD site.registry)) ∧
    (∀ done request, done ++ [request] <+: requests → ∃ change : Effect,
      (work (done ++ [request]) site).registry = change.on (work done site).registry) ∧
    ((∀ done, done <+: requests → InSync (work done site)) ↔
      ∀ done request, done ++ [request] <+: requests → ¬ request.Drifts (work done site)) := by
  have hread : ∀ known ∈ saved site requests,
      Index.parse? (Index.render known.records) = some known.records :=
    fun known hknown => Index.parse?_render (htimes known hknown)
  -- What one request needs holds after whatever was done before it, drifted or not.
  have hstep : ∀ done request, done ++ [request] <+: requests →
      Settled (work done site).registry.home (work done site).world ∧
      request.Proper (work done site).registry.home (work done site).world.cwd ∧
      ∀ known ∈ saved (work done site) [request],
        Index.parse? (Index.render known.records) = some known.records := by
    intro done request hle
    obtain ⟨hproper', hread'⟩ := done_of_le hle hproper hread
    rw [List.forall_mem_append, List.forall_mem_singleton] at hproper'
    rw [saved_append, List.forall_mem_append] at hread'
    obtain ⟨hhome, hremains⟩ := remains_work hsettled hproper'.1
    rw [hhome, hremains.cwd]
    exact ⟨hsettled.remains hremains, hproper'.2, hread'.2⟩
  refine ⟨fun done hle => ?_, fun done request hle => ?_,
    fun hsync done request hle => ?_, fun hnever done => ?_⟩
  · obtain ⟨hproper', hread'⟩ := done_of_le hle hproper hread
    exact load_work hsettled hproper' hread' hopened
  · obtain ⟨hsettled', hproper', -⟩ := hstep done request hle
    rw [work_concat]
    exact (ends_perform hsettled' hproper').hand
  · obtain ⟨hsettled', hproper', hread'⟩ := hstep done request hle
    have hdone := hsync done ((List.prefix_append _ _).trans hle)
    rw [← inSync_perform hsettled' hproper' hread' hdone, ← work_concat]
    exact hsync _ hle
  · induction done using List.reverseRecOn with
    | nil => exact fun _ => hopened
    | append_singleton done request ih =>
      intro hle
      obtain ⟨hsettled', hproper', hread'⟩ := hstep done request hle
      have hdone := ih ((List.prefix_append _ _).trans hle)
      rw [work_concat, inSync_perform hsettled' hproper' hread' hdone]
      exact hnever done request hle

/-- An addition, a removal of what is not there, and the removal of what was added. -/
def smallRun : List Request :=
  [replacing "list.py", { task := .remove "y" }, { task := .remove "x" }]

/-- A registry without records, and nothing in its home. -/
def bareSite : Site where
  world := smallWorld []
  registry := { home := ⟨"home"⟩ }

theorem inSync_iff_of_replacement :
    InSync (work (smallRun.take 1) bareSite) ∧ InSync (work (smallRun.take 2) bareSite) ∧
      InSync (work smallRun bareSite) := by
  have hproper : ∀ request ∈ smallRun, request.Proper ⟨"home"⟩ [] := by
    rw [smallRun, List.forall_mem_cons, List.forall_mem_cons, List.forall_mem_singleton]
    exact ⟨replacing_proper, ⟨.inl rfl, nofun, trivial⟩, ⟨.inl rfl, nofun, trivial⟩⟩
  have hnever : ∀ count < 3, ∀ request ∈ smallRun[count]?,
      ¬ request.Drifts (work (smallRun.take count) bareSite) := by
    decide +kernel
  have hsync : ∀ done, done <+: smallRun → InSync (work done bareSite) := by
    refine (inSync_iff bareSite smallRun (by decide +kernel)
      (.of_straight (smallWorld_plain _) (by decide +kernel) ⟨_, rfl⟩) hproper
      (by decide +kernel)).2.2.2 fun done request hle => ?_
    obtain ⟨more, hmore⟩ := hle
    have hcount : done.length < 3 := by
      have hlength : done.length + (more.length + 1) = 3 := by
        simpa [smallRun] using congrArg List.length hmore
      omega
    have hrequest : request ∈ smallRun[done.length]? := by simp [← hmore]
    have hdone : smallRun.take done.length = done := by simp [← hmore]
    exact hdone ▸ hnever done.length hcount request hrequest
  exact ⟨hsync _ (List.take_prefix 1 _), hsync _ (List.take_prefix 2 _),
    hsync _ List.prefix_rfl⟩

/-- A registry without records. A list lies in the directory of the stub `x`, where the copy of the
stub has a directory. -/
def crowdedSite : Site where
  world := ((smallWorld []).put ["home", "stubs", "x", "list.py"]
      (.file "stubs = []\n".toUTF8 false)).put ["staging", "stub", "list.py"] (.directory [])
  registry := { home := ⟨"home"⟩ }

/-- A registry with the stub `x`. -/
def stockedSite : Site where
  world := smallWorld [oldRecord "x"]
  registry := { home := ⟨"home"⟩, records := [oldRecord "x"] }

/-- Removes the stub `x`, but fails in the end. -/
def lateRemoval : Request where
  task := .remove "x"
  store := failingStore (.fileSystem "late") .everything

/-- Records in hand drift if the list cannot be saved after the stub was installed, and if a removal
fails late. The next request that succeeds puts on disk what was refused. -/
theorem not_inSync_of_refusal :
    (InSync crowdedSite ∧ ¬ InSync (work [replacing "home/stubs/x/list.py"] crowdedSite)) ∧
      InSync stockedSite ∧ ¬ InSync (work [lateRemoval] stockedSite) ∧
      (Registry.load ⟨"home"⟩ (work [lateRemoval,
          { task := .register { smallBundle with name := "y" } false }] stockedSite).world).1
        = .ok { home := ⟨"home"⟩, records := [{ newRecord with name := "y" }] } := by
  decide +kernel

end Request

end StubManager
