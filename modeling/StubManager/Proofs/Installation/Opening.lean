import StubManager.Proofs.Installation.Enlisting
import StubManager.Proofs.Registry.Naming
import StubManager.Proofs.Yaml.Appending

/-!
# Projects that hold their own lists

The file of a project can hold the list of its stubs. Such a file is read in two ways: as the text
of a list that is edited, and as YAML. Where YAML has the list as the value of a key, and its items
and the new one as scalars, the project opens as before once a stub is added (`opens_run`). Not so in
all projects: a name is written with a backslash before a quote, which a scalar between single quotes
does not know, and the list that is edited may lie where YAML has other text
(`not_opens_of_apostrophe`).
-/

namespace StubManager

open Node World Running Registry

variable {w w' : World} {site site' : Site} {name : String}

/-- A project is opened from the contents of its file. -/
theorem Project.load_of_contents {root : Path} {text : String}
    (h : w.contents? (root.join fileName) = some text.toUTF8) :
    (Project.load root w).1 = match ProjectConfig.parse? text with
      | some config => .ok { root, config }
      | none => .error (.configUnreadable (root.join fileName).text) := by
  obtain ⟨mode, hfind⟩ := contents?_eq_some_iff.1 h
  have htext : String.fromUTF8? text.toUTF8 = some text := dif_pos (String.isValidUTF8 _)
  rw [load, bind_apply, adapt_apply, Files.readText, bind_apply, Files.read_of_find? hfind]
  simp only [htext]
  change ((match ProjectConfig.parse? text with
    | some config => pure { root, config }
    | none => throw (.configUnreadable (root.join fileName).text) : Action Failure Project) w).1 = _
  cases ProjectConfig.parse? text <;> rfl

namespace Manifest

/-- Whether YAML has the list as a list of scalars that the value of a key starts with, and whether
the name is a scalar if it has to be added. -/
def InYaml (m : Manifest) (w : World) (name : String) : Prop :=
  ∀ artifact list, (m.load w).1 = .ok artifact → artifact.locate = .ok list →
    name ∉ list.values → Yaml.InYaml list ∧ Yaml.IsReadable list.style name.toList

/-- The settings in a file stay what they are where a name is added to a list in it. -/
theorem Rewrites.parse?_eq {m : Manifest} {old new : ByteArray} (h : m.Rewrites name old new)
    (hold : w.contents? m.path = some old) (hyaml : m.InYaml w name) (hname : name ≠ "") :
    ∃ before after : String, before.toUTF8 = old ∧ after.toUTF8 = new ∧
      ∀ config, ProjectConfig.parse? before = some config →
        ProjectConfig.parse? after = some config := by
  obtain ⟨current, updated, hanchor, horigin, happly, rfl, rfl⟩ := h
  obtain ⟨hvalid, list, hlocate⟩ := Artifact.of_apply_eq_ok happly
  obtain ⟨htiled, hrender, -⟩ := Artifact.locate_eq_ok_iff.1 hlocate
  refine ⟨current.text, updated.text, rfl, rfl, fun config hconfig => ?_⟩
  rw [ChangeSet.adding] at happly hvalid
  rw [Artifact.apply_ofNames hlocate hvalid] at happly
  obtain ⟨rfl, -⟩ := Artifact.foldlM_addNode_cases (Artifact.foldlM_removeValue hlocate []).2 happly
  have hload : (m.load w).1 = .ok current := by
    have hload := current.load_of_contents horigin hold
    rw [hanchor] at hload
    rw [load, hload]
  have htext : String.ofList list.render = current.text := by rw [hrender, String.ofList_toList]
  change ProjectConfig.parse? (String.ofList (list.extend name).render) = some config
  rw [ListText.extend]
  split
  · rwa [htext]
  · next hnew =>
    obtain ⟨hlist, hreadable⟩ := hyaml current list hload hlocate hnew
    refine ProjectConfig.parse?_append hlist htiled hreadable ?_ (htext ▸ hconfig)
    exact fun hnil => hname (String.toList_eq_nil_iff.1 hnil)

end Manifest

namespace Installation

variable {added : Added}

/-- A project of the given file, and a home without stubs. -/
def projectSite (file : String) : Site where
  world :=
    { root := .directory [
        ("home", .directory [("stubs", .directory [])]),
        ("project", .directory [("mpstubs.yaml", .file file.toUTF8 false)]),
        ("staging", .directory [("stub", .directory [("pin.pyi", .file .empty false)])])]
      cwd := []
      tempDir := ⟨"tmp"⟩
      clock := default }
  registry := { home := ⟨"home"⟩, records := [] }

/-- What the addition of a stub to that project comes to. -/
def enlarged (file name : String) : Except Failure Added × Site :=
  (Addition.staged { smallBundle with name }).run (manifestAt "project/mpstubs.yaml") false
    (projectSite file)

/-- A project that holds its own list opens as before after an addition that succeeds, where YAML has
the list as the value of a key and the new name as a scalar. -/
theorem opens_run (addition : Addition) {force : Bool} {root : Path} {project : Project}
    (hopen : (Project.load root site.world).1 = .ok project)
    (hown : project.manifest.path = root.join Project.fileName)
    (hrun : addition.run project.manifest force site = (.ok added, site'))
    (hname : Bundle.isValidName added.record.name)
    (h : project.manifest.Detached site.registry.home site.world added.record.name)
    (hyaml : project.manifest.InYaml site.world added.record.name) :
    (Project.load root site'.world).1 = .ok project := by
  obtain ⟨-, ⟨old, new, hold, hnew, hrewrites⟩, -⟩ := enlists_run addition hrun h
  have hnonempty := (Bundle.isValidName_iff.1 hname).1
  obtain ⟨before, after, rfl, rfl, hparse⟩ := hrewrites.parse?_eq hold hyaml hnonempty
  rw [hown] at hold hnew
  rw [Project.load_of_contents hold] at hopen
  cases hconfig : ProjectConfig.parse? before with
  | none =>
    rw [hconfig] at hopen
    cases hopen
  | some config =>
    rw [hconfig] at hopen
    rw [Project.load_of_contents hnew, hparse config hconfig]
    exact hopen

theorem projectSite_plain (file : String) : (projectSite file).world.root.Plain := by
  refine plain_directory_iff.2 ⟨?_, (by decide : ["home", "project", "staging"].Pairwise (· < ·))⟩
  simp [plain_directory_iff, plain_file, IsName]

/-- A project file with a list that has an item between quotes, a word and a comment behind it. -/
def projectFile : String := "stubs: ['a', b]  # used\nname: demo\n"

theorem opens_run_of_scalars :
    (enlarged projectFile "c").1.map (·.record.name) = .ok "c" ∧
      (Project.load ⟨"project"⟩ (enlarged projectFile "c").2.world).1
        = .ok { root := ⟨"project"⟩, config := { name := "demo" } } := by
  have hname : (enlarged projectFile "c").1.map (·.record.name) = .ok "c" := by decide +kernel
  refine ⟨hname, ?_⟩
  cases hrun : enlarged projectFile "c" with
  | mk result site' =>
    rw [hrun] at hname
    cases result with
    | error failure => cases hname
    | ok added =>
      have hname : added.record.name = "c" := Except.ok.inj hname
      refine opens_run (.staged { smallBundle with name := "c" }) ?_ ?_ hrun ?_ ?_ ?_
      · decide +kernel
      · decide +kernel
      · rw [hname]
        decide +kernel
      · rw [hname]
        exact .of_straight (.of_straight (projectSite_plain _) (by decide +kernel) ⟨_, rfl⟩)
          (by decide +kernel) (by decide +kernel) (by decide +kernel) (by decide +kernel)
          (by decide +kernel) (by decide +kernel)
      · rw [hname]
        intro artifact list hload hlocate _
        have hload' : ((manifestAt "project/mpstubs.yaml").load (projectSite projectFile).world).1
            = .ok { text := projectFile, anchor := "stubs", origin := "project/mpstubs.yaml" } := by
          decide +kernel
        obtain rfl := Except.ok.inj (hload'.symm.trans hload)
        have hlocate' : Artifact.locate
            { text := projectFile, anchor := "stubs", origin := "project/mpstubs.yaml" }
              = .ok {
                head := "stubs: [".toList
                elements :=
                  [{ raw := "'a'".toList, comma := true },
                   { lead := " ".toList, raw := "b".toList, comma := false }]
                trail := []
                rest := "]  # used\nname: demo\n".toList } := by decide +kernel
        obtain rfl := Except.ok.inj (hlocate'.symm.trans hlocate)
        have hintroduces : Yaml.Layout.Introduces ("stubs".toList ++ [':', ' ']) :=
          Yaml.Layout.introduces_of_key (by decide)
        have hquoted : Yaml.IsReadable .single ['a'] :=
          ⟨List.forall_mem_singleton.2 ⟨rfl, rfl⟩, fun _ => by decide⟩
        have hadded : Yaml.IsReadable .single ['c'] :=
          ⟨List.forall_mem_singleton.2 ⟨rfl, rfl⟩, fun _ => by decide⟩
        have hword : Yaml.IsWord ['b'] :=
          ⟨List.forall_mem_singleton.2 ⟨rfl, rfl, by decide⟩, 'b', rfl, rfl, by decide, by decide⟩
        have hnothing : Yaml.CleanGap [] := ⟨by decide, by decide, by decide⟩
        refine ⟨⟨⟨_, rfl, hintroduces⟩, ?_, hnothing, _, rfl, by decide⟩, hadded⟩
        rintro e (_ | ⟨_, _ | ⟨_, ⟨⟩⟩⟩)
        · exact ⟨by decide, .literal hquoted, hnothing⟩
        · exact ⟨by decide, .word hword, hnothing⟩

/-- An addition that succeeds can leave a project that does not open, and one that opens with
another name: of a stub with an apostrophe to a list of single quotes, and of a stub to a list that
is part of the text of a setting. -/
theorem not_opens_of_apostrophe :
    (Bundle.isValidName "it's" ∧
      (Project.load ⟨"project"⟩ (projectSite "stubs: ['a']\n").world).1.map
        (fun project => (project.config, project.manifest))
          = .ok ({}, manifestAt "project/mpstubs.yaml") ∧
      (enlarged "stubs: ['a']\n" "it's").1.map (·.record.name) = .ok "it's" ∧
      (Project.load ⟨"project"⟩ (enlarged "stubs: ['a']\n" "it's").2.world).1
        = .error (.configUnreadable "project/mpstubs.yaml")) ∧
    (Bundle.isValidName "b" ∧
      (Project.load ⟨"project"⟩ (projectSite "name: |\n  stubs: ['a']\nstubs: []\n").world).1.map
        (fun project => (project.config, project.manifest))
          = .ok ({ name := "stubs: ['a']\n" }, manifestAt "project/mpstubs.yaml") ∧
      (enlarged "name: |\n  stubs: ['a']\nstubs: []\n" "b").1.map (·.record.name) = .ok "b" ∧
      (Project.load ⟨"project"⟩
        (enlarged "name: |\n  stubs: ['a']\nstubs: []\n" "b").2.world).1.map
          (fun project => project.config) = .ok { name := "stubs: ['a', 'b']\n" }) := by
  decide +kernel

end Installation

end StubManager
