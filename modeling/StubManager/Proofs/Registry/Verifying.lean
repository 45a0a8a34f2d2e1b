import StubManager.Proofs.Digest.Pinning
import StubManager.Proofs.FileTree.Duplicating
import StubManager.Proofs.Registry.Restaging

/-!
# Stubs that verify

A stub of the catalog is verified against the digest of its entry. Main statement:
`Bundle.ofIdentifier_verified`, a directory that is offered with its own digest is staged with this
digest, unless there is no temporary directory or the copy fails (`Bundle.Hindered`).
-/

namespace StubManager

open Node Running World

/-! ## Spellings of a digest -/

namespace Digest

/-- Whether a text is a written digest, its letters in either case and with or without the name in
front. -/
def Spells (text digest : String) : Prop :=
  ∃ letters : List Char,
    letters.map Char.toLower = (unlabelled digest.toList).map Char.toLower ∧
      (text.toList = letters ∨ text.toList = label ++ letters)

/-- Every spelling of a digest agrees with it. -/
theorem agree_of_spells {text : String} {node : Node} (h : Spells text (ofNode node)) :
    agree text (ofNode node) := by
  obtain ⟨letters, hletters, htext⟩ := h
  have hdigest : unlabelled (ofNode node).toList
      = (hex (blake3 (stream (files node)))).toList := by
    rw [ofNode, String.toList_append, String.toList_ofList, unlabelled_label]
  -- The name in front starts with a letter that is no digit.
  have hbare : unlabelled letters = letters := by
    rw [unlabelled, if_neg]
    intro hlabel
    have hmem : 'l' ∈ letters :=
      (List.isPrefixOf_iff_prefix.1 hlabel).subset (by decide : 'l' ∈ label)
    have hlower : 'l' ∈ letters.map Char.toLower :=
      List.mem_map.2 ⟨'l', hmem, by decide⟩
    rw [hletters, hdigest, List.mem_map] at hlower
    obtain ⟨c, hc, heq⟩ := hlower
    have hdigits : ∀ c ∈ "0123456789abcdef".toList, c.toLower ≠ 'l' := by simp
    exact hdigits c (mem_hex hc) heq
  rw [agree_iff, normal, normal, ← hletters]
  obtain htext | htext := htext
  · rw [htext, hbare]
  · rw [htext, unlabelled_label]

end Digest

/-! ## Temporary directories -/

namespace Files

variable {w : World} {stem : String}

/-- Whether a temporary directory that is made now has this place. -/
def TemporaryAt (stem : String) (w : World) (place : List String) : Prop :=
  ∃ name parent last asDirectory, freeName? w.tempDir stem w = some name ∧
    w.locate false (w.tempDir.join name) = .ok (.vacant parent last asDirectory) ∧
    place = parent ++ [last]

/-- What is known of a temporary directory that has been made. -/
structure MadeTemporary (stem : String) (w : World) (p : Path) (place : List String) (w' : World) :
    Prop where
  temporary : TemporaryAt stem w place
  vacant : w.root.get? place = none
  put : w' = w.put place (.directory [])
  grows : w.root.Grows w'.root
  located : w'.locate true p = .ok (.node place)
  found : w'.root.get? place = some (.directory [])

/-- A temporary directory is made, or the file system stands in the way. -/
theorem makeTemporary_made (stem : String) (w : World) :
    (∃ message, makeTemporary stem w = (.error (.fileSystem message), w)) ∨
      ∃ p place w', makeTemporary stem w = (.ok p, w') ∧ MadeTemporary stem w p place w' := by
  rw [makeTemporary, bind_apply, ask_apply]
  dsimp only
  rw [bind_apply, ask_apply]
  dsimp only
  cases hfree : freeName? w.tempDir stem w with
  | none => exact .inl ⟨_, rfl⟩
  | some name =>
    dsimp only
    rw [bind_apply, adapt_apply, makeDirectory, bind_apply, orFault_apply]
    cases hlocate : w.locate false (w.tempDir.join name) with
    | error fault => exact .inl ⟨_, rfl⟩
    | ok stop =>
      cases stop with
      | node place => exact absurd hlocate ((of_freeName? hfree).2 place)
      | vacant parent last asDirectory =>
        obtain ⟨-, hparent, hvacant⟩ := of_locate_vacant hlocate
        have hgrows : w.root.Grows (w.root.put (parent ++ [last]) (.directory [])) :=
          grows_put hparent (by simp [hvacant])
        have hfound : (w.root.put (parent ++ [last]) (.directory [])).get? (parent ++ [last])
            = some (.directory []) := by
          obtain ⟨entries, hentries⟩ := hparent
          exact get?_put _ hentries
        exact .inr ⟨_, parent ++ [last], _, rfl, {
          temporary := ⟨name, parent, last, asDirectory, hfree, hlocate, rfl⟩
          vacant := hvacant
          put := rfl
          grows := hgrows
          located := locate_of_made hlocate hgrows rfl ⟨[], hfound⟩
          found := hfound }⟩

end Files

namespace Bundle

variable {w w' : World} {place : List String} {entries : List (String × Node)}
  {metadata : Metadata}

/-- A tidy directory with metadata and without caches, that holds no temporary directory which is
made now. -/
structure Stageable (w : World) (directory : Path) (place : List String)
    (entries : List (String × Node)) (metadata : Metadata) : Prop where
  located : w.locate true directory = .ok (.node place)
  found : w.root.get? place = some (.directory entries)
  tidy : (Node.directory entries).Tidy
  cacheless : ∀ names node, (Node.directory entries).get? names = some node →
    ∀ name ∈ names, name ∉ Files.caches
  readable : ∃ data mode text, child? Metadata.fileName entries = some (.file data mode) ∧
    String.fromUTF8? data = some text ∧ Metadata.parse? text = some metadata
  apart : ∀ staging, Files.TemporaryAt "mpstubs-stage-" w staging → ¬ place <+: staging

/-- A directory that can be staged can be copied into the temporary directory. -/
theorem Stageable.duplicable {directory staging : Path} {s : List String}
    (h : Stageable w directory place entries metadata)
    (hmade : Files.MadeTemporary "mpstubs-stage-" w staging s w') :
    Files.Duplicable Files.caches w' directory staging "stub" place s (.directory entries) := by
  have hbelow : ∀ back, place ≠ s ++ back := by
    rintro back rfl
    have hfound := h.found
    rw [get?_append, hmade.vacant] at hfound
    cases hfound
  have hdisjoint : ¬ s <+: place := by
    rintro ⟨back, heq⟩
    exact hbelow back heq.symm
  have hout := h.apart s hmade.temporary
  refine {
    located := locate_of_grows h.located hmade.grows (by rw [hmade.put]; rfl)
    found := ?_
    tidy := h.tidy
    clear := h.cacheless
    holder := hmade.located
    dir := ⟨[], hmade.found⟩
    named := by decide
    short := by decide
    vacant := ?_
    apart := ?_ }
  · rw [hmade.put]
    exact (get?_alter_of_disjoint _ w.root hdisjoint hout).trans h.found
  · rw [get?_append, hmade.found]
    rfl
  · intro hle
    obtain heq | hle := List.prefix_concat_iff.1 hle
    · exact hbelow _ heq
    · exact hout hle

/-- The copy in the temporary directory has the metadata and the digest of what was copied. -/
theorem Stageable.of_duplicated {directory staging : Path} {s : List String} {node : Node}
    (h : Stageable w directory place entries metadata) {w₁ : World}
    (hmade : Files.MadeTemporary "mpstubs-stage-" w staging s w₁)
    (hcopy : Files.Duplicated w₁ w' staging "stub" s (.directory entries) node) :
    Metadata.load (staging.join "stub") w' = (.ok metadata, w') ∧
      Digest.ofDirectory (staging.join "stub") w'
        = (.ok (Digest.ofNode (.directory entries)), w') := by
  obtain ⟨data, mode, text, hchild, htext, hparse⟩ := h.readable
  have hget : (Node.directory entries).get? [Metadata.fileName] = some (.file data mode) :=
    (get?_singleton ..).trans hchild
  have hlocate : w'.locate true (staging.join "stub") = .ok (.node (s ++ ["stub"])) := by
    refine locate_join_of_node (locate_of_grows hmade.located hcopy.grown.grows hcopy.grown.cwd)
      (by decide) hcopy.fits hcopy.found fun target heq => hcopy.plain.linkless [] target ?_
    rw [heq]
    rfl
  obtain ⟨mode', hfile⟩ := (hcopy.same [Metadata.fileName] data).1 ⟨mode, hget⟩
  obtain ⟨entries', rfl⟩ : ∃ entries', node = .directory entries' := by
    cases node with
    | directory entries' => exact ⟨entries', rfl⟩
    | file data mode => simp [get?, Node.entries, child?] at hfile
    | link target => simp [get?, Node.entries, child?] at hfile
  have hfind : w'.find? (staging.join "stub") = some (.directory entries') := by
    rw [find?, hlocate]
    exact hcopy.found
  constructor
  · rw [get?_singleton] at hfile
    have hthere : w'.find? ((staging.join "stub").join Metadata.fileName)
        = some (.file data mode') := by
      refine (find?_join_eq_some_iff hlocate hcopy.found (by decide) (by simp [hfile])).2
        ⟨hcopy.first _ (by simp [hget]), hfile⟩
    exact Metadata.load_eq_ok_iff.2
      ⟨rfl, data, text, contents?_eq_some_iff.2 ⟨mode', hthere⟩, htext, hparse⟩
  · rw [Digest.ofDirectory_apply hfind, Digest.ofNode, Digest.ofNode,
      Digest.files_congr_of_tidy h.tidy hcopy.plain.tidy hcopy.same]

/-- Why a directory cannot be staged at all: no temporary directory can be made, or the copy into it
fails. -/
inductive Hindered (directory : Path) (w : World) : (message : String) → Prop where
  | temporary {message : String}
    (hmake : (Files.makeTemporary "mpstubs-stage-" w).1 = .error (.fileSystem message)) :
    Hindered directory w message
  | copy {staging : Path} {w₁ : World} {fault : FileFault}
    (hmake : Files.makeTemporary "mpstubs-stage-" w = (.ok staging, w₁))
    (hcopy : (Files.copyTree Files.caches directory (staging.join "stub") w₁).1 = .error fault) :
    Hindered directory w fault.message

/-- A directory that is copied is filled in with its own digest. -/
theorem fill_verified {source : StubSource} {staging : Path} {s : List String} {w₁ : World}
    (h : Stageable w source.directory place entries metadata)
    (hmade : Files.MadeTemporary "mpstubs-stage-" w staging s w₁) {name : String}
    (hname : source.name = some name) (hvalid : isValidName name)
    (hhash : ∀ text ∈ source.hash, Digest.Spells text (Digest.ofNode (.directory entries))) :
    ∃ result w', fill source staging w₁ = (result, w') ∧
      match (Files.copyTree Files.caches source.directory (staging.join "stub") w₁).1 with
      | .error fault => result = .error (.fileSystem fault.message)
      | .ok () => result = .ok { name, origin := source.origin, staging, metadata } ∧
        Digest.ofDirectory (staging.join "stub") w'
          = (.ok (Digest.ofNode (.directory entries)), w') := by
  rw [fill, bind_apply, Files.stopping, adapt_apply]
  generalize hcopy : Files.copyTree Files.caches source.directory (staging.join "stub") w₁ = step
  obtain ⟨result, w'⟩ := step
  cases result with
  | error fault => exact ⟨_, w', rfl, rfl⟩
  | ok _ =>
    obtain ⟨node, hduplicated⟩ :=
      Files.duplicates_copyTreeWithin Files.caches pathLimit (h.duplicable hmade) hcopy
    obtain ⟨hload, hdigest⟩ := h.of_duplicated hmade hduplicated
    have hcheck : ∀ label, checkDigest label (staging.join "stub") source.hash w'
        = (.ok (), w') := by
      intro label
      cases htext : source.hash with
      | none => rfl
      | some text =>
        rw [checkDigest, bind_apply, hdigest]
        dsimp only
        rw [if_pos (Digest.agree_of_spells (hhash text htext))]
        rfl
    refine ⟨_, w', ?_, rfl, hdigest⟩
    dsimp only [Except.mapError]
    rw [bind_apply, adapt_apply, hload]
    dsimp only [Except.mapError]
    have hfirst : (source.name <|> metadata.name <|> source.directory.fileName?) = some name := by
      rw [hname]
      rfl
    rw [bind_apply, hcheck, hfirst]
    dsimp only
    rw [bind_apply, ofExcept_apply, checkName, if_pos hvalid]
    rfl

/-- A directory is staged with its own digest exactly if nothing hinders it. -/
theorem stage_verified {source : StubSource}
    (h : Stageable w source.directory place entries metadata) {name : String}
    (hname : source.name = some name) (hvalid : isValidName name)
    (hhash : ∀ text ∈ source.hash, Digest.Spells text (Digest.ofNode (.directory entries))) :
    ∃ result w', stage source w = (result, w') ∧
      ((∃ message, Hindered source.directory w message ∧
          result = .error (.fileSystem message)) ∨
        (∀ message, ¬ Hindered source.directory w message) ∧
        ∃ bundle, result = .ok bundle ∧ bundle.name = name ∧ bundle.metadata = metadata ∧
        Digest.ofDirectory bundle.path w' = (.ok (Digest.ofNode (.directory entries)), w')) := by
  rw [stage, hname]
  dsimp only
  rw [bind_apply, ofExcept_apply, checkName, if_pos hvalid]
  dsimp only
  rw [bind_apply]
  obtain ⟨message, hmake⟩ | ⟨staging, s, w₁, hmake, hmade⟩ :=
    Files.makeTemporary_made "mpstubs-stage-" w
  · rw [hmake]
    exact ⟨_, w, rfl, .inl ⟨message, .temporary (by rw [hmake]), rfl⟩⟩
  · obtain ⟨result, w', hfill, hresult⟩ := fill_verified h hmade hname hvalid hhash
    rw [hmake]
    dsimp only
    rw [tryCatch_apply, hfill]
    cases hcopy : (Files.copyTree Files.caches source.directory (staging.join "stub") w₁).1 with
    | error fault =>
      obtain rfl : result = .error (.fileSystem fault.message) := by rwa [hcopy] at hresult
      exact ⟨_, _, rfl, .inl ⟨_, .copy hmake hcopy, rfl⟩⟩
    | ok _ =>
      rw [hcopy] at hresult
      obtain ⟨rfl, hdigest⟩ := hresult
      refine ⟨_, w', rfl, .inr ⟨?_, _, rfl, rfl, rfl, hdigest⟩⟩
      rintro message (hmake' | ⟨hmake', hcopy'⟩)
      · rw [hmake] at hmake'
        cases hmake'
      · cases hmake.symm.trans hmake'
        rw [hcopy] at hcopy'
        cases hcopy'

/-- A stub that the catalog offers by a name which is no directory here. -/
structure Offered (catalogRoot : Path) (identifier : String) (w : World) (entry : CatalogEntry)
    (place : List String) (entries : List (String × Node)) (metadata : Metadata) : Prop where
  accepted : isValidName identifier
  notLocal : w.isDirectory ⟨identifier⟩ = false
  listed : ∃ catalog, (Catalog.load catalogRoot w).1 = .ok catalog ∧
    catalog.find? identifier = some entry ∧
    Stageable w (catalog.location entry) place entries metadata

theorem root_of_catalogLoad {catalogRoot : Path} {catalog : Catalog}
    (h : (Catalog.load catalogRoot w).1 = .ok catalog) : catalog.root = catalogRoot := by
  rw [Catalog.load, bind_apply, ask_apply] at h
  dsimp only at h
  split at h
  · cases h
    rfl
  · rw [bind_apply] at h
    generalize (Files.readText (catalogRoot.join Catalog.fileName)).adapt _ w = read at h
    obtain ⟨failure | text, w'⟩ := read
    · cases h
    · dsimp only at h
      cases hparse : Catalog.parse? text with
      | none =>
        rw [hparse] at h
        cases h
      | some entries =>
        rw [hparse] at h
        cases h
        rfl

/-- A stub whose entry spells the digest of its directory is staged with this digest exactly if
nothing hinders it. The digest may have been taken elsewhere and from another list of the same
files. -/
theorem ofIdentifier_verified {catalogRoot : Path} {identifier : String} {entry : CatalogEntry}
    (h : Offered catalogRoot identifier w entry place entries metadata)
    {w₀ : World} {original : Path} {entries₀ : List (String × Node)}
    (hfind₀ : w₀.find? original = some (.directory entries₀))
    (htidy₀ : (Node.directory entries₀).Tidy)
    (hsame : ∀ names data, (Node.directory entries₀).HasFile names data ↔
      (Node.directory entries).HasFile names data)
    {digest text : String} (hdigest : (Digest.ofDirectory original w₀).1 = .ok digest)
    (hhash : entry.hash = some text) (hspells : Digest.Spells text digest) :
    ∃ result w', ofIdentifier catalogRoot identifier w = (result, w') ∧
      ((∃ message, Hindered (catalogRoot.join entry.path) w message ∧
          result = .error (.fileSystem message)) ∨
        (∀ message, ¬ Hindered (catalogRoot.join entry.path) w message) ∧
        ∃ bundle, result = .ok bundle ∧ bundle.name = identifier ∧ bundle.metadata = metadata ∧
        Digest.ofDirectory bundle.path w' = (.ok digest, w')) := by
  obtain ⟨catalog, hload, hentry, hstageable⟩ := h.listed
  have hlocation : catalog.location entry = catalogRoot.join entry.path := by
    rw [Catalog.location, root_of_catalogLoad hload]
  obtain rfl : digest = Digest.ofNode (.directory entries) := by
    rw [Digest.ofDirectory_apply hfind₀, Except.ok.injEq] at hdigest
    rw [← hdigest, Digest.ofNode, Digest.ofNode,
      Digest.files_congr_of_tidy htidy₀ hstageable.tidy hsame]
  have hload : Catalog.load catalogRoot w = (.ok catalog, w) :=
    Prod.ext hload (Catalog.keeps_load catalogRoot w (I := (· = w)) rfl)
  have hdirectory : w.isDirectory (catalog.location entry) = true := by
    rw [World.isDirectory, find?, hstageable.located]
    dsimp only
    rw [hstageable.found]
    rfl
  have hsource : sourceOf catalogRoot identifier w = (.ok
      { name := some identifier, directory := catalog.location entry,
        origin := (catalog.location entry).text, hash := entry.hash }, w) := by
    rw [sourceOf, bind_apply, ask_apply, h.notLocal]
    dsimp only
    rw [if_neg Bool.false_ne_true, bind_apply, hload]
    dsimp only
    rw [hentry]
    dsimp only
    rw [bind_apply, ask_apply, hdirectory]
    rfl
  rw [ofIdentifier, bind_apply, hsource, ← hlocation]
  refine stage_verified hstageable rfl h.accepted fun other hother => ?_
  cases hhash.symm.trans hother
  exact hspells

/-- The entries of a small stub. -/
def smallStub : List (String × Node) :=
  [("modules.json", .file "[null,[\"rp2\"]]".toUTF8 false),
    ("os", .directory [("path.pyi", .file "sep: str".toUTF8 false)])]

/-- The digest of the small stub in capital letters. -/
def smallDigest : String := "FC2A6C5CF01DA1D8AE076029D720CA288E88B6D8362013A622C0564B485A9820"

/-- A catalog of the small stub behind a link, and a place for temporary files behind another. -/
def smallWorld (stub : List (String × Node)) : World where
  root := .directory
    [("catalog", .directory
      [("catalog.yaml",
        .file ("stubs:\n- name: board\n  path: rp2\n  hash: " ++ smallDigest ++ "\n").toUTF8 false),
        ("rp2", .directory stub)]),
      ("link", .link "catalog"), ("tmp", .link "var"), ("var", .directory [])]
  cwd := []
  tempDir := ⟨"/tmp"⟩
  clock := default

theorem tidy_smallStub : (Node.directory smallStub).Tidy := by
  refine Node.tidy_directory_iff.2 ⟨?_, by decide⟩
  simp [smallStub, Node.tidy_directory_iff, Node.tidy_file, IsName]

theorem child?_reverse_smallStub (name : String) :
    child? name smallStub.reverse = child? name smallStub := by
  by_cases hos : "os" = name
  · subst hos
    rfl
  · simp [smallStub, child?, hos]

theorem get?_reverse_smallStub (name : String) (names : List String) :
    (Node.directory smallStub.reverse).get? (name :: names)
      = (Node.directory smallStub).get? (name :: names) := by
  rw [get?, get?, Node.entries, Node.entries, child?_reverse_smallStub]

theorem ofNode_smallStub : Digest.ofNode (.directory smallStub)
    = "blake3:fc2a6c5cf01da1d8ae076029d720ca288e88b6d8362013a622c0564b485a9820" := by
  have hfiles : Digest.files (.directory smallStub)
      = [(["modules.json"], "[null,[\"rp2\"]]".toUTF8),
        (["os", "path.pyi"], "sep: str".toUTF8)] := Digest.files_of_sorted rfl (by decide)
  rw [Digest.ofNode, hfiles, Digest.blake3_of_chunk (by decide +kernel)]
  decide +kernel

theorem stageable_smallWorld : Stageable (smallWorld smallStub.reverse)
    ((Path.mk "link").join "rp2") ["catalog", "rp2"] smallStub.reverse
    { name := none, firmware := { name := "rp2" } } := by
  have htidy : (Node.directory smallStub.reverse).Tidy := by
    simpa [tidy_directory_iff] using tidy_directory_iff.1 tidy_smallStub
  refine ⟨by decide +kernel, rfl, htidy, fun names node hnode name hname => ?_, ?_, ?_⟩
  · have hall : ∀ descendant ∈ (Node.directory smallStub.reverse).descendants,
        ∀ name ∈ descendant.1, name ∉ Files.caches := by decide
    exact hall _ (htidy.mem_descendants_iff.2 ⟨List.ne_nil_of_mem hname, hnode⟩) name hname
  · exact ⟨"[null,[\"rp2\"]]".toUTF8, false, "[null,[\"rp2\"]]", rfl, by decide +kernel,
      by decide +kernel⟩
  · rintro staging ⟨name, parent, last, asDirectory, hname, hlocate, rfl⟩
    have hfree : Files.freeName? (smallWorld smallStub.reverse).tempDir "mpstubs-stage-"
        (smallWorld smallStub.reverse) = some "mpstubs-stage-XXXXXX" := by decide +kernel
    cases hfree.symm.trans hname
    have hvacant : (smallWorld smallStub.reverse).locate false
        ((smallWorld smallStub.reverse).tempDir.join "mpstubs-stage-XXXXXX")
          = .ok (.vacant ["var"] "mpstubs-stage-XXXXXX" false) := by decide +kernel
    cases hvacant.symm.trans hlocate
    decide

/-- The small stub can be copied into a temporary directory. -/
theorem not_hindered_smallWorld (message : String) :
    ¬ Hindered ((Path.mk "link").join "rp2") (smallWorld smallStub.reverse) message := by
  have hcopied : (match Files.makeTemporary "mpstubs-stage-" (smallWorld smallStub.reverse) with
      | (.ok staging, w₁) => (Files.copyTree Files.caches ((Path.mk "link").join "rp2")
          (staging.join "stub") w₁).1.isOk
      | (.error _, _) => false) = true := by
    decide +kernel
  rintro (hmake | ⟨hmake, hcopy⟩)
  · generalize Files.makeTemporary "mpstubs-stage-" (smallWorld smallStub.reverse) = made
      at hmake hcopied
    obtain ⟨result, w₁⟩ := made
    subst hmake
    cases hcopied
  · rw [hmake] at hcopied
    dsimp only at hcopied
    rw [hcopy] at hcopied
    cases hcopied

/-- A digest in capital letters and without a name, a catalog behind a link, and the entries in
another order than when the digest was taken. -/
theorem ofIdentifier_verified_of_link :
    Digest.Spells smallDigest (Digest.ofNode (.directory smallStub)) ∧
    ∃ bundle w', ofIdentifier ⟨"link"⟩ "board" (smallWorld smallStub.reverse) = (.ok bundle, w') ∧
      bundle.name = "board" ∧ bundle.metadata = { name := none, firmware := { name := "rp2" } } ∧
      Digest.ofDirectory bundle.path w'
        = (.ok (Digest.ofNode (.directory smallStub)), w') := by
  have hspells : Digest.Spells smallDigest (Digest.ofNode (.directory smallStub)) := by
    rw [ofNode_smallStub]
    exact ⟨smallDigest.toList, by decide +kernel, .inl rfl⟩
  have hfind : (smallWorld smallStub).find? ⟨"catalog/rp2"⟩ = some (.directory smallStub) := by
    rw [find?, show (smallWorld smallStub).locate true ⟨"catalog/rp2"⟩
      = .ok (.node ["catalog", "rp2"]) by decide +kernel]
    rfl
  have hload : (Catalog.load ⟨"link"⟩ (smallWorld smallStub.reverse)).1 = .ok
      { root := ⟨"link"⟩
        entries := [{ name := "board", path := "rp2", hash := some smallDigest }] } := by
    decide +kernel
  have hoffered : Offered ⟨"link"⟩ "board" (smallWorld smallStub.reverse)
      { name := "board", path := "rp2", hash := some smallDigest } ["catalog", "rp2"]
      smallStub.reverse { name := none, firmware := { name := "rp2" } } :=
    ⟨by decide +kernel, by decide +kernel, _, hload, rfl, stageable_smallWorld⟩
  have hsame : ∀ names data, (Node.directory smallStub).HasFile names data ↔
      (Node.directory smallStub.reverse).HasFile names data := by
    intro names data
    cases names with
    | nil => simp [HasFile, get?]
    | cons name names => rw [HasFile, HasFile, get?_reverse_smallStub]
  obtain ⟨result, w', hrun, ⟨message, hhindered, -⟩ | ⟨-, bundle, rfl, hbundle⟩⟩ :=
    ofIdentifier_verified hoffered hfind tidy_smallStub hsame
      (by rw [Digest.ofDirectory_apply hfind]) rfl hspells
  · exact absurd hhindered (not_hindered_smallWorld message)
  · exact ⟨hspells, bundle, w', hrun, hbundle⟩

end Bundle

end StubManager
