import StubManager.Proofs.Registry.Keeping

/-!
# What staging keeps

A stub is staged in a temporary directory. Whatever leaves room for temporary directories is kept
while one is made, filled and removed again (`stage_spacious`), and so is an index
(`ofIdentifier_cases`).
-/

namespace StubManager

open Node Running World Registry

/-! ## Reading -/

section

variable {I : World → Prop} {ε α : Type}

theorem keeps_ofExcept (answer : Except ε α) :
    Keeps I (MonadExcept.ofExcept answer : Action ε α) := by
  cases answer with
  | error e => exact keeps_throw e
  | ok a => exact keeps_pure a

theorem keeps_readText (p : Path) : Keeps I (Files.readText p) := by
  refine (Files.keeps_read p).bind fun _ data _ _ => ?_
  split
  · exact keeps_pure _
  · exact keeps_throw _

theorem Metadata.keeps_load (directory : Path) : Keeps I (Metadata.load directory) := by
  refine ((keeps_readText _).adapt _).bind fun _ text _ _ => ?_
  split
  · exact keeps_pure _
  · exact keeps_throw _

theorem Digest.keeps_ofDirectory (p : Path) : Keeps I (Digest.ofDirectory p) := by
  refine keeps_get.bind fun _ w _ _ => ?_
  split
  · exact keeps_pure _
  · exact keeps_throw _

theorem Catalog.keeps_load (root : Path) : Keeps I (Catalog.load root) := by
  refine (keeps_ask _).bind fun _ isFile _ _ => ?_
  split
  · exact keeps_pure _
  · refine ((keeps_readText _).adapt _).bind fun _ text _ _ => ?_
    split
    · exact keeps_pure _
    · exact keeps_throw _

end

namespace Bundle

variable {I : World → Prop} {idle free loose : List String → Prop} {base : Path} {w : World}

theorem keeps_checkDigest (label : String) (copy : Path) (hash : Option String) :
    Keeps I (checkDigest label copy hash) := by
  cases hash with
  | none => exact keeps_pure _
  | some expected =>
    refine (Digest.keeps_ofDirectory copy).bind fun _ actual _ _ => ?_
    split
    · exact keeps_pure _
    · exact keeps_throw _

theorem keeps_sourceOf (catalogRoot : Path) (identifier : String) :
    Keeps I (sourceOf catalogRoot identifier) := by
  have hcanonical : ∀ p, Keeps I (Files.canonical p) := by
    intro p
    refine (keeps_orFault _).bind fun _ place _ _ => ?_
    split
    · exact keeps_throw _
    · exact keeps_pure _
  refine (keeps_ask _).bind fun _ isDirectory _ _ => ?_
  split
  · exact ((hcanonical _).adapt _).bind fun _ _ _ _ => keeps_pure _
  · refine (Catalog.keeps_load catalogRoot).bind fun _ catalog _ _ => ?_
    split
    · exact keeps_throw _
    · refine (keeps_ask _).bind fun _ isDirectory _ _ => ?_
      split
      · exact keeps_pure _
      · exact keeps_throw _

/-! ## Staging -/

theorem keeps_fill {cwd : List String} (h : Enduring I cwd idle free loose) (source : StubSource)
    {staging : Path} (hstaging : Workspace idle free loose cwd staging) :
    Keeps I (fill source staging) := by
  obtain ⟨hidle, hfree⟩ := hstaging.join (by decide : IsName "stub")
  refine ((h.keeps_copyTree _ _ hidle hfree).adapt _).bind fun _ _ _ _ => ?_
  refine ((Metadata.keeps_load _).adapt _).bind fun _ metadata _ _ => ?_
  refine (keeps_checkDigest _ _ _).bind fun _ _ _ _ => ?_
  split
  · exact keeps_throw _
  · exact (keeps_ofExcept _).bind fun _ _ _ _ => keeps_pure _

theorem fill_staging {source : StubSource} {staging : Path} {bundle : Bundle}
    (h : (fill source staging w).1 = .ok bundle) : bundle.staging = staging := by
  rw [fill] at h
  obtain ⟨_, w₁, -, h⟩ := of_bind_eq_ok h
  obtain ⟨metadata, w₂, -, h⟩ := of_bind_eq_ok h
  obtain ⟨_, w₃, -, h⟩ := of_bind_eq_ok h
  cases hname : source.name <|> metadata.name <|> source.directory.fileName? with
  | none =>
    rw [hname] at h
    cases h
  | some name =>
    rw [hname] at h
    obtain ⟨_, w₄, -, h⟩ := of_bind_eq_ok h
    cases h
    rfl

/-- The stems of temporary directories make proper names. -/
theorem proper_of_stem {stem : String} (h : stem ∈ temporaryStems) :
    '/' ∉ stem.toList ∧ 2 < stem.length := by
  have hproper : ∀ stem ∈ temporaryStems, '/' ∉ stem.toList ∧ 2 < stem.length := by decide
  exact hproper stem h

/-- A stub is staged where there is room, or all is kept without one. -/
theorem stage_spacious (h : Enduring I w.cwd idle free loose) (hw : I w)
    (hspace : Spacious idle free loose "mpstubs-stage-" w) (source : StubSource) :
    ∃ result w', stage source w = (result, w') ∧ I w' ∧ ∀ bundle, result = .ok bundle →
      Workspace idle free loose w.cwd bundle.staging := by
  have hstaged : ∃ result w', (do
      let staging ← Files.makeTemporary "mpstubs-stage-"
      try fill source staging
      catch failure =>
        modify (discard staging)
        throw failure : Action Failure Bundle) w = (result, w') ∧ I w' ∧
      ∀ bundle, result = .ok bundle → Workspace idle free loose w.cwd bundle.staging := by
    obtain ⟨result, w₁, hrun, h₁, hroom⟩ :=
      h.makeTemporary_cases hw (proper_of_stem List.mem_cons_self) hspace
    rw [bind_apply, hrun]
    cases result with
    | error failure => exact ⟨_, w₁, rfl, h₁, fun _ => of_error_eq_ok⟩
    | ok staging =>
      have hstaging := hroom staging rfl
      have hfill := keeps_fill h source hstaging w₁ h₁
      have hsame : ∀ bundle, (fill source staging w₁).1 = .ok bundle → bundle.staging = staging :=
        fun _ => fill_staging
      dsimp only
      rw [tryCatch_apply]
      generalize fill source staging w₁ = step at hfill hsame
      obtain ⟨result, w₂⟩ := step
      cases result with
      | error failure =>
        exact ⟨_, _, rfl, h.keeps_removeTree hstaging.room.loose w₂ hfill, fun _ => of_error_eq_ok⟩
      | ok bundle =>
        refine ⟨_, _, rfl, hfill, fun bundle' heq => ?_⟩
        cases heq
        rw [hsame bundle rfl]
        exact hstaging
  rw [stage]
  cases source.name with
  | none => exact hstaged
  | some name =>
    dsimp only
    rw [bind_apply]
    cases checkName ((some name).getD source.origin) name with
    | error failure => exact ⟨_, w, rfl, hw, fun _ => of_error_eq_ok⟩
    | ok _ => exact hstaged

theorem ofIdentifier_spacious (h : Enduring I w.cwd idle free loose) (hw : I w)
    (hspace : Spacious idle free loose "mpstubs-stage-" w) (catalogRoot : Path)
    (identifier : String) :
    ∃ result w', ofIdentifier catalogRoot identifier w = (result, w') ∧ I w' ∧
      ∀ bundle, result = .ok bundle → Workspace idle free loose w.cwd bundle.staging := by
  rw [ofIdentifier, bind_apply]
  have hsource := keeps_sourceOf (I := (· = w)) catalogRoot identifier w rfl
  generalize sourceOf catalogRoot identifier w = step at hsource
  obtain ⟨result, w₁⟩ := step
  obtain rfl : w₁ = w := hsource
  cases result with
  | error failure => exact ⟨_, _, rfl, hw, fun _ => of_error_eq_ok⟩
  | ok source => exact stage_spacious h hw hspace source

/-! ## Staging beside an index -/

/-- A temporary directory lies beside every index. -/
theorem makeTemporary_cases (h : Settled base w) {stem : String} (hstem : stem ∈ temporaryStems) :
    ∃ result w', Files.makeTemporary stem w = (result, w') ∧ Kept base w w' ∧
      ∀ p, result = .ok p → Beside base w.cwd (p.place w.cwd) := by
  obtain ⟨result, w', hrun, hkept, hroom⟩ := (enduring_kept base w).makeTemporary_cases
    (.refl base h.plain) (proper_of_stem hstem) (h.spacious hstem)
  exact ⟨result, w', hrun, hkept, fun p heq => (hroom p heq).room.loose⟩

/-- A stub is staged beside every index, or an index is kept without one. -/
theorem ofIdentifier_cases (catalogRoot : Path) (identifier : String) (h : Settled base w) :
    ∃ result w', ofIdentifier catalogRoot identifier w = (result, w') ∧ Kept base w w' ∧
      ∀ bundle, result = .ok bundle → Beside base w.cwd (bundle.staging.place w.cwd) := by
  obtain ⟨result, w', hrun, hkept, hroom⟩ := ofIdentifier_spacious (enduring_kept base w)
    (.refl base h.plain) (h.spacious List.mem_cons_self) catalogRoot identifier
  exact ⟨result, w', hrun, hkept, fun bundle heq => (hroom bundle heq).room.loose⟩

end Bundle

end StubManager
