import StubManager.Yaml.Node

/-!
# Putting block mappings together

What the steps of putting a document together come to on the tokens of scalars and of entries with
scalars (`blockEntries_of_entries`).
-/

namespace StubManager.Yaml.Compose

variable {α β : Type} {s : Composition} {rest : List Token}

theorem bind_apply (x : Compose α) (f : α → Compose β) (s : Composition) :
    (x >>= f) s = (x s).bind fun (a, s) => f a s := rfl

theorem pure_apply (a : α) (s : Composition) : (pure a : Compose α) s = some (a, s) := rfl

theorem peek_apply (s : Composition) : peek s = some (s.tokens.head?, s) := rfl

theorem skip_apply (s : Composition) :
    skip s = some ((), { s with tokens := s.tokens.drop 1 }) := rfl

theorem sees_apply (tokens : List Token) (s : Composition) :
    sees tokens s = some (s.tokens.head?.any tokens.contains, s) := rfl

theorem node_of_scalar {text : List Char} {plain : Bool}
    (h : s.tokens = .scalar text plain :: rest) (block level : Bool) (fuel : Nat) :
    node block level (fuel + 1) s = some (.scalar none none text plain, { s with tokens := rest }) := by
  obtain ⟨tokens, anchors, handles⟩ := s
  cases h
  rfl

theorem nodeUnless_apply {token : Token} {others : List Token} (h : s.tokens = token :: rest)
    (hends : token ∉ others) (block level : Bool) (fuel : Nat) :
    nodeUnless others block level (fuel + 1) s = node block level fuel s := by
  have hnone : others.contains token = false := by simpa using hends
  simp [nodeUnless, bind_apply, sees_apply, h, hends]

theorem valueUnless_apply (h : s.tokens = .value :: rest) (others : List Token) (block : Bool)
    (fuel : Nat) :
    valueUnless others block (fuel + 1) s
      = nodeUnless others block block fuel { s with tokens := rest } := by
  simp [valueUnless, bind_apply, sees_apply, skip_apply, h]

/-- The entry of a mapping with a scalar as its key. -/
theorem blockEntries_of_key {text : List Char} {plain : Bool} {token : Token}
    (h : s.tokens = .key :: .scalar text plain :: .value :: token :: rest)
    (htoken : token ∉ [Token.key, .value, .blockEnd]) (fuel : Nat) :
    blockEntries (fuel + 3) s
      = (node true true fuel { s with tokens := token :: rest }).bind fun (value, s) =>
          (blockEntries (fuel + 2) s).map fun (entries, s) =>
            ((.scalar none none text plain, value) :: entries, s) := by
  obtain ⟨tokens, anchors, handles⟩ := s
  cases h
  have hkey : nodeUnless [.key, .value, .blockEnd] true true (fuel + 2)
        ⟨.scalar text plain :: .value :: token :: rest, anchors, handles⟩
      = some (.scalar none none text plain, ⟨.value :: token :: rest, anchors, handles⟩) := by
    rw [nodeUnless_apply rfl (by simp), node_of_scalar rfl]
  have hvalue : valueUnless [.key, .value, .blockEnd] true (fuel + 2)
        ⟨.value :: token :: rest, anchors, handles⟩
      = node true true fuel ⟨token :: rest, anchors, handles⟩ := by
    rw [valueUnless_apply rfl, nodeUnless_apply rfl htoken]
  rw [blockEntries]
  simp only [bind_apply, peek_apply, List.head?_cons, Option.bind_some, skip_apply,
    List.drop_succ_cons, List.drop_zero, hkey, hvalue]
  cases node true true fuel ⟨token :: rest, anchors, handles⟩ with
  | none => rfl
  | some value =>
    simp only [Option.bind_some]
    cases blockEntries (fuel + 2) value.2 <;> rfl

/-- The node of an entry with a scalar as its value. -/
def entryNode (entry : List Char × List Char × Bool) : Node × Node :=
  (.scalar none none entry.1 true, .scalar none none entry.2.1 entry.2.2)

/-- The tokens of an entry with a scalar as its value. -/
def scalarEntry (entry : List Char × List Char × Bool) : List Token :=
  [.key, .scalar entry.1 true, .value, .scalar entry.2.1 entry.2.2]

/-- Entries with scalars as their values, up to the end of their block. -/
theorem blockEntries_of_entries {entries : List (List Char × List Char × Bool)}
    (h : s.tokens = entries.flatMap scalarEntry ++ .blockEnd :: rest) {fuel : Nat}
    (hfuel : entries.length + 4 ≤ fuel) :
    blockEntries fuel s = some (entries.map entryNode, { s with tokens := rest }) := by
  induction entries generalizing s fuel with
  | nil =>
    obtain ⟨fuel, rfl⟩ := Nat.exists_eq_add_of_le' (Nat.le_trans (by decide : 1 ≤ 0 + 4) hfuel)
    obtain ⟨tokens, anchors, handles⟩ := s
    cases h
    rfl
  | cons entry entries ih =>
    rw [List.length_cons] at hfuel
    obtain ⟨fuel, rfl⟩ := Nat.exists_eq_add_of_le' (show 4 ≤ fuel by omega)
    have htokens : s.tokens = .key :: .scalar entry.1 true :: .value ::
        .scalar entry.2.1 entry.2.2 :: (entries.flatMap scalarEntry ++ .blockEnd :: rest) := by
      rw [h]
      rfl
    have hmore := ih (s := { s with tokens := entries.flatMap scalarEntry ++ .blockEnd :: rest }) rfl
      (show entries.length + 4 ≤ fuel + 3 by omega)
    rw [blockEntries_of_key htokens (by simp), node_of_scalar rfl, Option.bind_some]
    simp only [hmore]
    rfl

/-! ## Collections -/

theorem node_of_mapping (h : s.tokens = .blockMappingStart :: rest) (level : Bool) (fuel : Nat) :
    node true level (fuel + 1) s
      = (blockEntries fuel { s with tokens := rest }).bind fun (entries, s) =>
          some (.mapping none entries, s) := by
  obtain ⟨tokens, anchors, handles⟩ := s
  cases h
  cases level <;> rfl

theorem node_of_level (h : s.tokens = .blockEntry :: rest) (fuel : Nat) :
    node true true (fuel + 1) s
      = (levelItems fuel s).bind fun (items, s) => some (.sequence none items, s) := by
  obtain ⟨tokens, anchors, handles⟩ := s
  cases h
  rfl

/-- The tokens of an item that is a mapping of scalars. -/
def mappingItem (entries : List (List Char × List Char × Bool)) : List Token :=
  [.blockEntry, .blockMappingStart] ++ entries.flatMap scalarEntry ++ [.blockEnd]

/-- The node of an item that is a mapping of scalars. -/
def mappingNode (entries : List (List Char × List Char × Bool)) : Node :=
  .mapping none (entries.map entryNode)

/-- Items that are mappings of scalars, up to the end of the block around them. -/
theorem levelItems_of_mappings {items : List (List (List Char × List Char × Bool))}
    (h : s.tokens = items.flatMap mappingItem ++ .blockEnd :: rest) {fuel : Nat}
    (hfuel : ∀ entries ∈ items, items.length + entries.length + 7 ≤ fuel) (hpos : 0 < fuel) :
    levelItems fuel s = some (items.map mappingNode, { s with tokens := .blockEnd :: rest }) := by
  induction items generalizing s fuel with
  | nil =>
    obtain ⟨fuel, rfl⟩ := Nat.exists_eq_add_one.2 hpos
    obtain ⟨tokens, anchors, handles⟩ := s
    cases h
    rfl
  | cons entries items ih =>
    obtain ⟨hentries, hitems⟩ := List.forall_mem_cons.1 hfuel
    rw [List.length_cons] at hentries
    obtain ⟨fuel, rfl⟩ := Nat.exists_eq_add_of_le' (show 3 ≤ fuel by omega)
    obtain ⟨tokens, anchors, handles⟩ := s
    obtain rfl : tokens = .blockEntry :: .blockMappingStart :: (entries.flatMap scalarEntry
        ++ .blockEnd :: (items.flatMap mappingItem ++ .blockEnd :: rest)) := by
      refine h.trans ?_
      simp [mappingItem]
    have hitem : nodeUnless [.blockEntry, .key, .value, .blockEnd] true false (fuel + 2)
          ⟨.blockMappingStart :: (entries.flatMap scalarEntry
            ++ .blockEnd :: (items.flatMap mappingItem ++ .blockEnd :: rest)), anchors, handles⟩
        = some (mappingNode entries, ⟨items.flatMap mappingItem ++ .blockEnd :: rest, anchors,
            handles⟩) := by
      rw [nodeUnless_apply rfl (by simp), node_of_mapping rfl,
        blockEntries_of_entries rfl (show entries.length + 4 ≤ fuel by omega)]
      rfl
    have hbound : ∀ more ∈ items, items.length + more.length + 7 ≤ fuel + 2 := by
      intro more hmore
      have hlength := hitems more hmore
      rw [List.length_cons] at hlength
      omega
    have hmore := ih (s := ⟨items.flatMap mappingItem ++ .blockEnd :: rest, anchors, handles⟩) rfl
      hbound (Nat.succ_pos _)
    rw [levelItems]
    simp only [bind_apply, peek_apply, skip_apply, List.head?_cons, Option.bind_some,
      List.drop_succ_cons, List.drop_zero, hitem, hmore]
    rfl

/-- A document that is a mapping of a scalar to mappings of scalars. -/
theorem document_of_mappings {key : List Char}
    {items : List (List (List Char × List Char × Bool))} (hne : items ≠ [])
    (h : s.tokens = [.blockMappingStart, .key, .scalar key true, .value]
      ++ items.flatMap mappingItem ++ [.blockEnd]) {fuel : Nat}
    (hfuel : ∀ entries ∈ items, items.length + entries.length + 12 ≤ fuel) :
    (document fuel s).map (·.1)
      = some (some (.mapping none
          [(.scalar none none key true, .sequence none (items.map mappingNode))])) := by
  obtain ⟨entries, more, rfl⟩ := List.exists_cons_of_ne_nil hne
  have hfirst := hfuel entries (List.mem_cons_self ..)
  obtain ⟨fuel, rfl⟩ := Nat.exists_eq_add_of_le' (show 5 ≤ fuel by omega)
  have hbound : ∀ entries' ∈ entries :: more,
      (entries :: more).length + entries'.length + 7 ≤ fuel := by
    intro entries' hentries
    have hlength := hfuel entries' hentries
    omega
  obtain ⟨others, hothers⟩ : ∃ others, (entries :: more).flatMap mappingItem ++ [Token.blockEnd]
      = .blockEntry :: others := ⟨_, rfl⟩
  obtain ⟨tokens, anchors, handles⟩ := s
  obtain rfl : tokens = .blockMappingStart :: .key :: .scalar key true :: .value ::
      .blockEntry :: others := by
    rw [← hothers]
    exact h.trans (by simp)
  have hsequence : node true true (fuel + 1) ⟨.blockEntry :: others, anchors, commonHandles⟩
      = some (.sequence none ((entries :: more).map mappingNode),
          ⟨[.blockEnd], anchors, commonHandles⟩) := by
    rw [node_of_level rfl, levelItems_of_mappings hothers.symm hbound (by omega)]
    rfl
  have hroot : node true false (fuel + 5)
        ⟨.blockMappingStart :: .key :: .scalar key true :: .value :: .blockEntry :: others, anchors,
          commonHandles⟩
      = some (.mapping none
          [(.scalar none none key true, .sequence none ((entries :: more).map mappingNode))],
          ⟨[], anchors, commonHandles⟩) := by
    rw [node_of_mapping rfl, blockEntries_of_key rfl (by simp)]
    simp only [hsequence]
    rfl
  change ((node true false (fuel + 5) ⟨_, anchors, commonHandles⟩).bind fun (root, s) =>
    (close (fuel + 5) s).bind fun (_, s) => some (some root, s)).map (·.1) = _
  rw [hroot]
  rfl

theorem length_scalarEntries (entries : List (List Char × List Char × Bool)) :
    (entries.flatMap scalarEntry).length = 4 * entries.length := by
  induction entries with
  | nil => rfl
  | cons entry entries ih =>
    rw [List.flatMap_cons, List.length_append, ih, List.length_cons, scalarEntry]
    simp only [List.length_cons, List.length_nil]
    omega

theorem length_le_items {items : List (List (List Char × List Char × Bool))} :
    items.length ≤ (items.flatMap mappingItem).length ∧ ∀ entries ∈ items,
      items.length + entries.length ≤ (items.flatMap mappingItem).length := by
  induction items with
  | nil => simp
  | cons entries items ih =>
    have hlength : (mappingItem entries).length = 4 * entries.length + 3 := by
      rw [mappingItem, List.length_append, List.length_append, length_scalarEntries]
      simp only [List.length_cons, List.length_nil]
      omega
    rw [List.flatMap_cons, List.length_append, hlength, List.length_cons]
    refine ⟨by omega, ?_⟩
    rintro more hmore
    rcases List.mem_cons.1 hmore with rfl | hmore
    · omega
    · have hbound := ih.2 more hmore
      omega

/-- There is fuel enough for such a document. -/
theorem ofTokens?_of_mappings {key : List Char}
    {items : List (List (List Char × List Char × Bool))} (hne : items ≠ []) :
    Node.ofTokens? ([.blockMappingStart, .key, .scalar key true, .value]
        ++ items.flatMap mappingItem ++ [.blockEnd])
      = some (some (.mapping none
          [(.scalar none none key true, .sequence none (items.map mappingNode))])) := by
  refine document_of_mappings hne rfl fun entries hentries => ?_
  have hbound := length_le_items.2 entries hentries
  simp only [List.length_append, List.length_cons, List.length_nil]
  omega

end StubManager.Yaml.Compose
