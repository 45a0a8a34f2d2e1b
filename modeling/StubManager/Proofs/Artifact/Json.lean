import StubManager.Proofs.Artifact.Application
import StubManager.Proofs.ListText.Json

/-!
# Lists in JSON documents

A change set of plain names, applied to the array of a JSON document, gives a JSON document that
differs in the array only (`apply_json`), with one exception: a list on several lines that has no
elements gets its first one with a comma behind it, which JSON does not have.
-/

namespace StubManager

open Json

namespace ListText

variable {list : ListText}

theorem IsJson.foldl_remove (h : list.IsJson) (hbare : list.EndsBare) (names : List String) :
    (names.foldl ListText.remove list).IsJson ∧ (names.foldl ListText.remove list).EndsBare := by
  induction names generalizing list with
  | nil => exact ⟨h, hbare⟩
  | cons name names ih => exact ih (h.remove name) (hbare.remove h.tiled name)

theorem IsJson.extend (h : list.IsJson) {name : String}
    (hname : ∀ c ∈ name.toList, 0x20 ≤ c.toNat) : (list.extend name).IsJson := by
  unfold ListText.extend
  split
  · exact h
  · rw [h.style_eq]
    exact h.append (isJsonString_encode hname)

theorem IsJson.foldl_extend (h : list.IsJson) {names : List String}
    (hnames : ∀ name ∈ names, ∀ c ∈ name.toList, 0x20 ≤ c.toNat) :
    (names.foldl ListText.extend list).IsJson := by
  induction names generalizing list with
  | nil => exact h
  | cons name names ih =>
    rw [List.forall_mem_cons] at hnames
    exact ih (h.extend hnames.1) hnames.2

/-- Whether a list has a line break between its brackets and nothing to show what follows its
elements. -/
def OpensLines (list : ListText) : Prop := list.elements = [] ∧ '\n' ∈ list.trail

instance (list : ListText) : Decidable list.OpensLines :=
  inferInstanceAs (Decidable (list.elements = [] ∧ '\n' ∈ list.trail))

theorem endsBare_extend_iff (list : ListText) (name : String) :
    (list.extend name).EndsBare ↔ list.EndsBare ∧ ¬ list.OpensLines := by
  unfold extend
  split
  · next hmem =>
    have hne : list.elements ≠ [] := by
      intro hnil
      simp [values, hnil] at hmem
    exact ⟨fun h => ⟨h, fun hopens => hne hopens.1⟩, fun h => h.1⟩
  · exact endsBare_append_iff list _

theorem elements_extend_ne_nil (list : ListText) (name : String) :
    (list.extend name).elements ≠ [] := by
  unfold extend
  split
  · next hmem =>
    intro hnil
    simp [values, hnil] at hmem
  · intro hnil
    have hitems := items_append list (list.style.encode name.toList)
    simp [items, hnil] at hitems

/-- Only the first name that is put into a list decides about the comma. -/
theorem endsBare_foldl_extend_iff (list : ListText) (names : List String) :
    (names.foldl ListText.extend list).EndsBare ↔
      list.EndsBare ∧ ¬ (names ≠ [] ∧ list.OpensLines) := by
  induction names generalizing list with
  | nil => simp
  | cons name names ih =>
    have hnext : ¬ (list.extend name).OpensLines := fun h => list.elements_extend_ne_nil name h.1
    rw [List.foldl_cons, ih, endsBare_extend_iff]
    simp [hnext]

end ListText

namespace Artifact

open ListText

/-- Whether the text of an artifact is a JSON document in which its list is the value of a member,
and the array of `values`. With another value in the place of the array, the document is
`document` of that value. -/
structure HoldsJson (artifact : Artifact) (list : ListText) (document : Value → Value)
    (values : List Value) : Prop where
  located : artifact.locate = .ok list
  member : ∃ rest spot behind,
    ReadsAround artifact.text.toList (fun v => .value (document v)) rest spot behind ∧
      skip rest = [] ∧ skip spot = '[' :: (list.inner ++ list.rest) ∧
      Reads spot (.value (.array values)) behind

/-- The only member of an object. -/
theorem HoldsJson.of_member {artifact : Artifact} {list : ListText}
    {text key spot behind : List Char} {values : List Value} (hlocate : artifact.locate = .ok list)
    (htext : artifact.text.toList = '\x7b' :: '"' :: text)
    (hkey : inside? text = some (key, ':' :: spot))
    (hspot : skip spot = '[' :: (list.inner ++ list.rest))
    (hread : Reads spot (.value (.array values)) behind) (hclose : skip behind = ['\x7d']) :
    artifact.HoldsJson list (fun v => .object [(key, v)]) values := by
  refine ⟨hlocate, [], spot, behind, ?_, rfl, hspot, hread⟩
  rw [htext]
  exact .object (.onlyMember (.here hkey (skip_cons_of_not rfl _)) hclose)

/-- A document with one array for another. -/
theorem HoldsJson.withList {artifact : Artifact} {list : ListText} {document : Value → Value}
    {values : List Value} (h : artifact.HoldsJson list document values)
    (hplain : ∀ v ∈ values, ∃ inside, v = .string inside ∧ '\\' ∉ inside) :
    list.IsJson ∧ list.EndsBare ∧ list.items.map jsonItem = values ∧
      ∀ list' : ListText, list'.IsJson → list'.head = list.head → list'.rest = list.rest →
        (list'.EndsBare → Value.parse? (artifact.withList list').text.toList
          = some (document (.array (list'.items.map jsonItem)))) ∧
        (¬ list'.EndsBare → Value.parse? (artifact.withList list').text.toList = none) := by
  obtain ⟨rest, spot, behind, haround, hrest, hspot, hread⟩ := h.member
  obtain ⟨htiled, hrender, -⟩ := locate_eq_ok_iff.1 h.located
  obtain ⟨blanks, hblanks, hspot'⟩ := exists_blanks spot
  rw [hspot] at hspot'
  rw [hspot', reads_blanks_iff hblanks] at hread
  obtain ⟨hjson, hbare, hclose, hitems⟩ := IsJson.of_reads hplain htiled hread
  refine ⟨hjson, hbare, hitems, fun list' hjson' hhead hrest' => ?_⟩
  -- The list stands in the place of the member.
  obtain ⟨front, htext, hfront⟩ := haround.exists_front
  have hheadeq : list.head = front ++ blanks ++ ['['] := by
    rw [hspot', ← hrender, ListText.render, List.append_assoc] at htext
    refine List.append_cancel_right (htext.trans ?_)
    simp
  have hrender' : (artifact.withList list').text.toList
      = front ++ (blanks ++ '[' :: (list'.inner ++ list'.rest)) := by
    rw [Artifact.withList, String.toList_ofList, ListText.render, hhead, hheadeq]
    simp
  rw [hrender']
  constructor
  · intro hbare'
    refine parse?_eq_some_iff.2 ⟨rest, (hfront _).reads ?_, hrest⟩
    exact (hjson'.reads hbare' (hrest'.trans hclose)).of_blanks hblanks
  · intro hclosed
    refine Option.eq_none_iff_forall_ne_some.2 fun v hv => ?_
    obtain ⟨rest', hv, -⟩ := parse?_eq_some_iff.1 hv
    refine (hfront _).rejects (fun v' rest'' hv' => ?_) .null v rest' hv
    rw [reads_blanks_iff hblanks] at hv'
    exact hjson'.not_reads hclosed v' rest'' hv'

/-- A change set of plain names without control characters gives a document with the remaining
strings and the new ones in the array, unless it adds to a list without elements that has a line
break between its brackets. -/
theorem apply_json {artifact : Artifact} {list : ListText} {document : Value → Value}
    {values : List Value} {add remove : List String}
    (h : artifact.HoldsJson list document values)
    (hplain : ∀ v ∈ values, ∃ inside, v = .string inside ∧ '\\' ∉ inside)
    (hvalid : (ChangeSet.ofNames add remove).validate = .ok ())
    (hadd : ∀ name ∈ add, ∀ c ∈ name.toList, 0x20 ≤ c.toNat) :
    Value.parse? artifact.text.toList = some (document (.array values)) ∧
      ∃ strings result, values.mapM Value.string? = some strings ∧
        artifact.apply (.ofNames add remove) = .ok result ∧
        (¬ (add ≠ [] ∧ (remove.foldl ListText.remove list).OpensLines) →
          ∃ values', Value.parse? result.text.toList = some (document (.array values')) ∧
            values'.mapM Value.string? = some (editValues add remove strings)) ∧
        (add ≠ [] ∧ (remove.foldl ListText.remove list).OpensLines →
          Value.parse? result.text.toList = none) := by
  obtain ⟨hjson, hbare, hitems, hdocument⟩ := h.withList hplain
  have hbreak : ∀ name ∈ add, '\n' ∈ name.toList →
      name ∈ (remove.foldl ListText.remove list).values :=
    fun name hname hmem => absurd (hadd name hname _ hmem) (by decide)
  obtain ⟨hjson', hbare'⟩ := hjson.foldl_remove hbare remove
  obtain ⟨hhead, hrest⟩ := list.foldl_remove_frame remove
  obtain ⟨hhead', hrest'⟩ := foldl_frame extend_frame (remove.foldl ListText.remove list) add
  have hends := endsBare_foldl_extend_iff (remove.foldl ListText.remove list) add
  have hresult := hjson'.foldl_extend hadd
  have hvalues := (hjson'.tiled.foldl_extend hbreak).2.1
  rw [hjson.tiled.values_foldl_remove] at hvalues
  obtain ⟨-, hlocate⟩ := foldlM_removeValue h.located remove
  obtain ⟨hrun, -⟩ := foldlM_addNode hlocate hbreak
  obtain ⟨hread, hnone⟩ := hdocument _ hresult (hhead'.trans hhead) (hrest'.trans hrest)
  refine ⟨?_, list.values, _, hitems ▸ hjson.mapM_string?,
    (apply_ofNames h.located hvalid).trans hrun, fun hopens => ?_, fun hopens => ?_⟩
  · have hself := (hdocument list hjson rfl rfl).1 hbare
    rwa [withList_of_locate h.located, hitems] at hself
  · refine ⟨_, hread (hends.2 ⟨hbare', hopens⟩), ?_⟩
    rw [hresult.mapM_string?, hvalues, editValues]
  · exact hnone fun hbare'' => (hends.1 hbare'').2 hopens

/-- One string for another. -/
theorem apply_json_of_replacement :
    ∃ result values',
      apply { text := "\x7b\"a\": [\"x\", \"y\"]\x7d", anchor := "a", origin := "file" }
        (.ofNames ["z"] ["x"]) = .ok result ∧
      Value.parse? result.text.toList = some (.object [(['a'], .array values')]) ∧
      values'.mapM Value.string? = some ["y", "z"] := by
  have hholds : HoldsJson
      { text := "\x7b\"a\": [\"x\", \"y\"]\x7d", anchor := "a", origin := "file" }
      { head := "\x7b\"a\": [".toList
        elements := [{ raw := "\"x\"".toList, comma := true },
          { lead := [' '], raw := "\"y\"".toList, comma := false }]
        trail := []
        rest := "]\x7d".toList }
      (fun v => .object [(['a'], v)]) [.string ['x'], .string ['y']] := by
    refine @HoldsJson.of_member _ _ "a\": [\"x\", \"y\"]\x7d".toList ['a']
      [' ', '[', '"', 'x', '"', ',', ' ', '"', 'y', '"', ']', '\x7d'] ['\x7d'] _
      (by decide +kernel) (by decide +kernel) (by decide +kernel) (by decide +kernel) ?_ rfl
    exact .blank rfl (.array (.item (.string rfl) rfl (.lastItem (.blank rfl (.string rfl)) rfl)))
  obtain ⟨-, strings, result, hstrings, happly, hread, -⟩ :=
    apply_json hholds (by simp)
      (show (ChangeSet.ofNames ["z"] ["x"]).validate = .ok () by decide +kernel) (by simp)
  have hstrings' : [Value.string ['x'], .string ['y']].mapM Value.string? = some ["x", "y"] := by
    rfl
  rw [hstrings'] at hstrings
  cases hstrings
  obtain ⟨values', hparse, hvalues⟩ := hread (by decide +kernel)
  exact ⟨result, values', happly, hparse, hvalues⟩

/-- A document that is none any more behind one addition. -/
theorem apply_json_of_lines :
    ∃ artifact list document values result, HoldsJson artifact list document values ∧
      (∀ v ∈ values, ∃ inside, v = .string inside ∧ '\\' ∉ inside) ∧
      (ChangeSet.ofNames ["x"] []).validate = .ok () ∧
      Value.parse? artifact.text.toList = some (document (.array values)) ∧
      artifact.apply (.ofNames ["x"] []) = .ok result ∧
      Value.parse? result.text.toList = none := by
  have hholds : HoldsJson { text := "\x7b\"a\": [\n]\x7d", anchor := "a", origin := "file" }
      { head := "\x7b\"a\": [".toList, elements := [], trail := ['\n'], rest := "]\x7d".toList }
      (fun v => .object [(['a'], v)]) [] := by
    exact @HoldsJson.of_member _ _ "a\": [\n]\x7d".toList ['a'] [' ', '[', '\n', ']', '\x7d'] ['\x7d']
      _ (by decide +kernel) (by decide +kernel) (by decide +kernel) (by decide +kernel)
      (.blank rfl (.noItems rfl)) rfl
  have hbefore : Value.parse? "\x7b\"a\": [\n]\x7d".toList
      = some (.object [(['a'], .array [])]) := by
    obtain ⟨rest, spot, behind, haround, hrest, -, hread⟩ := hholds.member
    exact parse?_eq_some_iff.2 ⟨rest, haround.reads hread, hrest⟩
  have hafter : (Value.parse? "\x7b\"a\": [\n    \"x\",\n]\x7d".toList).isNone := by decide +kernel
  exact ⟨_, _, _, _, { text := "\x7b\"a\": [\n    \"x\",\n]\x7d", anchor := "a", origin := "file" },
    hholds, by simp, by decide +kernel, hbefore, by decide +kernel,
    Option.isNone_iff_eq_none.1 hafter⟩

end Artifact

end StubManager
