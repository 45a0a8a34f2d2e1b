import StubManager.Proofs.ListText.Editing
import StubManager.Proofs.Yaml.Sequence

/-!
# A name more in a list of a YAML text

A list that YAML reads is still read with an item more behind its last one (`InYaml.append`), and the
settings in the text stay what they are (`ProjectConfig.parse?_append`).
-/

namespace StubManager

open Text Yaml

namespace ListText

/-- The ways in which an item is put behind the last one: the first item of a list on several lines
or on one, and another item on a line of its own or on the line of the last one. -/
theorem append_induction {list : ListText} {fragment : List Char} {motive : ListText → Prop}
    (firstOfLines : ∀ indent, list.elements = [] → isBlankText indent →
      motive { list with elements := [{ lead := '\n' :: indent, raw := fragment, comma := true }] })
    (firstOfLine : list.elements = [] →
      motive { list with elements := [{ raw := fragment, comma := false }] })
    (lines : ∀ front last indent, list.elements = front ++ [last] → '\n' ∈ list.trail →
      isBlankText indent → motive { list with
        elements := (front ++ [{ last with comma := true }]) ++
          [{ lead := firstLine list.trail ++ '\n' :: indent, raw := fragment, comma := last.comma }]
        trail := fromFirstBreak list.trail })
    (line : ∀ front last lead, list.elements = front ++ [last] → lead = [' '] ∨ lead = last.lead →
      motive { list with
        elements := (front ++ [{ last with tail := [], comma := true }]) ++
          [{ lead, raw := fragment, tail := last.tail, comma := last.comma }] }) :
    motive (list.append fragment) := by
  rcases List.eq_nil_or_concat list.elements with hnil | ⟨front, last, hlast⟩
  · rw [append.eq_def, hnil]
    simp only [List.getLast?_nil]
    split
    · exact firstOfLines _ hnil (isBlankText_append (isBlankText_indentation _) rfl)
    · exact firstOfLine hnil
  · rw [List.concat_eq_append] at hlast
    by_cases hbreak : '\n' ∈ list.trail
    · rw [append_of_lines hlast hbreak]
      exact lines front last _ hlast hbreak (list.isBlankText_itemIndentation front last)
    · rw [append_of_line hlast hbreak]
      refine line front last _ hlast ?_
      unfold inlineSeparator
      split
      · exact .inl rfl
      · exact .inr rfl

theorem length_render_append (list : ListText) (fragment : List Char) :
    list.render.length + fragment.length ≤ (list.append fragment).render.length := by
  refine append_induction
    (motive := fun list' => list.render.length + fragment.length ≤ list'.render.length)
    ?firstOfLines ?firstOfLine ?lines ?line
  case firstOfLines =>
    intro indent hnil _
    simp only [render, inner, hnil, renderElements_cons, renderElements_nil, Element.render,
      Element.closing, List.length_append, List.length_cons, List.length_nil]
    omega
  case firstOfLine =>
    intro hnil
    simp only [render, inner, hnil, renderElements_cons, renderElements_nil, Element.render,
      Element.closing, List.length_append, List.length_nil]
    omega
  case lines =>
    intro front last indent hlast _ _
    have htrail := congrArg List.length (firstLine_append_fromFirstBreak list.trail)
    have hcomma : (if last.comma then [','] else []).length ≤ 1 := by split <;> simp
    simp only [render, inner, hlast, renderElements_append, renderElements_cons, renderElements_nil,
      Element.render, Element.closing, List.length_append, List.length_cons, List.length_nil,
      if_true] at htrail ⊢
    omega
  case line =>
    intro front last lead hlast _
    have hcomma : (if last.comma then [','] else []).length ≤ 1 := by split <;> simp
    simp only [render, inner, hlast, renderElements_append, renderElements_cons, renderElements_nil,
      Element.render, Element.closing, List.length_append, List.length_cons, List.length_nil,
      if_true]
    omega

/-- Whether all characters of an element are of one kind. -/
def Element.All (p : Char → Prop) (e : Element) : Prop :=
  (∀ ch ∈ e.lead, p ch) ∧ (∀ ch ∈ e.raw, p ch) ∧ ∀ ch ∈ e.tail, p ch

theorem forall_mem_render {p : Char → Prop} (hcomma : p ',') {list : ListText} :
    (∀ ch ∈ list.render, p ch) ↔ (∀ ch ∈ list.head, p ch) ∧ (∀ e ∈ list.elements, Element.All p e) ∧
      (∀ ch ∈ list.trail, p ch) ∧ ∀ ch ∈ list.rest, p ch := by
  have helement (e : Element) : (∀ ch ∈ e.render, p ch) ↔ Element.All p e := by
    have hclosing : ∀ ch ∈ (if e.comma then [','] else []), p ch := by split <;> simp [hcomma]
    simp only [Element.render, Element.closing, List.forall_mem_append, Element.All]
    tauto
  have helements : (∀ ch ∈ renderElements list.elements, p ch)
      ↔ ∀ e ∈ list.elements, Element.All p e := by
    simp only [renderElements, List.mem_flatMap, ← helement]
    constructor
    · intro h e he ch hch
      exact h ch ⟨e, he, hch⟩
    · rintro h ch ⟨e, he, hch⟩
      exact h e he ch hch
  simp only [render, inner, List.forall_mem_append, helements]
  tauto

/-- An addition brings nothing but the item, blanks, a line feed and commas. -/
theorem forall_mem_render_append {p : Char → Prop} (hcomma : p ',') (hbreak : p '\n')
    (hblank : ∀ ch, isSpaceOrTab ch → p ch) {list : ListText} (h : ∀ ch ∈ list.render, p ch)
    {fragment : List Char} (hfragment : ∀ ch ∈ fragment, p ch) :
    ∀ ch ∈ (list.append fragment).render, p ch := by
  obtain ⟨hhead, helements, htrail, hrest⟩ := (forall_mem_render hcomma).1 h
  have hindent {indent : List Char} (h : isBlankText indent) : ∀ ch ∈ indent, p ch :=
    fun ch hch => hblank ch (List.all_eq_true.1 h ch hch)
  refine append_induction (motive := fun list' => ∀ ch ∈ list'.render, p ch)
    ?firstOfLines ?firstOfLine ?lines ?line
  case firstOfLines =>
    intro indent _ hindented
    refine (forall_mem_render hcomma).2 ⟨hhead, List.forall_mem_singleton.2 ?_, htrail, hrest⟩
    exact ⟨List.forall_mem_cons.2 ⟨hbreak, hindent hindented⟩, hfragment, by simp⟩
  case firstOfLine =>
    intro _
    refine (forall_mem_render hcomma).2 ⟨hhead, List.forall_mem_singleton.2 ?_, htrail, hrest⟩
    exact ⟨by simp, hfragment, by simp⟩
  case lines =>
    intro front last indent hlast _ hindented
    rw [hlast, List.forall_mem_append, List.forall_mem_singleton] at helements
    rw [← firstLine_append_fromFirstBreak list.trail, List.forall_mem_append] at htrail
    refine (forall_mem_render hcomma).2 ⟨hhead, List.forall_mem_append.2
      ⟨List.forall_mem_append.2 ⟨helements.1, List.forall_mem_singleton.2 helements.2⟩,
        List.forall_mem_singleton.2 ⟨?_, hfragment, by simp⟩⟩, htrail.2, hrest⟩
    exact List.forall_mem_append.2
      ⟨htrail.1, List.forall_mem_cons.2 ⟨hbreak, hindent hindented⟩⟩
  case line =>
    intro front last lead hlast hlead
    rw [hlast, List.forall_mem_append, List.forall_mem_singleton] at helements
    obtain ⟨hfront, hlastLead, hlastRaw, hlastTail⟩ := helements
    refine (forall_mem_render hcomma).2 ⟨hhead, List.forall_mem_append.2
      ⟨List.forall_mem_append.2 ⟨hfront, List.forall_mem_singleton.2
        ⟨hlastLead, hlastRaw, by simp⟩⟩,
        List.forall_mem_singleton.2 ⟨?_, hfragment, hlastTail⟩⟩, htrail, hrest⟩
    rcases hlead with rfl | rfl
    · exact List.forall_mem_singleton.2 (hblank ' ' rfl)
    · exact hlastLead

end ListText

namespace Yaml

theorem FlowGap.of_isBlankText {text : List Char} (h : isBlankText text) : FlowGap text :=
  .of_spacing fun ch hch => by
    have hblank := List.all_eq_true.1 h ch hch
    simp only [isSpaceOrTab, Bool.or_eq_true, decide_eq_true_eq] at hblank
    rcases hblank with rfl | rfl <;> rfl

theorem CleanGap.nil : CleanGap [] := ⟨.nil, by simp, by simp⟩

/-- A gap can be cut at its first line feed. -/
theorem CleanGap.cut {gap : List Char} (h : CleanGap gap) (hbreak : '\n' ∈ gap) :
    FlowGap (firstLine gap ++ ['\n']) ∧ CleanGap (fromFirstBreak gap) := by
  have hgap := h.isFlowGap
  rw [← firstLine_append_break hbreak] at hgap
  obtain ⟨hfirst, hback⟩ := hgap.of_append_break
  refine ⟨hfirst, ?_, fun htab => h.tab ?_, ?_⟩
  · rw [fromFirstBreak_eq_cons hbreak]
    exact (FlowGap.cons_iff rfl).2 hback
  · exact (List.dropWhile_suffix _).subset htab
  · rw [fromFirstBreak_eq_cons hbreak, List.head?_cons]
    decide

/-- A list that can be read can be read with an item more. -/
theorem Legible.append {list : ListText} (helements : ∀ e ∈ list.elements, Legible e)
    (htrail : CleanGap list.trail) {fragment : List Char} (hitem : Item fragment) :
    (∀ e ∈ (list.append fragment).elements, Legible e) ∧ CleanGap (list.append fragment).trail := by
  refine ListText.append_induction
    (motive := fun list' => (∀ e ∈ list'.elements, Legible e) ∧ CleanGap list'.trail)
    ?firstOfLines ?firstOfLine ?lines ?line
  case firstOfLines =>
    intro indent _ hindent
    refine ⟨List.forall_mem_singleton.2 ⟨?_, hitem, .nil⟩, htrail⟩
    exact (FlowGap.cons_iff rfl).2 (.of_isBlankText hindent)
  case firstOfLine =>
    intro _
    exact ⟨List.forall_mem_singleton.2 ⟨.nil, hitem, .nil⟩, htrail⟩
  case lines =>
    intro front last indent hlast hbreak hindent
    rw [hlast, List.forall_mem_append, List.forall_mem_singleton] at helements
    obtain ⟨hfirst, hback⟩ := htrail.cut hbreak
    refine ⟨List.forall_mem_append.2 ⟨List.forall_mem_append.2 ⟨helements.1,
      List.forall_mem_singleton.2 ⟨helements.2.lead, helements.2.item, helements.2.tail⟩⟩,
      List.forall_mem_singleton.2 ⟨?_, hitem, .nil⟩⟩, hback⟩
    have hlead := hfirst.append (.of_isBlankText hindent)
    rwa [List.append_assoc, List.singleton_append] at hlead
  case line =>
    intro front last lead hlast hlead
    rw [hlast, List.forall_mem_append, List.forall_mem_singleton] at helements
    obtain ⟨hfront, hlastLead, hlastItem, hlastTail⟩ := helements
    refine ⟨List.forall_mem_append.2 ⟨List.forall_mem_append.2 ⟨hfront,
      List.forall_mem_singleton.2 ⟨hlastLead, hlastItem, .nil⟩⟩,
      List.forall_mem_singleton.2 ⟨?_, hitem, hlastTail⟩⟩, htrail⟩
    rcases hlead with rfl | rfl
    · exact .of_isBlankText rfl
    · exact hlastLead

theorem InYaml.append {list : ListText} (h : InYaml list) {fragment : List Char}
    (hitem : Item fragment) : InYaml (list.append fragment) := by
  obtain ⟨helements, htrail⟩ := Legible.append h.elements h.trail hitem
  exact ⟨by rw [ListText.head_append]; exact h.head, helements, htrail,
    by rw [ListText.rest_append]; exact h.rest⟩

/-- What is written between quotes may occur in a text. -/
theorem IsReadable.isAllowed_encode {style : QuoteStyle} {name : List Char} (h : IsReadable style name) :
    ∀ ch ∈ style.encode name, isAllowed ch := by
  intro ch hch
  simp only [QuoteStyle.encode, List.mem_cons, List.mem_append, List.not_mem_nil, or_false] at hch
  have hmark : isAllowed style.mark := by cases style <;> rfl
  rcases hch with rfl | hch | rfl
  · exact hmark
  · rcases QuoteStyle.mem_escape hch with hmem | rfl
    · exact isAllowed_of_isPrintable (h.1 ch hmem).1
    · rfl
  · exact hmark

end Yaml

open Yaml

/-- The settings in a text stay what they are where a name is added to a list in it. -/
theorem ProjectConfig.parse?_append {list : ListText} (h : InYaml list) (htiled : list.Tiled)
    {name : List Char} (hname : IsReadable list.style name) (hne : name ≠ []) {config : ProjectConfig}
    (hparse : ProjectConfig.parse? (String.ofList list.render) = some config) :
    ProjectConfig.parse? (String.ofList (list.append (list.style.encode name)).render)
      = some config := by
  rw [parse?_eq, Option.bind_eq_some_iff] at hparse
  obtain ⟨document, hdocument, hconfig⟩ := hparse
  have hallowed : ∀ ch ∈ list.render, isAllowed ch := by
    obtain ⟨tokens, htokens, -⟩ := Option.bind_eq_some_iff.1 hdocument
    rw [String.toList_ofList, tokens?] at htokens
    split at htokens
    · next hall => exact List.all_eq_true.1 hall
    · cases htokens
  have hline : '\n' ∉ name := fun hmem => absurd (hname.1 _ hmem).2 (by decide)
  have hlong : 3 ≤ (list.style.encode name).length := by
    obtain ⟨ch, more, rfl⟩ := List.exists_cons_of_ne_nil hne
    rw [QuoteStyle.encode, QuoteStyle.escape]
    split <;> simp
  have hlength := list.length_render_append (list.style.encode name)
  have hitems := congrArg List.length (list.items_append (list.style.encode name))
  rw [ListText.items, ListText.items, List.length_append, List.length_map, List.length_map,
    List.length_singleton] at hitems
  have hblank (ch : Char) (h : isSpaceOrTab ch) : isAllowed ch := by
    simp only [isSpaceOrTab, Bool.or_eq_true, decide_eq_true_eq] at h
    rcases h with rfl | rfl <;> rfl
  have hallowed' : ∀ ch ∈ (list.append (list.style.encode name)).render, isAllowed ch :=
    ListText.forall_mem_render_append (p := (isAllowed ·)) rfl rfl hblank hallowed
      hname.isAllowed_encode
  obtain ⟨document', hdocument', hthin⟩ :=
    Document.parse?_of_more h (h.append (.literal hname)) htiled
      (htiled.append (isItem_encode _ hline)) (ListText.head_append ..) (ListText.rest_append ..)
      hitems (by omega) hallowed' hdocument
  rw [parse?_eq, hdocument', Option.bind_some, ← ofDocument?_thin, ← hthin, ofDocument?_thin,
    hconfig]

end StubManager
