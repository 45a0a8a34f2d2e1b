import Mathlib.Data.List.TakeDrop
import StubManager.Proofs.ListText.Tiling

/-!
# Edits of tiled lists

What `ListText.remove` and `ListText.append` do to a tiled list: the list stays tiled
(`Tiled.remove`, `Tiled.append`), and of its items one is gone (`items_remove`) or one is new
(`items_append`). All others keep their text and their order. An item that cannot be read back
makes the list unreadable (`scan_append_error`).
-/

namespace StubManager

open Text

/-- What the text of an element stands for. -/
def valueOf (item : List Char) : String := Element.value { raw := item, comma := false }

@[simp] theorem valueOf_raw (e : Element) : valueOf e.raw = e.value := rfl

theorem literal?_encode (style : QuoteStyle) {name : String} (h : '\n' ∉ name.toList) :
    Element.literal? { raw := style.encode name.toList, comma := false }
      = some (style, style.escape name.toList) := by
  simp [Element.literal?, QuoteStyle.encode, QuoteStyle.ofMark?_mark,
    Literal.scan?_encode style name.toList [] h]

theorem valueOf_encode (style : QuoteStyle) {name : String} (h : '\n' ∉ name.toList) :
    valueOf (style.encode name.toList) = name := by
  simp [valueOf, Element.value, literal?_encode style h, Literal.unescape_escape]

namespace ListText

/-- The texts of the elements, in order. -/
def items (list : ListText) : List (List Char) := list.elements.map Element.raw

theorem values_eq_map_items (list : ListText) : list.values = list.items.map valueOf := by
  simp [values, items]

/-! ## Removal -/

/-- The list without the element `e`, in whose place a gap is left. -/
def joinAround (list : ListText) (before : List Element) (e : Element) (after : List Element)
    (gap : List Char) : ListText :=
  let (before, gap) := if e.comma then (before, gap) else dropLastComma before gap
  let (after, trail) := withGapAfter gap after list.trail
  { list with elements := before ++ after, trail }

/-- The ways in which an element goes: with its lines, with the gap up to the next element on its
line, with the gap from the previous element on its line, or alone. -/
theorem removeBetween_cases (list : ListText) (before : List Element) (e : Element)
    (after : List Element) :
    (standsAlone e (gapAfter after list.trail) ∧
      list.removeBetween before e after = list.joinAround before e after
        (throughLastBreak e.lead ++ (fromFirstBreak (gapAfter after list.trail)).drop 1)) ∨
    ¬ standsAlone e (gapAfter after list.trail) ∧
      ((∃ next more, after = next :: more ∧ '\n' ∉ e.closing ++ next.lead ∧
        list.removeBetween before e after
          = { list with elements := before ++ { next with lead := e.lead } :: more }) ∨
      (∃ front previous, before = front ++ [previous] ∧ after = [] ∧
        '\n' ∉ previous.closing ++ e.lead ∧
        list.removeBetween before e after
          = { list with
              elements := front ++ [{ previous with tail := e.tail, comma := e.comma }] }) ∨
      (∀ next more, after = next :: more → '\n' ∈ e.closing ++ next.lead) ∧
        (∀ front previous, before = front ++ [previous] → after = [] →
          '\n' ∈ previous.closing ++ e.lead) ∧
        list.removeBetween before e after
          = list.joinAround before e after (e.lead ++ gapAfter after list.trail)) := by
  rw [removeBetween.eq_def]
  by_cases hlines : standsAlone e (gapAfter after list.trail)
  · exact .inl ⟨hlines, by rw [if_pos hlines]; rfl⟩
  rw [if_neg hlines]
  refine .inr ⟨hlines, ?_⟩
  cases after with
  | cons next more =>
    by_cases hbreak : '\n' ∈ e.closing ++ next.lead
    · refine .inr (.inr ⟨by simp_all, by simp, ?_⟩)
      exact if_pos (List.contains_iff_mem.2 hbreak)
    · refine .inl ⟨next, more, rfl, hbreak, ?_⟩
      exact if_neg (mt List.contains_iff_mem.1 hbreak)
  | nil =>
    rcases List.eq_nil_or_concat before with rfl | ⟨front, previous, rfl⟩
    · exact .inr (.inr ⟨by simp, by simp, rfl⟩)
    · rw [List.concat_eq_append, List.getLast?_concat, List.dropLast_concat]
      by_cases hbreak : '\n' ∈ previous.closing ++ e.lead
      · refine .inr (.inr ⟨by simp, ?_, ?_⟩)
        · intro front' previous' heq _
          obtain ⟨-, hlast⟩ := List.append_inj' heq rfl
          rwa [← (List.cons.inj hlast).1]
        · exact if_pos (List.contains_iff_mem.2 hbreak)
      · refine .inr (.inl ⟨front, previous, rfl, rfl, hbreak, ?_⟩)
        exact if_neg (mt List.contains_iff_mem.1 hbreak)

/-! Leaving a gap in the place of an element keeps all other elements, but for the comma that the
element before it loses. -/

theorem items_joinAround (list : ListText) (before : List Element) (e : Element)
    (after : List Element) (gap : List Char) :
    (list.joinAround before e after gap).items
      = before.map Element.raw ++ after.map Element.raw := by
  have hbefore : (if e.comma then (before, gap) else dropLastComma before gap).1.map Element.raw
      = before.map Element.raw := by
    split
    · rfl
    · rcases List.eq_nil_or_concat before with rfl | ⟨front, previous, rfl⟩
      · rfl
      · simp [dropLastComma]
  have hafter : ∀ gap, (withGapAfter gap after list.trail).1.map Element.raw
      = after.map Element.raw := by
    cases after <;> intro gap <;> rfl
  simp only [joinAround, items, List.map_append, hbefore, hafter]

/-- What a tiled list says of the elements around one of them. -/
theorem Tiled.around {list : ListText} (h : list.Tiled) {before after : List Element}
    {e : Element} (helements : list.elements = before ++ e :: after) :
    (∀ x ∈ before, x.Tiled ∧ x.comma) ∧ e.Tiled ∧ (∀ x ∈ after, x.Tiled) ∧
      (∀ x ∈ (e :: after).dropLast, x.comma) := by
  have htiled := h.elements
  have hcomma := h.comma
  rw [helements, List.forall_mem_append, List.forall_mem_cons] at htiled
  rw [helements, List.dropLast_append_of_ne_nil (by simp), List.forall_mem_append] at hcomma
  exact ⟨fun x hx => ⟨htiled.1 x hx, hcomma.1 x hx⟩, htiled.2.1, htiled.2.2, hcomma.2⟩

/-- Elements closed by commas and tiled elements behind them make up a tiled list. -/
theorem Tiled.of_append {list : ListText} (front back : List Element)
    (helements : list.elements = front ++ back) (hfront : ∀ x ∈ front, x.Tiled ∧ x.comma)
    (hback : ∀ x ∈ back, x.Tiled) (hcomma : ∀ x ∈ back.dropLast, x.comma)
    (htrail : IsGap list.trail) (hrest : ∃ after, list.rest = ']' :: after) : list.Tiled := by
  refine ⟨?_, ?_, htrail, hrest⟩
  · rw [helements]
    exact List.forall_mem_append.2 ⟨fun x hx => (hfront x hx).1, hback⟩
  · rw [helements]
    cases back with
    | nil =>
      rw [List.append_nil]
      exact fun x hx => (hfront x (List.dropLast_subset _ hx)).2
    | cons x back =>
      rw [List.dropLast_append_of_ne_nil (by simp)]
      exact List.forall_mem_append.2 ⟨fun x hx => (hfront x hx).2, hcomma⟩

theorem Tiled.joinAround {list : ListText} (h : list.Tiled) {before after : List Element}
    {e : Element} (helements : list.elements = before ++ e :: after) {gap : List Char}
    (hgap : IsGap gap) : (list.joinAround before e after gap).Tiled := by
  obtain ⟨hbefore, he, hafter, hcomma⟩ := h.around helements
  cases after with
  | nil =>
    by_cases hclosed : e.comma
    · refine .of_append before [] ?_ hbefore (by simp) (by simp) ?_ h.rest
      · simp [ListText.joinAround, hclosed, withGapAfter]
      · simpa [ListText.joinAround, hclosed, withGapAfter] using hgap
    · rcases List.eq_nil_or_concat before with rfl | ⟨front, previous, rfl⟩
      · refine .of_append [] [] ?_ (by simp) (by simp) (by simp) ?_ h.rest
        · simp [ListText.joinAround, hclosed, dropLastComma, withGapAfter]
        · simpa [ListText.joinAround, hclosed, dropLastComma, withGapAfter] using hgap
      · rw [List.concat_eq_append, List.forall_mem_append, List.forall_mem_singleton] at hbefore
        obtain ⟨hfront, hprevious, -⟩ := hbefore
        refine .of_append front [{ previous with tail := [], comma := false }] ?_ hfront ?_
          (by simp) ?_ h.rest
        · simp [ListText.joinAround, hclosed, dropLastComma, withGapAfter]
        · exact List.forall_mem_singleton.2 ⟨hprevious.lead, hprevious.item, .nil, fun _ => rfl⟩
        · simpa [ListText.joinAround, hclosed, dropLastComma, withGapAfter]
            using hprevious.tail.append hgap
  | cons next more =>
    have hclosed : e.comma := hcomma e (by simp)
    rw [List.forall_mem_cons] at hafter
    refine .of_append before ({ next with lead := gap } :: more) ?_ hbefore ?_ ?_ ?_ h.rest
    · simp [ListText.joinAround, hclosed, withGapAfter]
    · exact List.forall_mem_cons.2 ⟨⟨hgap, hafter.1.item, hafter.1.tail, hafter.1.bare⟩, hafter.2⟩
    · cases more with
      | nil => simp
      | cons x more => simp_all
    · simpa [ListText.joinAround, hclosed, withGapAfter] using h.trail

/-- The gap that an element with lines of its own leaves behind. -/
theorem isGap_of_standsAlone {e : Element} {gap : List Char} (he : IsGap e.lead) (hgap : IsGap gap)
    (h : standsAlone e gap) : IsGap (throughLastBreak e.lead ++ (fromFirstBreak gap).drop 1) := by
  simp only [standsAlone, Bool.and_eq_true, List.contains_iff_mem] at h
  exact (he.throughLastBreak h.1.1.1.1).append (hgap.behindFirstBreak h.1.2)

theorem Tiled.gapAfter {list : ListText} (h : list.Tiled) {after : List Element}
    (hafter : ∀ x ∈ after, x.Tiled) : IsGap (ListText.gapAfter after list.trail) := by
  cases after with
  | nil => exact h.trail
  | cons next more => exact (hafter next (by simp)).lead

theorem Tiled.removeBetween {list : ListText} (h : list.Tiled) {before after : List Element}
    {e : Element} (helements : list.elements = before ++ e :: after) :
    (list.removeBetween before e after).Tiled ∧
      (list.removeBetween before e after).items
        = before.map Element.raw ++ after.map Element.raw := by
  obtain ⟨hbefore, he, hafter, hcomma⟩ := h.around helements
  have hgap := h.gapAfter hafter
  rcases list.removeBetween_cases before e after with ⟨hlines, heq⟩ | ⟨-, hcases⟩
  · rw [heq]
    exact ⟨h.joinAround helements (isGap_of_standsAlone he.lead hgap hlines), items_joinAround ..⟩
  rcases hcases with ⟨next, more, rfl, -, heq⟩ | ⟨front, previous, rfl, rfl, -, heq⟩ |
    ⟨-, -, heq⟩
  · rw [heq]
    rw [List.forall_mem_cons] at hafter
    refine ⟨.of_append _ _ rfl hbefore ?_ ?_ h.trail h.rest, by simp [items]⟩
    · exact List.forall_mem_cons.2
        ⟨⟨he.lead, hafter.1.item, hafter.1.tail, hafter.1.bare⟩, hafter.2⟩
    · cases more with
      | nil => simp
      | cons x more => simp_all
  · rw [heq]
    rw [List.forall_mem_append, List.forall_mem_singleton] at hbefore
    obtain ⟨hfront, hprevious, -⟩ := hbefore
    refine ⟨.of_append _ _ rfl hfront (List.forall_mem_singleton.2 ?_) (by simp) h.trail h.rest,
      by simp [items]⟩
    exact ⟨hprevious.lead, hprevious.item, he.tail, he.bare⟩
  · rw [heq]
    exact ⟨h.joinAround helements (he.lead.append hgap), items_joinAround ..⟩

theorem remove_of_not_mem {list : ListText} {value : String} (h : value ∉ list.values) :
    list.remove value = list := by
  have hall : ∀ x ∈ list.elements, (x.value != value) = true := by
    intro x hx
    exact bne_iff_ne.2 fun heq => h (heq ▸ List.mem_map_of_mem hx)
  rw [remove, List.span_eq_takeWhile_dropWhile, List.dropWhile_eq_nil_iff.2 hall]

/-- The first element of a value parts the others. -/
theorem span_of_first {elements before after : List Element} {e : Element} {name : String}
    (helements : elements = before ++ e :: after) (hvalue : e.value = name)
    (hbefore : ∀ x ∈ before, x.value ≠ name) :
    elements.span (·.value != name) = (before, e :: after) := by
  have hkeep : ∀ x ∈ before, (x.value != name) = true := fun x hx => bne_iff_ne.2 (hbefore x hx)
  rw [helements, List.span_eq_takeWhile_dropWhile, List.takeWhile_append_of_pos hkeep,
    List.dropWhile_append_of_pos hkeep]
  simp [hvalue]

/-- Removing a value takes out the first item that stands for it, and nothing else. -/
theorem Tiled.remove {list : ListText} (h : list.Tiled) (value : String) :
    (list.remove value).Tiled ∧
      (list.remove value).items = list.items.eraseP (valueOf · == value) := by
  have hspan := List.span_eq_takeWhile_dropWhile (·.value != value) list.elements
  have hcat := List.takeWhile_append_dropWhile (p := (·.value != value)) (l := list.elements)
  have hbefore : ∀ x ∈ list.elements.takeWhile (·.value != value), x.value ≠ value :=
    fun x hx => by simpa using List.mem_takeWhile_imp hx
  have hnot := List.head?_dropWhile_not (·.value != value) list.elements
  rw [ListText.remove, hspan]
  generalize list.elements.takeWhile (·.value != value) = before at *
  cases hdrop : list.elements.dropWhile (·.value != value) with
  | nil =>
    rw [hdrop, List.append_nil] at hcat
    refine ⟨h, (List.eraseP_of_forall_not fun item hitem => ?_).symm⟩
    obtain ⟨x, hx, rfl⟩ := List.mem_map.1 hitem
    simpa using hbefore x (hcat ▸ hx)
  | cons e after =>
    rw [hdrop] at hcat hnot
    obtain ⟨htiled, hitems⟩ := h.removeBetween hcat.symm
    refine ⟨htiled, ?_⟩
    rw [hitems, items, ← hcat, List.map_append, List.map_cons, List.eraseP_append_right,
      List.eraseP_cons_of_pos]
    · simpa using hnot
    · intro item hitem
      obtain ⟨x, hx, rfl⟩ := List.mem_map.1 hitem
      simpa using hbefore x hx

/-- What holds of the list without any one of its elements holds after a removal. -/
theorem remove_induction {list : ListText} {motive : ListText → Prop}
    (hlist : motive list)
    (hremove : ∀ before e after, list.elements = before ++ e :: after →
      motive (list.removeBetween before e after)) (value : String) :
    motive (list.remove value) := by
  rw [ListText.remove]
  split
  · exact hlist
  · next before e after heq =>
    have hspan := List.span_eq_takeWhile_dropWhile (·.value != value) list.elements
    rw [heq] at hspan
    obtain ⟨hbefore, hafter⟩ := Prod.mk.inj hspan
    refine hremove before e after ?_
    rw [hbefore, hafter, List.takeWhile_append_dropWhile]

/-! ## Addition -/

theorem items_append (list : ListText) (fragment : List Char) :
    (list.append fragment).items = list.items ++ [fragment] := by
  rw [append.eq_def]
  rcases List.eq_nil_or_concat list.elements with hnil | ⟨front, last, hlast⟩
  · rw [hnil]
    simp only [List.getLast?_nil]
    split <;> simp [items, hnil]
  · rw [List.concat_eq_append] at hlast
    rw [hlast]
    simp only [List.getLast?_concat, List.dropLast_concat]
    split <;> simp [items, hlast]

/-- Where the closing bracket has a line of its own, an element is put on a line above it. -/
theorem append_of_lines {list : ListText} {front : List Element} {last : Element}
    (helements : list.elements = front ++ [last]) (hbreak : '\n' ∈ list.trail)
    (fragment : List Char) :
    list.append fragment
      = { list with
          elements := (front ++ [{ last with comma := true }]) ++
            [{ lead := firstLine list.trail ++ '\n' :: list.itemIndentation front last,
               raw := fragment, comma := last.comma }]
          trail := fromFirstBreak list.trail } := by
  rw [append.eq_def, helements]
  simp [hbreak]

/-- Otherwise it is put on the line of the last element. -/
theorem append_of_line {list : ListText} {front : List Element} {last : Element}
    (helements : list.elements = front ++ [last]) (hbreak : '\n' ∉ list.trail)
    (fragment : List Char) :
    list.append fragment
      = { list with
          elements := (front ++ [{ last with tail := [], comma := true }]) ++
            [{ lead := inlineSeparator front last, raw := fragment, tail := last.tail,
               comma := last.comma }] } := by
  rw [append.eq_def, helements]
  simp [hbreak]

theorem isGap_indentation (line : List Char) : IsGap (indentation line) :=
  .of_isBlankText List.all_takeWhile

theorem isBlankText_itemIndentation (list : ListText) (before : List Element) (last : Element) :
    isBlankText (list.itemIndentation before last) := by
  unfold itemIndentation
  dsimp only
  split
  · assumption
  · exact isBlankText_append (isBlankText_indentation _) rfl

theorem not_mem_inlineSeparator (before : List Element) (last : Element) :
    '\n' ∉ inlineSeparator before last := by
  unfold inlineSeparator
  split
  · decide
  · simp_all

theorem isGap_itemIndentation (list : ListText) (before : List Element) (last : Element) :
    IsGap (list.itemIndentation before last) :=
  .of_isBlankText (list.isBlankText_itemIndentation before last)

theorem isGap_inlineSeparator (before : List Element) {last : Element} (h : IsGap last.lead) :
    IsGap (inlineSeparator before last) := by
  unfold inlineSeparator
  split
  · exact .of_isBlankText rfl
  · exact h

/-- The list that is complete up to the place where `append` puts an element, and the text behind
that element. -/
theorem Tiled.append_cases {list : ListText} (h : list.Tiled) (fragment : List Char) :
    ∃ front lead tail comma trail, (∀ x ∈ front, x.Tiled ∧ x.comma) ∧ IsGap lead ∧ IsGap tail ∧
      (comma = false → tail = []) ∧ IsGap trail ∧
      list.append fragment
        = { list with elements := front ++ [{ lead, raw := fragment, tail, comma }], trail } := by
  rw [append.eq_def]
  rcases List.eq_nil_or_concat list.elements with hnil | ⟨front, last, hlast⟩
  · rw [hnil]
    simp only [List.getLast?_nil]
    split
    · exact ⟨[], _, [], true, list.trail, by simp,
        .blank rfl ((isGap_indentation _).append (.of_isBlankText rfl)), .nil, by simp, h.trail,
        rfl⟩
    · exact ⟨[], [], [], false, list.trail, by simp, .nil, .nil, by simp, h.trail, rfl⟩
  · rw [List.concat_eq_append] at hlast
    have htiled := h.elements
    have hcomma := h.comma
    rw [hlast, List.forall_mem_append, List.forall_mem_singleton] at htiled
    rw [hlast, List.dropLast_concat] at hcomma
    obtain ⟨hfront, hlead, hitem, htail, hbare⟩ := htiled
    have hclosed : ∀ tail, IsGap tail →
        ∀ x ∈ front ++ [{ last with tail, comma := true }], x.Tiled ∧ x.comma := by
      intro tail htail
      refine List.forall_mem_append.2 ⟨fun x hx => ⟨hfront x hx, hcomma x hx⟩, ?_⟩
      exact List.forall_mem_singleton.2 ⟨⟨hlead, hitem, htail, by simp⟩, rfl⟩
    rw [hlast]
    simp only [List.getLast?_concat, List.dropLast_concat]
    split
    · next hbreak =>
      have hbreak := List.contains_iff_mem.1 hbreak
      refine ⟨_, firstLine list.trail ++ '\n' :: list.itemIndentation front last, [], last.comma, _,
        hclosed last.tail htail, ?_, .nil, fun _ => rfl, h.trail.fromFirstBreak hbreak, by simp⟩
      have := (h.trail.firstLine_break hbreak).append (list.isGap_itemIndentation front last)
      rwa [List.append_assoc, List.singleton_append] at this
    · exact ⟨_, _, last.tail, last.comma, list.trail, hclosed [] .nil,
        isGap_inlineSeparator front hlead, htail, hbare, h.trail, by simp⟩

theorem Tiled.append {list : ListText} (h : list.Tiled) {fragment : List Char}
    (hfragment : IsItem fragment) : (list.append fragment).Tiled := by
  obtain ⟨front, lead, tail, comma, trail, hfront, hlead, htail, hbare, htrail, heq⟩ :=
    h.append_cases fragment
  rw [heq]
  exact .of_append _ _ rfl hfront
    (List.forall_mem_singleton.2 ⟨hlead, hfragment, htail, hbare⟩) (by simp) htrail h.rest

/-- A list cannot be read any more behind an item that starts with a quote and does not end. -/
theorem scan_append_error {list : ListText} (h : list.Tiled) (style : QuoteStyle)
    {name : List Char} (hname : '\n' ∈ name) :
    ∃ fault, ListText.scan list.head
      ((list.append (style.encode name)).inner ++ list.rest) = .error fault := by
  obtain ⟨front, lead, tail, comma, trail, hfront, hlead, -, -, -, heq⟩ :=
    h.append_cases (style.encode name)
  -- Up to the new item the text is that of a tiled list.
  have hupto : Tiled { list with elements := front, trail := lead } :=
    .of_append _ [] (List.append_nil _).symm hfront (by simp) (by simp) hlead h.rest
  obtain ⟨segments, last, -, -, -, hlexed, htext, -⟩ := hupto.exists_pieces
  obtain ⟨fault, hfault⟩ := scan_error_of_unterminated list.head hlexed
    (Literal.scan?_encode_eq_none style hname
      ((if comma then tail ++ [','] else tail) ++ trail ++ list.rest))
  refine ⟨fault, ?_⟩
  rw [← hfault, htext, heq]
  congr 1
  cases comma <;> simp [inner, Element.render, Element.closing, QuoteStyle.encode]

end ListText

end StubManager
