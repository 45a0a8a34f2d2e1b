import StubManager.Proofs.Offset.Removal

/-!
# Insertion by offsets

What is put into a text for an element to come is put in at characters and in order, and the text
that results is that of the list with the element at its end: `insert?_insertion?`. So it is with an
element for a node, where there is none of its value: `with?_eq`.
-/

namespace StubManager.Offset

open Text ListText

variable {list : ListText} {front : List Element} {last : Element}

/-! ## Putting in -/

/-- The first of the texts still to be put in. -/
theorem go_insert?_cons {text result : List Char} (done kept more fragment : List Char)
    (h : text = done ++ kept ++ more) {inserts : List (Nat × List Char)}
    (hgo : insert?.go text (byteLength (done ++ kept)) inserts = some result) :
    insert?.go text (byteLength done) ((byteLength (done ++ kept), fragment) :: inserts)
      = some (kept ++ fragment ++ result) := by
  have hkept : slice? text (byteLength done) (byteLength (done ++ kept)) = some kept :=
    slice?_eq h rfl (byteLength_append ..)
  rw [insert?.go, hkept, Option.bind_eq_bind, Option.bind_some, hgo]
  rfl

theorem go_insert?_nil {text done rest : List Char} (h : text = done ++ rest) :
    insert?.go text (byteLength done) [] = some rest := sliceFrom?_eq h rfl

theorem insert?_one {text : List Char} (before behind fragment : List Char)
    (h : text = before ++ behind) :
    insert? text [(byteLength before, fragment)] = some (before ++ fragment ++ behind) :=
  go_insert?_cons [] before behind fragment h (go_insert?_nil h)

theorem insert?_two {text : List Char} (before middle behind first second : List Char)
    (h : text = before ++ middle ++ behind) :
    insert? text [(byteLength before, first), (byteLength (before ++ middle), second)]
      = some (before ++ first ++ (middle ++ second ++ behind)) := by
  have hsorted : [(byteLength before, first), (byteLength (before ++ middle), second)].insertionSort
        (fun a b => a.1 ≤ b.1)
      = [(byteLength before, first), (byteLength (before ++ middle), second)] := by
    rw [List.insertionSort_cons, List.insertionSort_cons, List.insertionSort_nil,
      List.orderedInsert_nil, List.orderedInsert, if_pos]
    exact byteLength_append before middle ▸ Nat.le_add_right ..
  rw [insert?, hsorted]
  refine go_insert?_cons [] before (middle ++ behind) first (by simp [h]) ?_
  exact go_insert?_cons before middle behind second h (go_insert?_nil h)

/-! ## The parts of the list -/

theorem findSome?_style_itemsFrom (offset : Nat) (es : List Element) :
    (itemsFrom offset es).findSome? Item.style? = es.findSome? Element.style? := by
  induction es generalizing offset with
  | nil => rfl
  | cons e es ih => rw [itemsFrom, List.findSome?_cons, List.findSome?_cons, ih]; rfl

theorem style_spanOf (list : ListText) :
    ((spanOf list).items.findSome? Item.style?).getD .double = list.style := by
  rw [spanOf, findSome?_style_itemsFrom]
  rfl

theorem getLast?_items (helements : list.elements = front ++ [last]) :
    (spanOf list).items.getLast? = some (itemOf list front last) := by
  have hlength : (spanOf list).items.length = front.length + 1 := by
    rw [spanOf, length_itemsFrom, helements, List.length_append, List.length_singleton]
  rw [List.getLast?_eq_getElem?, hlength, Nat.add_sub_cancel, getElem?_items helements]

theorem lineIndent?_eq {text before behind : List Char} {offset : Nat} (h : text = before ++ behind)
    (hoffset : offset = byteLength before) :
    lineIndent? text offset = some (indentation (lastLine before)) := by
  have hindent : sliceTo? (lastLine before) (byteLength (indentation (lastLine before)))
      = some (indentation (lastLine before)) :=
    sliceTo?_eq List.takeWhile_append_dropWhile.symm rfl
  rw [lineIndent?, lineStart?_eq h hoffset, Option.bind_eq_bind, Option.bind_some,
    slice?_lastLine h hoffset, Option.bind_eq_bind, Option.bind_some, hindent]

/-- The text around the last element. -/
theorem render_eq_last (helements : list.elements = front ++ [last]) :
    list.render = textBefore list front ++ last.lead ++ last.raw ++ last.closing ++ list.trail
      ++ list.rest := render_eq helements

/-! ## The places -/

theorem insertion?_nil {before : List Char} (hhead : list.head = before ++ ['['])
    (helements : list.elements = []) (node : ChangeNode) :
    insertion? list.render (spanOf list) node = some
      (if list.trail.contains '\n' then
        [(byteLength list.head, '\n' :: (indentation (lastLine list.trail) ++ indentStep)
          ++ (node.render list.style).toList ++ [','])]
      else [(byteLength list.head, (node.render list.style).toList)]) := by
  have hitems : (spanOf list).items = [] := by rw [spanOf, helements]; rfl
  have hbracket : (spanOf list).bracket + 1 = byteLength list.head := by
    simp [spanOf, hhead, show '['.utf8Size = 1 from rfl]
  have hinner : list.inner = list.trail := by rw [ListText.inner, helements]; rfl
  have htext : list.render = list.head ++ list.trail ++ list.rest := by rw [ListText.render, hinner]
  have hclose : (spanOf list).close = byteLength (list.head ++ list.trail) :=
    congrArg (fun inside => byteLength (list.head ++ inside)) hinner
  have hslice : slice? list.render (byteLength list.head) (spanOf list).close = some list.trail :=
    slice?_eq htext rfl (hclose.trans (byteLength_append ..))
  rw [insertion?, style_spanOf, hitems, List.getLast?_nil]
  simp only [hbracket, hslice, Option.bind_eq_bind, Option.bind_some]
  by_cases hbreak : '\n' ∈ list.trail
  · rw [if_pos (List.contains_iff_mem.2 hbreak), if_pos (List.contains_iff_mem.2 hbreak),
      lineIndent?_eq htext hclose, (lastLine_append_of_mem list.head hbreak).1]
    rfl
  · rw [if_neg (mt List.contains_iff_mem.1 hbreak), if_neg (mt List.contains_iff_mem.1 hbreak)]
    rfl

/-- Between the last element and the closing bracket is the gap of the list. -/
theorem slice?_trail (helements : list.elements = front ++ [last]) :
    slice? list.render (byteLength (textBefore list front ++ last.lead ++ last.raw ++ last.closing))
        (spanOf list).close = some list.trail := by
  refine slice?_eq (render_eq_last helements) rfl ?_
  rw [spanOf, ListText.inner, helements, ← byteLength_append]
  simp [textBefore, Element.render]

theorem newIndent?_eq (helements : list.elements = front ++ [last]) :
    newIndent? list.render (itemOf list front last) = some (list.itemIndentation front last) := by
  have htext : list.render = textBefore list front ++ last.lead
      ++ (last.raw ++ last.closing ++ list.trail ++ list.rest) := by
    rw [render_eq_last helements]
    simp only [List.append_assoc]
  have hstart := start_itemOf list front last
  rw [newIndent?, itemIndentation, lineStart?_eq htext hstart, Option.bind_eq_bind,
    Option.bind_some, slice?_lastLine htext hstart, Option.bind_eq_bind, Option.bind_some,
    lineIndent?_eq htext hstart]
  change _ = some (if isBlankText (lastLine (textBefore list front ++ last.lead)) then _ else _)
  split <;> rfl

theorem newSeparator?_eq (h : list.Tiled) (helements : list.elements = front ++ [last]) :
    newSeparator? list.render (spanOf list) (itemOf list front last)
      = some (inlineSeparator front last) := by
  have hlength : (spanOf list).items.length = front.length + 1 := by
    rw [spanOf, length_itemsFrom, helements, List.length_append, List.length_singleton]
  rw [newSeparator?, hlength]
  obtain rfl | ⟨others, previous, rfl⟩ := List.eq_nil_or_concat front
  · rfl
  rw [List.concat_eq_append] at *
  obtain ⟨hbefore, -⟩ := h.around helements
  have hprevious : previous.comma := (hbefore previous (by simp)).2
  have hitem : (spanOf list).items[others.length]? = some (itemOf list others previous) :=
    getElem?_items (by rw [helements, List.append_assoc]; rfl)
  have hgap : slice? list.render
      (byteLength (textBefore list others ++ previous.lead ++ previous.raw ++ previous.tail) + 1)
      (itemOf list (others ++ [previous]) last).start = some last.lead := by
    have hfront : textBefore list (others ++ [previous]) = textBefore list others ++ previous.lead
        ++ previous.raw ++ previous.tail ++ [','] := by
      simp [textBefore_concat, Element.closing, hprevious]
    refine slice?_eq_some_iff.2
      ⟨textBefore list (others ++ [previous]), last.raw ++ last.closing ++ list.trail ++ list.rest,
        ?_, ?_, ?_⟩
    · rw [render_eq_last helements]
      simp only [List.append_assoc]
    · rw [hfront, byteLength_append _ [',']]
      rfl
    · rw [start_itemOf, byteLength_append]
  have hcount : ¬ (others ++ [previous]).length + 1 < 2 := by simp
  have hindex : (others ++ [previous]).length + 1 - 2 = others.length := by simp
  rw [if_neg hcount, hindex, hitem, Option.map_some, comma_itemOf, if_pos hprevious]
  simp only [Option.bind_eq_bind, Option.bind_some, hgap, inlineSeparator]
  simp

theorem insertion?_lines (h : list.Tiled) (helements : list.elements = front ++ [last])
    (hbreak : '\n' ∈ list.trail) (node : ChangeNode) :
    insertion? list.render (spanOf list) node = some
      (if last.comma then
        [(byteLength (textBefore list front ++ last.lead ++ last.raw ++ last.closing
            ++ firstLine list.trail),
          '\n' :: list.itemIndentation front last ++ (node.render list.style).toList ++ [','])]
      else
        [(byteLength (textBefore list front ++ last.lead ++ last.raw), [',']),
          (byteLength (textBefore list front ++ last.lead ++ last.raw ++ firstLine list.trail),
            '\n' :: list.itemIndentation front last ++ (node.render list.style).toList)]) := by
  obtain ⟨-, hlast, -⟩ := h.around helements
  rw [insertion?, style_spanOf, getLast?_items helements]
  simp only [end_itemOf list front hlast, slice?_trail helements, findBreak?_of_mem hbreak,
    newIndent?_eq helements, Option.bind_eq_bind, Option.bind_some, ← byteLength_append]
  rw [comma_itemOf, stop_itemOf]
  cases hcomma : last.comma with
  | true => rfl
  | false =>
    have hclosing : last.closing = [] := by simp [Element.closing, hcomma, hlast.bare hcomma]
    rw [hclosing, List.append_nil]
    rfl

theorem insertion?_line (h : list.Tiled) (helements : list.elements = front ++ [last])
    (hbreak : '\n' ∉ list.trail) (node : ChangeNode) :
    insertion? list.render (spanOf list) node = some
      [(byteLength (textBefore list front ++ last.lead ++ last.raw),
        ',' :: inlineSeparator front last ++ (node.render list.style).toList)] := by
  obtain ⟨-, hlast, -⟩ := h.around helements
  rw [insertion?, style_spanOf, getLast?_items helements]
  simp only [end_itemOf list front hlast, slice?_trail helements, findBreak?_of_not_mem hbreak,
    newSeparator?_eq h helements, Option.bind_eq_bind, Option.bind_some]
  rw [stop_itemOf]
  rfl

/-- What is put into the text for an element to come is put in at characters and in order, and the
text with it is that of the list with the element behind the last. -/
theorem insert?_insertion? (h : list.Tiled) {before : List Char}
    (hhead : list.head = before ++ ['[']) (node : ChangeNode) :
    (insertion? list.render (spanOf list) node).bind (insert? list.render)
      = some (list.append (node.render list.style).toList).render := by
  obtain helements | ⟨front, last, helements⟩ := List.eq_nil_or_concat list.elements
  · have htext : list.render = list.head ++ (list.trail ++ list.rest) := by
      simp [ListText.render, ListText.inner, helements]
    rw [insertion?_nil hhead helements, Option.bind_some, append.eq_def, helements,
      List.getLast?_nil]
    split
    · refine (insert?_one _ _ _ htext).trans ?_
      simp [ListText.render, ListText.inner, Element.render, Element.closing]
    · refine (insert?_one _ _ _ htext).trans ?_
      simp [ListText.render, ListText.inner, Element.render, Element.closing]
  · rw [List.concat_eq_append] at helements
    by_cases hbreak : '\n' ∈ list.trail
    · have htrail := firstLine_append_fromFirstBreak list.trail
      rw [insertion?_lines h helements hbreak, append_of_lines helements hbreak, Option.bind_some]
      cases hcomma : last.comma with
      | true =>
        refine (insert?_one _ (fromFirstBreak list.trail ++ list.rest) _ ?_).trans ?_
        · rw [render_eq_last helements]
          nth_rewrite 1 [← htrail]
          simp only [List.append_assoc]
        · simp [ListText.render, ListText.inner, textBefore, Element.render, Element.closing,
            hcomma]
      | false =>
        obtain ⟨-, hlast, -⟩ := h.around helements
        have hbare := hlast.bare hcomma
        refine (insert?_two _ _ (fromFirstBreak list.trail ++ list.rest) _ _ ?_).trans ?_
        · rw [render_eq_last helements]
          nth_rewrite 1 [← htrail]
          simp [Element.closing, hcomma, hbare]
        · simp [ListText.render, ListText.inner, textBefore, Element.render, Element.closing, hbare]
    · rw [insertion?_line h helements hbreak, append_of_line helements hbreak, Option.bind_some]
      refine (insert?_one _ (last.closing ++ list.trail ++ list.rest) _ ?_).trans ?_
      · rw [render_eq_last helements]
        simp only [List.append_assoc]
      · simp [ListText.render, ListText.inner, textBefore, Element.render, Element.closing]

/-! ## Insertion by value -/

theorem with?_eq (h : list.Tiled) {before : List Char} (hhead : list.head = before ++ ['['])
    (node : ChangeNode) :
    with? list.render (spanOf list) node = some (if list.values.contains node.value then list.render
      else (list.append (node.render list.style).toList).render) := by
  have hpresent : ((spanOf list).items.findIdx? (·.value == node.value)).isSome
      ↔ list.values.contains node.value := by
    rw [findIdx?_items, List.findIdx?_isSome, List.any_beq']
  rw [with?]
  split
  · next hmem => rw [if_pos (hpresent.1 hmem)]
  · next hmem => rw [if_neg (mt hpresent.2 hmem), insert?_insertion? h hhead]

end StubManager.Offset
