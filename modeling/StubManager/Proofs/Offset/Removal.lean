import StubManager.Proofs.ListText.Editing
import StubManager.Proofs.ListText.Scopes
import StubManager.Proofs.Offset.Scan

/-!
# Removal by offsets

What is cut out of a text for an element to go lies in the text and is in order, and the text that
is left is that of the list without the element: `delete?_removalCuts?`. So it is with the first
element of a value: `without?_eq`.
-/

namespace StubManager.Offset

open Text ListText

variable {list : ListText} {before after : List Element} {e : Element}

/-! ## Elements by index -/

theorem length_itemsFrom (offset : Nat) (es : List Element) :
    (itemsFrom offset es).length = es.length := by
  induction es generalizing offset with
  | nil => rfl
  | cons e es ih => rw [itemsFrom, List.length_cons, ih, List.length_cons]

theorem getElem?_itemsFrom (offset : Nat) (front back : List Element) (e : Element) :
    (itemsFrom offset (front ++ e :: back))[front.length]?
      = some (Item.ofElement (offset + byteLength (renderElements front)) e) := by
  rw [itemsFrom_append, List.getElem?_append_right (by rw [length_itemsFrom]), length_itemsFrom,
    Nat.sub_self]
  rfl

/-- The text before an element with its gaps. -/
def textBefore (list : ListText) (before : List Element) : List Char :=
  list.head ++ renderElements before

/-- The text behind the gap that follows an element and its comma. -/
def textBehind (list : ListText) : List Element → List Char
  | [] => list.rest
  | next :: more => next.raw ++ next.closing ++ renderElements more ++ list.trail ++ list.rest

theorem textBefore_concat (list : ListText) (front : List Element) (e : Element) :
    textBefore list (front ++ [e]) = textBefore list front ++ e.lead ++ e.raw ++ e.closing := by
  simp [textBefore, Element.render]

/-- The text around an element. -/
theorem render_eq (h : list.elements = before ++ e :: after) :
    list.render = textBefore list before ++ e.lead ++ e.raw ++ e.closing
      ++ gapAfter after list.trail ++ textBehind list after := by
  cases after <;>
    simp [ListText.render, ListText.inner, h, textBefore, textBehind, gapAfter, Element.render]

/-! ## Cutting out -/

/-- The first of the cuts still to be made. -/
theorem go_delete?_cons {text result : List Char} (done kept cut more : List Char)
    (h : text = done ++ kept ++ cut ++ more) {cuts : List (Nat × Nat)}
    (hgo : delete?.go text (byteLength (done ++ kept ++ cut)) cuts = some result) :
    delete?.go text (byteLength done)
      ((byteLength (done ++ kept), byteLength (done ++ kept ++ cut)) :: cuts)
        = some (kept ++ result) := by
  have hkept : slice? text (byteLength done) (byteLength (done ++ kept)) = some kept :=
    slice?_eq_some_iff.2 ⟨done, cut ++ more, by rw [h, List.append_assoc], rfl,
      byteLength_append ..⟩
  have hcut : slice? text (byteLength (done ++ kept)) (byteLength (done ++ kept ++ cut))
      = some cut := slice?_eq h rfl (byteLength_append ..)
  rw [delete?.go, hkept, hcut, hgo]
  rfl

theorem go_delete?_nil {text done rest : List Char} (h : text = done ++ rest) :
    delete?.go text (byteLength done) [] = some rest := sliceFrom?_eq h rfl

theorem delete?_one {text : List Char} (front cut back : List Char)
    (h : text = front ++ cut ++ back) :
    delete? text [(byteLength front, byteLength (front ++ cut))] = some (front ++ back) :=
  go_delete?_cons [] front cut back h (go_delete?_nil h)

/-- Of two cuts the one in front is made first. -/
theorem delete?_two {text front first middle second back : List Char}
    (h : text = front ++ first ++ middle ++ second ++ back) (hfirst : first ≠ []) :
    delete? text
        [(byteLength (front ++ first ++ middle), byteLength (front ++ first ++ middle ++ second)),
          (byteLength front, byteLength (front ++ first))] = some (front ++ middle ++ back) := by
  have hlength : byteLength front < byteLength (front ++ first ++ middle) := by
    obtain ⟨c, more, rfl⟩ := List.exists_cons_of_ne_nil hfirst
    have := c.utf8Size_pos
    simp only [byteLength_append, byteLength_cons]
    omega
  have hsorted : [(byteLength (front ++ first ++ middle),
          byteLength (front ++ first ++ middle ++ second)),
        (byteLength front, byteLength (front ++ first))].insertionSort
        (fun a b => a.1 < b.1 ∨ a.1 = b.1 ∧ a.2 ≤ b.2)
      = [(byteLength front, byteLength (front ++ first)), (byteLength (front ++ first ++ middle),
          byteLength (front ++ first ++ middle ++ second))] := by
    rw [List.insertionSort_cons, List.insertionSort_cons, List.insertionSort_nil,
      List.orderedInsert_nil, List.orderedInsert, if_neg]
    · rfl
    · simp only
      omega
  rw [delete?, hsorted, List.append_assoc front middle back]
  refine go_delete?_cons [] front first (middle ++ second ++ back) (by simp [h]) ?_
  exact go_delete?_cons (front ++ first) middle second back h (go_delete?_nil h)

/-! ## Removal -/

/-- The element as it is read at its place. -/
def itemOf (list : ListText) (before : List Element) (e : Element) : Item :=
  Item.ofElement (byteLength (textBefore list before)) e

/-- The element before the one that follows `before`. -/
def previousOf (list : ListText) (before : List Element) : Option Item :=
  before.getLast?.map (itemOf list before.dropLast)

/-- The element behind the one that `before` precedes. -/
def nextOf (list : ListText) (before : List Element) (e : Element) (after : List Element) :
    Option Item :=
  after.head?.map (itemOf list (before ++ [e]))

/-- The comma that is left over where an element without one goes. -/
def danglingOf (list : ListText) (before : List Element) (e : Element) : Option (Nat × Nat) :=
  dangling? (itemOf list before e) (previousOf list before)

theorem previousOf_concat (list : ListText) (front : List Element) (previous : Element) :
    previousOf list (front ++ [previous]) = some (itemOf list front previous) := by
  rw [previousOf, List.getLast?_concat, List.dropLast_concat]
  rfl

theorem danglingOf_of_comma (list : ListText) (before : List Element) (h : e.comma) :
    danglingOf list before e = none := by
  simp [danglingOf, dangling?, itemOf, Item.ofElement, h]

theorem danglingOf_nil (list : ListText) (e : Element) : danglingOf list [] e = none := by
  rw [danglingOf, dangling?]
  split <;> rfl

theorem danglingOf_concat (list : ListText) (front : List Element) {previous : Element}
    (h : e.comma = false) (hprevious : previous.comma) :
    danglingOf list (front ++ [previous]) e
      = some (byteLength (textBefore list front ++ previous.lead ++ previous.raw ++ previous.tail),
          byteLength (textBefore list front ++ previous.lead ++ previous.raw ++ previous.tail
            ++ [','])) := by
  rw [danglingOf, previousOf_concat]
  simp [dangling?, itemOf, Item.ofElement, h, hprevious, Nat.add_assoc,
    show ','.utf8Size = 1 from rfl]

theorem render_joinAround (list : ListText) (after : List Element) (gap : List Char)
    (h : e.comma ∨ before = []) :
    (list.joinAround before e after gap).render
      = textBefore list before ++ gap ++ textBehind list after := by
  have hjoin : (if e.comma then (before, gap) else dropLastComma before gap) = (before, gap) := by
    split
    · rfl
    · next hcomma =>
      obtain rfl := h.resolve_left hcomma
      rfl
  cases after <;>
    simp [joinAround, hjoin, withGapAfter, textBefore, textBehind, ListText.render,
      ListText.inner, Element.render, Element.closing]

theorem render_joinAround_concat (list : ListText) (after : List Element) (gap : List Char)
    (h : e.comma = false) (front : List Element) (previous : Element) :
    (list.joinAround (front ++ [previous]) e after gap).render
      = textBefore list front ++ previous.lead ++ previous.raw ++ previous.tail ++ gap
        ++ textBehind list after := by
  cases after <;>
    simp [joinAround, h, dropLastComma, withGapAfter, textBefore, textBehind, ListText.render,
      ListText.inner, Element.render, Element.closing]

/-- An element goes with the text around it between two offsets, and with the comma that is left
over. -/
theorem delete?_joinAround (h : list.Tiled) (helements : list.elements = before ++ e :: after)
    (kept cut back : List Char)
    (htext : list.render
      = textBefore list before ++ kept ++ cut ++ (back ++ textBehind list after)) :
    delete? list.render ((byteLength (textBefore list before ++ kept),
        byteLength (textBefore list before ++ kept ++ cut)) :: (danglingOf list before e).toList)
      = some (list.joinAround before e after (kept ++ back)).render := by
  obtain ⟨hbefore, -⟩ := h.around helements
  cases hcomma : e.comma with
  | true =>
    rw [danglingOf_of_comma list before hcomma, render_joinAround list after _ (.inl hcomma)]
    simpa using delete?_one _ _ _ htext
  | false =>
    obtain rfl | ⟨front, previous, rfl⟩ := List.eq_nil_or_concat before
    · rw [danglingOf_nil, render_joinAround list after _ (.inr rfl)]
      simpa using delete?_one _ _ _ htext
    · rw [List.concat_eq_append] at *
      have hprevious : previous.comma := (hbefore previous (by simp)).2
      have hfront : textBefore list (front ++ [previous])
          = textBefore list front ++ previous.lead ++ previous.raw ++ previous.tail ++ [','] := by
        simp [textBefore_concat, Element.closing, hprevious]
      rw [render_joinAround_concat list after _ hcomma,
        danglingOf_concat list front hcomma hprevious, hfront,
        ← List.append_assoc _ kept, List.append_assoc _ back]
      exact delete?_two (hfront ▸ htext) (List.cons_ne_nil _ _)

theorem getElem?_items (helements : list.elements = before ++ e :: after) :
    (spanOf list).items[before.length]?
      = some (itemOf list before e) := by
  have hitem := getElem?_itemsFrom (byteLength list.head) before after e
  rw [← helements, ← byteLength_append] at hitem
  exact hitem

/-- The text between the gap behind an element and the closing bracket starts with an item. -/
theorem exists_core (h : list.Tiled) (helements : list.elements = before ++ e :: after) :
    ∃ core, renderElements after ++ list.trail = gapAfter after list.trail ++ core ∧
      ∀ c ∈ core.head?, ¬ isListBlank c := by
  obtain ⟨-, -, hafter, -⟩ := h.around helements
  cases after with
  | nil => exact ⟨[], by simp [gapAfter], nofun⟩
  | cons next more =>
    refine ⟨next.raw ++ next.closing ++ renderElements more ++ list.trail,
      by simp [gapAfter, Element.render], ?_⟩
    obtain ⟨c, text, htext, hc, -⟩ := (isItem_iff_isEntry.1 (hafter next (by simp)).item).first
    rw [htext]
    rintro _ ⟨⟩
    exact hc

theorem firstLine_append_of_mem {front : List Char} (h : '\n' ∈ front) (back : List Char) :
    firstLine (front ++ back) = firstLine front := by
  obtain ⟨line, more, rfl, hline⟩ : ∃ line more, front = line ++ '\n' :: more ∧ '\n' ∉ line :=
    ⟨firstLine front, _, (firstLine_append_break h).symm, fun hmem => by
      simpa using List.all_eq_true.1 List.all_takeWhile _ hmem⟩
  have hall : ∀ c ∈ line, decide (c ≠ '\n') := fun c hc =>
    decide_eq_true fun heq => hline (heq ▸ hc)
  rw [List.append_assoc, List.cons_append]
  simp only [firstLine]
  rw [List.takeWhile_append_of_pos hall, List.takeWhile_append_of_pos hall]
  rfl

/-- The line goes on behind an element to the first line feed of the gap. -/
theorem lineEnd?_eq {text front gap core rest : List Char} {close : Nat}
    (htext : text = front ++ (gap ++ core) ++ rest)
    (hclose : close = byteLength (front ++ (gap ++ core)))
    (hhead : ∀ c ∈ core.head?, ¬ isListBlank c) :
    lineEnd? text (byteLength front) close
      = some (if gap.contains '\n' && isBlankText (firstLine gap) then
          some (byteLength (front ++ firstLine gap) + 1) else none) := by
  have hslice : slice? text (byteLength front) close = some (gap ++ core) :=
    slice?_eq htext rfl (hclose.trans (byteLength_append ..))
  have hline : slice? text (byteLength front)
      (byteLength front + byteLength (firstLine (gap ++ core)))
        = some (firstLine (gap ++ core)) := by
    refine slice?_eq_some_iff.2 ⟨front, fromFirstBreak (gap ++ core) ++ rest, ?_, rfl, rfl⟩
    rw [htext, List.append_assoc front (firstLine _), ← List.append_assoc (firstLine _),
      firstLine_append_fromFirstBreak, List.append_assoc]
  rw [lineEnd?, hslice]
  by_cases hgap : '\n' ∈ gap
  · have hmem : '\n' ∈ gap ++ core := List.mem_append_left _ hgap
    rw [firstLine_append_of_mem hgap] at hline
    simp only [findBreak?_of_mem hmem, firstLine_append_of_mem hgap, hline, Option.bind_eq_bind,
      Option.bind_some, byteLength_append, List.contains_iff_mem.2 hgap, Bool.true_and]
    rfl
  · have hcontains : gap.contains '\n' = false := by simpa using hgap
    rw [hcontains]
    by_cases hmem : '\n' ∈ core
    · -- Before the line feed stands what an item starts with.
      obtain ⟨c, core, rfl⟩ := List.exists_cons_of_ne_nil (List.ne_nil_of_mem hmem)
      have hplain : ¬ isListBlank c := hhead c rfl
      have hc : c ≠ '\n' := by
        rintro rfl
        exact hplain rfl
      have hline' : firstLine (gap ++ c :: core) = gap ++ c :: firstLine core := by
        have hall : ∀ c ∈ gap, decide (c ≠ '\n') := fun c hc =>
          decide_eq_true fun heq => hgap (heq ▸ hc)
        have hcore : firstLine (c :: core) = c :: firstLine core :=
          List.takeWhile_cons_of_pos (by simpa using hc)
        rw [firstLine, List.takeWhile_append_of_pos hall]
        exact congrArg (gap ++ ·) hcore
      have hblank : isBlankText (firstLine (gap ++ c :: core)) = false := by
        have hspace : isSpaceOrTab c = false := by
          simp only [isListBlank, Bool.or_eq_true, decide_eq_true_eq, not_or] at hplain
          simp [isSpaceOrTab, hplain]
        rw [hline', isBlankText, List.all_append, List.all_cons, hspace]
        simp
      simp only [findBreak?_of_mem (List.mem_append_right gap hmem), hline, hblank,
        Option.bind_eq_bind, Option.bind_some]
      rfl
    · have hnone : '\n' ∉ gap ++ core := fun h => (List.mem_append.1 h).elim hgap hmem
      simp only [findBreak?_of_not_mem hnone, Option.bind_eq_bind, Option.bind_some]
      rfl

theorem start_itemOf (list : ListText) (before : List Element) (e : Element) :
    (itemOf list before e).start = byteLength (textBefore list before ++ e.lead) :=
  (byteLength_append ..).symm

theorem stop_itemOf (list : ListText) (before : List Element) (e : Element) :
    (itemOf list before e).stop = byteLength (textBefore list before ++ e.lead ++ e.raw) := by
  rw [byteLength_append, byteLength_append]
  rfl

theorem comma_itemOf (list : ListText) (before : List Element) (e : Element) :
    (itemOf list before e).comma
      = if e.comma then some (byteLength (textBefore list before ++ e.lead ++ e.raw ++ e.tail))
        else none := by
  simp only [itemOf, Item.ofElement, byteLength_append, Nat.add_assoc]

/-- Where an element ends, with its comma. -/
theorem end_itemOf (list : ListText) (before : List Element) (he : e.Tiled) :
    (itemOf list before e).comma.elim (itemOf list before e).stop (· + 1)
      = byteLength (textBefore list before ++ e.lead ++ e.raw ++ e.closing) := by
  rw [comma_itemOf, stop_itemOf]
  cases hcomma : e.comma with
  | true =>
    simp only [Element.closing, hcomma, ↓reduceIte, Option.elim_some, byteLength_append,
      byteLength_cons, byteLength_nil, show ','.utf8Size = 1 from rfl, Nat.add_assoc]
  | false => simp [Element.closing, hcomma, he.bare hcomma]

/-- The lines of an element end where it goes on to its comma on its line, and has nothing but
blanks behind. -/
theorem lastLineEnd?_eq (h : list.Tiled) (helements : list.elements = before ++ e :: after) :
    lastLineEnd? list.render (itemOf list before e) (spanOf list).close
      = some (if !e.tail.contains '\n' && ((gapAfter after list.trail).contains '\n'
            && isBlankText (firstLine (gapAfter after list.trail))) then
          some (byteLength (textBefore list before ++ e.lead ++ e.raw ++ e.closing
              ++ firstLine (gapAfter after list.trail)) + 1)
        else none) := by
  obtain ⟨core, hcore, hhead⟩ := exists_core h helements
  obtain ⟨-, he, -⟩ := h.around helements
  have hinner : list.head ++ list.inner
      = textBefore list before ++ e.lead ++ e.raw ++ e.closing
        ++ (gapAfter after list.trail ++ core) := by
    rw [← hcore, ListText.inner, helements]
    simp [textBefore, Element.render]
  have htext : list.render = textBefore list before ++ e.lead ++ e.raw ++ e.closing
      ++ (gapAfter after list.trail ++ core) ++ list.rest := by rw [ListText.render, hinner]
  have hclose : (spanOf list).close = _ := congrArg byteLength hinner
  have hend := lineEnd?_eq htext hclose hhead
  have hstop := end_itemOf list before he
  rw [comma_itemOf] at hstop
  rw [lastLineEnd?, comma_itemOf]
  cases hcomma : e.comma with
  | true =>
    have htail : slice? list.render (itemOf list before e).stop
        (byteLength (textBefore list before ++ e.lead ++ e.raw ++ e.tail)) = some e.tail := by
      refine slice?_eq_some_iff.2
        ⟨_, [','] ++ (gapAfter after list.trail ++ core) ++ list.rest, ?_,
          stop_itemOf list before e, byteLength_append ..⟩
      rw [htext]
      simp [Element.closing, hcomma]
    rw [if_pos hcomma] at hstop
    change _ + 1 = _ at hstop
    simp only [↓reduceIte, htail, hstop, hend, Option.bind_eq_bind, Option.bind_some]
    cases e.tail.contains '\n' <;> rfl
  | false =>
    rw [if_neg (by simp [hcomma])] at hstop
    change (itemOf list before e).stop = _ at hstop
    simp only [Bool.false_eq_true, ↓reduceIte, hstop, hend, he.bare hcomma, List.contains_nil,
      Bool.not_false, Bool.true_and]

theorem lastLine_append_of_mem (front : List Char) {back : List Char} (h : '\n' ∈ back) :
    lastLine (front ++ back) = lastLine back ∧
      throughLastBreak (front ++ back) = front ++ throughLastBreak back := by
  have hfront := throughLastBreak_eq_append h
  have hcut := throughLastBreak_append_lastLine back
  generalize (throughLastBreak back).dropLast = lines at hfront
  rw [hfront, List.append_assoc, List.singleton_append] at hcut
  have hlines := lastLine_append_break (front ++ lines) (not_mem_lastLine back)
  rwa [List.append_assoc, hcut, List.append_assoc, ← hfront] at hlines

/-- Before an element stands the bracket of the list, or the comma of another element. -/
theorem exists_last_textBefore (h : list.Tiled) {front : List Char}
    (hhead : list.head = front ++ ['[']) (helements : list.elements = before ++ e :: after) :
    ∃ text c, textBefore list before = text ++ [c] ∧ c ≠ '\n' ∧ isSpaceOrTab c = false := by
  obtain ⟨hbefore, -⟩ := h.around helements
  obtain rfl | ⟨others, previous, rfl⟩ := List.eq_nil_or_concat before
  · exact ⟨front, '[', by simp [textBefore, hhead], by decide, rfl⟩
  · rw [List.concat_eq_append] at *
    have hcomma : previous.comma := (hbefore previous (by simp)).2
    refine ⟨textBefore list others ++ previous.lead ++ previous.raw ++ previous.tail, ',', ?_,
      by decide, rfl⟩
    simp [textBefore_concat, Element.closing, hcomma]

/-- The lines of an element are found where it stands alone on them. -/
theorem ownLine?_eq (h : list.Tiled) {front : List Char} (hhead : list.head = front ++ ['['])
    (helements : list.elements = before ++ e :: after) :
    ownLine? list.render (spanOf list) before.length
      = some (if standsAlone e (gapAfter after list.trail) then
          some (byteLength (textBefore list before ++ throughLastBreak e.lead),
            byteLength (textBefore list before ++ e.lead ++ e.raw ++ e.closing
              ++ firstLine (gapAfter after list.trail)) + 1)
        else none) := by
  have htext := render_eq helements
  rw [List.append_assoc _ e.raw, List.append_assoc _ (e.raw ++ _), List.append_assoc _ (_ ++ _)]
    at htext
  have hstart := lineStart?_eq htext (start_itemOf list before e)
  have hline := slice?_lastLine htext (start_itemOf list before e)
  rw [ownLine?, getElem?_items helements, Option.bind_eq_bind, Option.bind_some, hstart,
    Option.bind_eq_bind, Option.bind_some]
  by_cases hlead : '\n' ∈ e.lead
  · obtain ⟨hlast, hthrough⟩ := lastLine_append_of_mem (textBefore list before) hlead
    have hbehind : ¬ byteLength (textBefore list before ++ throughLastBreak e.lead)
        ≤ (spanOf list).bracket := by
      have := byteLength_append front ['[']
      simp only [spanOf, hhead, textBefore, byteLength_append, byteLength_cons, byteLength_nil,
        show '['.utf8Size = 1 from rfl]
      omega
    rw [hlast, hthrough] at hline
    rw [hthrough, if_neg hbehind, hline, Option.bind_eq_bind, Option.bind_some,
      lastLineEnd?_eq h helements, standsAlone, List.contains_iff_mem.2 hlead, Bool.true_and]
    cases isBlankText (lastLine e.lead) with
    | false => rfl
    | true =>
      simp only [Bool.not_true, Bool.false_eq_true, ↓reduceIte, Bool.true_and, Bool.and_assoc]
      split <;> rfl
  · obtain ⟨text, c, hbefore, hne, hc⟩ := exists_last_textBefore h hhead helements
    have hblank : isBlankText (lastLine (textBefore list before ++ e.lead)) = false := by
      have hline : '\n' ∉ c :: e.lead := fun hmem =>
        (List.mem_cons.1 hmem).elim (Ne.symm hne) hlead
      rw [hbefore, List.append_assoc, List.singleton_append, lastLine_append_of_not_mem text hline,
        isBlankText, List.all_append, List.all_cons, hc]
      simp
    have hcontains : e.lead.contains '\n' = false := by simpa using hlead
    rw [hline, standsAlone, hcontains]
    simp only [Option.bind_eq_bind, Option.bind_some, hblank, Bool.not_false, ↓reduceIte,
      Bool.false_and, Bool.false_eq_true]
    split <;> rfl

/-! ## Cuts -/

theorem previous?_spanOf (helements : list.elements = before ++ e :: after) :
    previous? (spanOf list) before.length = some (previousOf list before) := by
  obtain rfl | ⟨front, previous, rfl⟩ := List.eq_nil_or_concat before
  · rfl
  · rw [List.concat_eq_append] at *
    rw [List.append_assoc] at helements
    rw [List.length_append, List.length_singleton, previousOf_concat, previous?,
      getElem?_items helements]
    rfl

theorem getElem?_items_succ (helements : list.elements = before ++ e :: after) :
    (spanOf list).items[before.length + 1]? = nextOf list before e after := by
  cases after with
  | nil =>
    have hlength : (spanOf list).items.length = before.length + 1 := by
      rw [spanOf, length_itemsFrom, helements, List.length_append, List.length_singleton]
    exact List.getElem?_eq_none (Nat.le_of_eq hlength)
  | cons next more =>
    rw [List.append_cons] at helements
    have hitem := getElem?_items helements
    rwa [List.length_append] at hitem

theorem joint?_next (helements : list.elements = before ++ e :: after) {next : Element}
    {more : List Element} (hafter : after = next :: more) :
    joint? list.render (itemOf list before e) (previousOf list before)
        (nextOf list before e after)
      = some (if (e.closing ++ next.lead).contains '\n' then none
          else some (byteLength (textBefore list before ++ e.lead),
            byteLength (textBefore list before ++ e.lead
              ++ (e.raw ++ e.closing ++ next.lead)))) := by
  subst hafter
  have hstart : (itemOf list (before ++ [e]) next).start
      = byteLength (textBefore list before ++ e.lead ++ (e.raw ++ e.closing ++ next.lead)) := by
    rw [start_itemOf, textBefore_concat]
    simp only [List.append_assoc]
  have hgap : slice? list.render (itemOf list before e).stop
      (itemOf list (before ++ [e]) next).start = some (e.closing ++ next.lead) := by
    refine slice?_eq_some_iff.2
      ⟨_, textBehind list (next :: more), ?_, stop_itemOf list before e, ?_⟩
    · rw [render_eq helements]
      simp [gapAfter]
    · rw [hstart, ← byteLength_append]
      simp only [List.append_assoc]
  rw [nextOf, List.head?_cons, Option.map_some, joint?, hgap, ← start_itemOf, hstart]
  rfl

theorem joint?_previous (helements : list.elements = before ++ [e]) {front : List Element}
    {previous : Element} (hbefore : before = front ++ [previous]) :
    joint? list.render (itemOf list before e) (previousOf list before) (nextOf list before e [])
      = some (if (previous.closing ++ e.lead).contains '\n' then none
          else some (byteLength (textBefore list front ++ previous.lead ++ previous.raw),
            byteLength (textBefore list front ++ previous.lead ++ previous.raw
              ++ (previous.closing ++ e.lead ++ e.raw)))) := by
  subst hbefore
  have hgap : slice? list.render (itemOf list front previous).stop
      (itemOf list (front ++ [previous]) e).start = some (previous.closing ++ e.lead) := by
    refine slice?_eq_some_iff.2
      ⟨_, e.raw ++ e.closing ++ gapAfter [] list.trail ++ textBehind list [], ?_,
        stop_itemOf list front previous, ?_⟩
    · rw [render_eq helements]
      simp [textBefore_concat]
    · rw [start_itemOf, textBefore_concat, ← byteLength_append]
      simp only [List.append_assoc]
  rw [nextOf, List.head?_nil, Option.map_none, previousOf_concat, joint?, hgap, stop_itemOf,
    stop_itemOf, textBefore_concat]
  simp only [List.append_assoc]
  rfl

/-- The text that goes for an element to go lies in the text and is in order, and the text without
it is that of the list without the element. -/
theorem delete?_removalCuts? (h : list.Tiled) {front : List Char}
    (hhead : list.head = front ++ ['[']) (helements : list.elements = before ++ e :: after) :
    (removalCuts? list.render (spanOf list) before.length).bind (delete? list.render)
      = some (list.removeBetween before e after).render := by
  obtain ⟨-, he, -⟩ := h.around helements
  have htext := render_eq helements
  rw [removalCuts?, getElem?_items helements, getElem?_items_succ helements]
  simp only [Option.bind_eq_bind, Option.bind_some, previous?_spanOf helements,
    ownLine?_eq h hhead helements]
  rcases list.removeBetween_cases before e after with ⟨hlines, heq⟩ | ⟨hlines, hcases⟩
  · have hgap : '\n' ∈ gapAfter after list.trail := by
      simp only [standsAlone, Bool.and_eq_true, List.contains_iff_mem] at hlines
      exact hlines.1.2
    rw [if_pos hlines, heq]
    have hlead := throughLastBreak_append_lastLine e.lead
    have hcut : textBefore list before ++ throughLastBreak e.lead ++ (lastLine e.lead ++ e.raw
          ++ e.closing ++ firstLine (gapAfter after list.trail) ++ ['\n'])
        = textBefore list before ++ e.lead ++ e.raw ++ e.closing
          ++ firstLine (gapAfter after list.trail) ++ ['\n'] := by
      nth_rewrite 3 [← hlead]
      simp only [List.append_assoc]
    refine Eq.trans ?_ (delete?_joinAround h helements (throughLastBreak e.lead)
      (lastLine e.lead ++ e.raw ++ e.closing ++ firstLine (gapAfter after list.trail) ++ ['\n'])
      ((fromFirstBreak (gapAfter after list.trail)).drop 1) (htext.trans ?_))
    · rw [hcut, byteLength_append _ ['\n']]
      rfl
    · rw [hcut, ← List.append_assoc, List.append_assoc _ ['\n'], List.append_assoc _ (firstLine _),
        List.singleton_append, firstLine_append_break hgap]
  rw [if_neg hlines]
  rcases hcases with ⟨next, more, hafter, hbreak, heq⟩ |
    ⟨others, previous, hbefore, rfl, hbreak, heq⟩ | ⟨hnext, hprevious, heq⟩
  · rw [joint?_next helements hafter, if_neg (mt List.contains_iff_mem.1 hbreak), heq]
    refine (delete?_one _ _ (textBehind list after) ?_).trans (congrArg some ?_)
    · rw [htext, hafter]
      simp [gapAfter]
    · simp [hafter, textBefore, textBehind, ListText.render, ListText.inner, Element.render,
        Element.closing]
  · rw [joint?_previous helements hbefore, if_neg (mt List.contains_iff_mem.1 hbreak), heq]
    refine (delete?_one _ _ (e.closing ++ list.trail ++ list.rest) ?_).trans (congrArg some ?_)
    · rw [htext, hbefore]
      simp [gapAfter, textBefore_concat, textBehind]
    · simp [textBefore, ListText.render, ListText.inner, Element.render, Element.closing]
  · have hjoint : joint? list.render (itemOf list before e) (previousOf list before)
        (nextOf list before e after) = some none := by
      cases after with
      | cons next more =>
        rw [joint?_next helements rfl, if_pos (List.contains_iff_mem.2 (hnext next more rfl))]
      | nil =>
        obtain rfl | ⟨others, previous, rfl⟩ := List.eq_nil_or_concat before
        · rfl
        · rw [List.concat_eq_append] at *
          rw [joint?_previous helements rfl,
            if_pos (List.contains_iff_mem.2 (hprevious others previous rfl rfl))]
    rw [hjoint, heq, start_itemOf, end_itemOf list before he]
    refine Eq.trans ?_ (delete?_joinAround h helements e.lead (e.raw ++ e.closing)
      (gapAfter after list.trail) ?_)
    · simp only [Option.bind_some, List.append_assoc]
      rfl
    · rw [htext]
      simp only [List.append_assoc]

/-! ## Removal by value -/

theorem map_value_itemsFrom (offset : Nat) (es : List Element) :
    (itemsFrom offset es).map Item.value = es.map Element.value := by
  induction es generalizing offset with
  | nil => rfl
  | cons e es ih => rw [itemsFrom, List.map_cons, ih, List.map_cons]; rfl

theorem findIdx?_items (list : ListText) (value : String) :
    (spanOf list).items.findIdx? (·.value == value) = list.values.findIdx? (· == value) := by
  rw [values, ← map_value_itemsFrom (byteLength list.head), List.findIdx?_map]
  rfl

theorem without?_eq (h : list.Tiled) {front : List Char} (hhead : list.head = front ++ ['['])
    (value : String) :
    without? list.render (spanOf list) value = some (list.remove value).render := by
  rw [without?, findIdx?_items]
  cases hfind : list.elements.find? (·.value == value) with
  | none =>
    have habsent : ∀ e ∈ list.elements, ¬ (e.value == value) := List.find?_eq_none.1 hfind
    have hnone : list.values.findIdx? (· == value) = none := by
      rw [values, List.findIdx?_map]
      exact List.findIdx?_eq_none_iff.2 fun e he => by simpa using habsent e he
    rw [hnone, remove_of_not_mem]
    rintro hmem
    obtain ⟨e, he, rfl⟩ := List.mem_map.1 hmem
    exact habsent e he (beq_self_eq_true _)
  | some e =>
    obtain ⟨hvalue, before, after, helements, hbefore⟩ := List.find?_eq_some_iff_append.1 hfind
    have hothers : ∀ x ∈ before, x.value ≠ value := fun x hx => by simpa using hbefore x hx
    have hnone : before.findIdx? ((· == value) ∘ Element.value) = none :=
      List.findIdx?_eq_none_iff.2 fun x hx => beq_false_of_ne (hothers x hx)
    have hfirst : list.values.findIdx? (· == value) = some before.length := by
      rw [values, List.findIdx?_map, helements, List.findIdx?_append, hnone, List.findIdx?_cons,
        Function.comp_apply, if_pos hvalue, Option.none_or, Option.map_some, Nat.zero_add]
    rw [hfirst, remove, span_of_first helements (eq_of_beq hvalue) hothers]
    exact delete?_removalCuts? h hhead helements

end StubManager.Offset
