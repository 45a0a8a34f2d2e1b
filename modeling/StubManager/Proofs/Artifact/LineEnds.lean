import Mathlib.Data.List.Induction
import StubManager.Proofs.Artifact.Reapplication
import StubManager.Proofs.ListText.Scopes
import StubManager.Proofs.ListText.Style

/-!
# Line ends

What edits make of a text whose line feeds all stand behind a carriage return (`Crlf`). A carriage
return is neither a space nor a tab, and the line feeds that edits write have none before them.
Main statement: `crlf_apply_iff`, removals keep `Crlf`, of the additions only those to the line of
the last element do, and an element that has its line to itself leaves a blank line behind.
-/

namespace StubManager

open Text

/-! ## Texts -/

/-- Every line feed of a text stands behind a carriage return. -/
def Crlf (text : List Char) : Prop :=
  ∀ front back, text = front ++ '\n' :: back → front.getLast? = some '\r'

/-- Parts of a text can be told apart before any character but a line feed. -/
theorem crlf_append_iff {front back : List Char} (h : back.head? ≠ some '\n') :
    Crlf (front ++ back) ↔ Crlf front ∧ Crlf back := by
  constructor
  · refine fun hcrlf => ⟨fun before after heq => ?_, fun before after heq => ?_⟩
    · exact hcrlf before (after ++ back) (by simp [heq])
    · have hne : before ≠ [] := by
        rintro rfl
        exact h (by rw [heq]; rfl)
      rw [← List.getLast?_append_of_ne_nil front hne]
      exact hcrlf (front ++ before) after (by simp [heq])
  · rintro ⟨hfront, hback⟩ before after heq
    rcases List.append_eq_append_iff.1 heq with ⟨more, rfl, hafter⟩ | ⟨more, rfl, hmore⟩
    · simp [hback more after hafter]
    · cases more with
      | nil => exact absurd (congrArg List.head? hmore.symm) h
      | cons c more =>
        obtain ⟨rfl, -⟩ := List.cons.inj hmore
        exact hfront before more rfl

theorem crlf_of_not_mem {text : List Char} (h : '\n' ∉ text) : Crlf text :=
  fun front back heq => absurd (by simp [heq]) h

instance (text : List Char) : Decidable (Crlf text) :=
  decidable_of_iff
    (∀ n < text.length, text[n]? = some '\n' → (text.take n).getLast? = some '\r') <| by
    constructor
    · rintro h front back rfl
      simpa using h front.length (by simp) (by simp)
    · intro h n _ heq
      obtain ⟨hn, hbreak⟩ := List.getElem?_eq_some_iff.1 heq
      refine h (text.take n) (text.drop (n + 1)) ?_
      rw [← hbreak, ← List.drop_eq_getElem_cons hn, List.take_append_drop]

namespace Crlf

variable {front middle back : List Char}

/-- Behind anything but a carriage return there is no line feed. -/
theorem head?_ne (h : Crlf (front ++ back)) (hlast : front.getLast? ≠ some '\r') :
    back.head? ≠ some '\n' := by
  intro hhead
  obtain ⟨more, rfl⟩ := List.head?_eq_some_iff.1 hhead
  exact hlast (h front more rfl)

/-- A part of a text can go if what follows does not start with a line feed. -/
theorem cut (h : Crlf (front ++ (middle ++ back))) (hback : back.head? ≠ some '\n') :
    Crlf (front ++ back) := by
  rw [← List.append_assoc, crlf_append_iff hback] at h
  refine (crlf_append_iff hback).2 ⟨fun before after heq => ?_, h.2⟩
  exact h.1 before (after ++ middle) (by simp [heq])

/-- A part of a text can go if it does not end with a carriage return. -/
theorem cut_of_last (h : Crlf (front ++ (middle ++ back)))
    (hlast : ∃ c ∈ middle.getLast?, c ≠ '\r') : Crlf (front ++ back) := by
  obtain ⟨c, hc, hne⟩ := hlast
  refine h.cut ?_
  rw [← List.append_assoc] at h
  refine h.head?_ne ?_
  simp [List.getLast?_append, Option.mem_def.1 hc, hne]

/-- A text without line feeds can come between. -/
theorem insert (h : Crlf (front ++ back)) (hback : back.head? ≠ some '\n')
    (hmiddle : '\n' ∉ middle) : Crlf (front ++ (middle ++ back)) := by
  have hhead : middle.head? ≠ some '\n' := fun heq => hmiddle (List.mem_of_head? heq)
  rw [crlf_append_iff hback] at h
  rw [← List.append_assoc, crlf_append_iff hback, crlf_append_iff hhead]
  exact ⟨⟨h.1, crlf_of_not_mem hmiddle⟩, h.2⟩

end Crlf

/-! ## Items -/

theorem IsItem.last_ne {text : List Char} (h : IsItem text) : ∃ c ∈ text.getLast?, c ≠ '\r' := by
  obtain ⟨front, c, rfl, hc⟩ := (isItem_iff_isEntry.1 h).last
  refine ⟨c, by simp, ?_⟩
  rintro rfl
  exact hc rfl

theorem IsItem.head?_append_ne {text : List Char} (h : IsItem text) (more : List Char) :
    (text ++ more).head? ≠ some '\n' := by
  obtain ⟨c, rest, rfl, hc, -⟩ := (isItem_iff_isEntry.1 h).first
  rintro heq
  obtain rfl : c = '\n' := by simpa using heq
  exact hc rfl

/-- An element without its gap before does not end with a carriage return. -/
theorem Element.Tiled.last_ne {e : Element} (h : e.Tiled) :
    ∃ c ∈ (e.raw ++ e.closing).getLast?, c ≠ '\r' := by
  cases hcomma : e.comma with
  | true => exact ⟨',', by simp [closing, hcomma], by decide⟩
  | false => simpa [closing, hcomma, h.bare hcomma] using h.item.last_ne

namespace ListText

variable {list : ListText} {before after : List Element} {e : Element}

/-! ## The text around an element -/

/-- The text of the following elements and the last gap, from behind the first gap on. -/
def behindGap (after : List Element) (trail : List Char) : List Char :=
  match after with
  | [] => []
  | next :: more => next.raw ++ next.closing ++ renderElements more ++ trail

theorem render_withGapAfter (gap : List Char) (after : List Element) (trail : List Char) :
    renderElements (withGapAfter gap after trail).1 ++ (withGapAfter gap after trail).2
      = gap ++ behindGap after trail := by
  cases after <;> simp [withGapAfter, behindGap, Element.render, Element.closing]

theorem gapAfter_append_behindGap (after : List Element) (trail : List Char) :
    gapAfter after trail ++ behindGap after trail = renderElements after ++ trail := by
  cases after <;> simp [gapAfter, behindGap, Element.render]

/-- The text of a list, parted around one of its elements. -/
theorem render_around (helements : list.elements = before ++ e :: after) :
    list.render = (list.head ++ renderElements before ++ e.lead) ++ ((e.raw ++ e.closing) ++
      (gapAfter after list.trail ++ behindGap after list.trail ++ list.rest)) := by
  rw [gapAfter_append_behindGap]
  simp [render, inner, helements, Element.render]

/-- The text of a list in which a gap is left in the place of an element. What comes before loses
at most the comma at its end. -/
theorem render_joinAround (list : ListText) (hbefore : ∀ x ∈ before, x.comma) (e : Element)
    (after : List Element) (gap : List Char) :
    ∃ start, (list.joinAround before e after gap).render
        = start ++ (gap ++ behindGap after list.trail ++ list.rest) ∧
      (start = list.head ++ renderElements before ∨
        e.comma = false ∧ list.head ++ renderElements before = start ++ [',']) := by
  have hrender : ∀ before' gap', (⟨list.head, before' ++ (withGapAfter gap' after list.trail).1,
      (withGapAfter gap' after list.trail).2, list.rest⟩ : ListText).render
        = list.head ++ renderElements before' ++
          (gap' ++ behindGap after list.trail ++ list.rest) := by
    intro before' gap'
    rw [← render_withGapAfter]
    simp [render, inner]
  unfold joinAround
  cases hclosed : e.comma with
  | true => exact ⟨_, hrender before gap, .inl rfl⟩
  | false =>
    rcases List.eq_nil_or_concat before with rfl | ⟨front, previous, rfl⟩
    · exact ⟨_, hrender [] gap, .inl rfl⟩
    · have hprevious := hbefore previous (by simp)
      refine ⟨list.head ++ renderElements front ++ (previous.lead ++ previous.raw ++ previous.tail),
        ?_, .inr ⟨rfl, by simp [Element.render, Element.closing, hprevious]⟩⟩
      simp only [Bool.false_eq_true, if_false, dropLastComma, List.concat_eq_append,
        List.getLast?_concat, List.dropLast_concat]
      rw [hrender]
      simp [Element.render, Element.closing]

/-! ## Removal -/

/-- A line feed behind an element does not follow it at once. -/
theorem head?_behind_ne (h : list.Tiled) (helements : list.elements = before ++ e :: after)
    (hcrlf : Crlf list.render) :
    (gapAfter after list.trail ++ behindGap after list.trail ++ list.rest).head? ≠ some '\n' := by
  obtain ⟨c, hc, hne⟩ := (h.around helements).2.1.last_ne
  rw [render_around helements, ← List.append_assoc] at hcrlf
  refine hcrlf.head?_ne ?_
  simp [List.getLast?_append, Option.mem_def.1 hc, hne]

/-- No element stands alone: a carriage return shares its line. -/
theorem not_standsAlone (h : list.Tiled) (helements : list.elements = before ++ e :: after)
    (hcrlf : Crlf list.render) : ¬ standsAlone e (gapAfter after list.trail) := by
  intro hlines
  simp only [standsAlone, Bool.and_eq_true, List.contains_iff_mem] at hlines
  obtain ⟨⟨-, hbreak⟩, hblank⟩ := hlines
  have hbehind := head?_behind_ne h helements hcrlf
  rw [render_around helements, ← List.append_assoc, crlf_append_iff hbehind] at hcrlf
  have hlast : (firstLine (gapAfter after list.trail)).getLast? = some '\r' := by
    refine hcrlf.2 _ ((fromFirstBreak (gapAfter after list.trail)).drop 1 ++
      (behindGap after list.trail ++ list.rest)) ?_
    conv_lhs => rw [← firstLine_append_break hbreak]
    simp
  exact absurd (List.all_eq_true.1 hblank _ (List.mem_of_getLast? hlast)) (by decide)

theorem crlf_joinAround (h : list.Tiled) (helements : list.elements = before ++ e :: after)
    (hcrlf : Crlf list.render) :
    Crlf (list.joinAround before e after (e.lead ++ gapAfter after list.trail)).render := by
  obtain ⟨hbefore, he, -, -⟩ := h.around helements
  obtain ⟨start, hrender, hstart⟩ := list.render_joinAround (fun x hx => (hbefore x hx).2) e after
    (e.lead ++ gapAfter after list.trail)
  rw [render_around helements] at hcrlf
  have hcut := hcrlf.cut_of_last he.last_ne
  rw [hrender]
  rcases hstart with rfl | ⟨-, hcomma⟩
  · simpa using hcut
  · rw [hcomma, List.append_assoc, List.append_assoc] at hcut
    simpa using hcut.cut_of_last ⟨',', rfl, by decide⟩

theorem crlf_removeBetween (h : list.Tiled) (helements : list.elements = before ++ e :: after)
    (hcrlf : Crlf list.render) : Crlf (list.removeBetween before e after).render := by
  obtain ⟨-, he, hafter, -⟩ := h.around helements
  have hbehind := head?_behind_ne h helements hcrlf
  rcases list.removeBetween_cases before e after with ⟨hlines, -⟩ | ⟨-, hcases⟩
  · exact absurd hlines (not_standsAlone h helements hcrlf)
  rcases hcases with ⟨next, more, rfl, -, heq⟩ | ⟨front, previous, rfl, rfl, -, heq⟩ |
    ⟨-, -, heq⟩
  · -- The next element takes the place of the removed one.
    have hnext : (next.raw ++ (next.closing ++ renderElements more ++ list.trail ++ list.rest)).head?
        ≠ some '\n' := (hafter next (by simp)).item.head?_append_ne _
    have hcut : Crlf ((list.head ++ renderElements before ++ e.lead) ++
        (next.raw ++ (next.closing ++ renderElements more ++ list.trail ++ list.rest))) := by
      rw [render_around helements] at hcrlf
      have hparted : Crlf ((list.head ++ renderElements before ++ e.lead) ++
          ((e.raw ++ e.closing ++ next.lead) ++
            (next.raw ++ (next.closing ++ renderElements more ++ list.trail ++ list.rest)))) := by
        simpa [gapAfter, behindGap] using hcrlf
      exact hparted.cut hnext
    rw [heq]
    simpa [render, inner, Element.render, Element.closing] using hcut
  · -- The element before takes over what closes the removed one.
    have hbefore : list.render
        = (list.head ++ renderElements front ++ previous.lead ++ previous.raw) ++
          ((previous.closing ++ e.lead ++ e.raw) ++ (e.closing ++ list.trail ++ list.rest)) := by
      simp [render, inner, helements, Element.render]
    rw [hbefore] at hcrlf
    have hcut := hcrlf.cut_of_last (by
      obtain ⟨c, hc, hne⟩ := he.item.last_ne
      exact ⟨c, by simp [List.getLast?_append, Option.mem_def.1 hc], hne⟩)
    rw [heq]
    simpa [render, inner, Element.render, Element.closing] using hcut
  · rw [heq]
    exact crlf_joinAround h helements hcrlf

theorem crlf_foldl_remove (h : list.Tiled) (hcrlf : Crlf list.render) (names : List String) :
    Crlf (names.foldl remove list).render := by
  induction names generalizing list with
  | nil => exact hcrlf
  | cons name names ih =>
    refine ih (h.remove name).1 ?_
    exact remove_induction (motive := fun list' => Crlf list'.render) hcrlf
      (fun before e after helements => crlf_removeBetween h helements hcrlf) name

/-- An element with nothing but blanks and its own comma on its line, before `gap`, whose first line
ends with a carriage return. -/
structure HasLine (e : Element) (gap : List Char) : Prop where
  starts : '\n' ∈ e.lead
  indent : isBlankText (lastLine e.lead)
  tail : isBlankText e.tail
  ends : ∃ blanks more, gap = blanks ++ '\r' :: '\n' :: more ∧ isBlankText blanks

/-- Of the line of an element the blanks stay, between the same lines. -/
def LeavesBlankLine (e : Element) (text text' : List Char) : Prop :=
  ∃ front front' blanks back,
    text = front ++ (lastLine e.lead ++ e.raw ++ e.closing ++ blanks) ++ '\r' :: '\n' :: back ∧
    text' = front' ++ (lastLine e.lead ++ blanks) ++ '\r' :: '\n' :: back ∧
    isBlankText (lastLine e.lead ++ blanks) ∧
    front.getLast? = some '\n' ∧ front'.getLast? = some '\n' ∧
    front'.count '\n' = front.count '\n'

theorem leavesBlankLine_removeBetween (h : list.Tiled)
    (helements : list.elements = before ++ e :: after) (hcrlf : Crlf list.render)
    (hline : HasLine e (gapAfter after list.trail)) :
    LeavesBlankLine e list.render (list.removeBetween before e after).render := by
  obtain ⟨hbefore, -, -, -⟩ := h.around helements
  obtain ⟨blanks, more, hgap, hblanks⟩ := hline.ends
  have hbreak : '\n' ∈ gapAfter after list.trail := by simp [hgap]
  have heq : list.removeBetween before e after
      = list.joinAround before e after (e.lead ++ gapAfter after list.trail) := by
    rcases list.removeBetween_cases before e after with ⟨hlines, -⟩ | ⟨-, hcases⟩
    · exact absurd hlines (not_standsAlone h helements hcrlf)
    rcases hcases with ⟨next, more, rfl, hnot, -⟩ | ⟨front, previous, rfl, rfl, hnot, -⟩ |
      ⟨-, -, heq⟩
    · exact absurd (List.mem_append_right _ hbreak) hnot
    · exact absurd (List.mem_append_right _ hline.starts) hnot
    · exact heq
  obtain ⟨start, hrender, hstart⟩ := list.render_joinAround (fun x hx => (hbefore x hx).2) e after
    (e.lead ++ gapAfter after list.trail)
  have hlead := throughLastBreak_append_lastLine e.lead
  have hends := throughLastBreak_eq_append hline.starts
  refine ⟨list.head ++ renderElements before ++ throughLastBreak e.lead,
    start ++ throughLastBreak e.lead, blanks, more ++ behindGap after list.trail ++ list.rest,
    ?_, ?_, isBlankText_append hline.indent hblanks, ?_, ?_, ?_⟩
  · rw [render_around helements, hgap]
    conv_lhs => rw [← hlead]
    simp
  · rw [heq, hrender, hgap]
    conv_lhs => rw [← hlead]
    simp
  · rw [hends, ← List.append_assoc, List.getLast?_concat]
  · rw [hends, ← List.append_assoc, List.getLast?_concat]
  · rcases hstart with rfl | ⟨-, hcomma⟩
    · rfl
    · rw [hcomma]
      simp

/-! ## Addition -/

theorem getLast?_encode (style : QuoteStyle) (name : List Char) :
    (style.encode name).getLast? = some style.mark := by
  rw [QuoteStyle.encode, ← List.cons_append, List.getLast?_concat]

theorem not_mem_encode (style : QuoteStyle) {name : List Char} (h : '\n' ∉ name) :
    '\n' ∉ style.encode name := by
  have hinside : '\n' ∉ style.escape name := fun hmem =>
    (QuoteStyle.mem_escape hmem).elim h (by decide)
  cases style <;> simpa [QuoteStyle.encode, QuoteStyle.mark] using hinside

/-- Above a bracket with a line of its own an element is put behind a line feed that has no carriage
return before it. -/
theorem not_crlf_append (hhead : ∃ front, list.head = front ++ ['[']) (hbreak : '\n' ∈ list.trail)
    (style : QuoteStyle) (name : List Char) : ¬ Crlf (list.append (style.encode name)).render := by
  intro hcrlf
  rcases List.eq_nil_or_concat list.elements with hnil | ⟨front, last, hlast⟩
  · obtain ⟨start, hstart⟩ := hhead
    have hrender : ∃ more, (list.append (style.encode name)).render
        = (start ++ ['[']) ++ '\n' :: more := by
      simp [append, hnil, hbreak, render, inner, Element.render, hstart]
    obtain ⟨more, hmore⟩ := hrender
    simpa using hcrlf _ _ hmore
  · rw [List.concat_eq_append] at hlast
    have hclosing : ∃ c ∈ (style.encode name ++ if last.comma then [','] else []).getLast?,
        c ≠ '\r' := by
      cases last.comma with
      | true => exact ⟨',', by simp, by decide⟩
      | false =>
        exact ⟨style.mark, by simp [getLast?_encode], by cases style <;> decide⟩
    obtain ⟨c, hc, hne⟩ := hclosing
    rw [append_of_lines hlast hbreak] at hcrlf
    have := hcrlf (list.head ++ renderElements (front ++ [{ last with comma := true }]) ++
      (firstLine list.trail ++ '\n' :: list.itemIndentation front last) ++
      (style.encode name ++ if last.comma then [','] else []))
      ((fromFirstBreak list.trail).drop 1 ++ list.rest) (by
        conv_lhs => rw [fromFirstBreak_eq_cons hbreak]
        simp [render, inner, Element.render, Element.closing])
    rw [List.getLast?_append, Option.mem_def.1 hc] at this
    exact hne (Option.some.inj this)

/-- On the line of the last element nothing else than the element is put. -/
theorem crlf_append (h : list.Tiled) (hcrlf : Crlf list.render) (hbreak : '\n' ∉ list.trail)
    {fragment : List Char} (hfragment : '\n' ∉ fragment) : Crlf (list.append fragment).render := by
  rcases List.eq_nil_or_concat list.elements with hnil | ⟨front, last, hlast⟩
  · have hbehind : (list.trail ++ list.rest).head? ≠ some '\n' := by
      obtain ⟨after, hrest⟩ := h.rest
      cases htrail : list.trail with
      | nil => simp [hrest]
      | cons c trail => simpa using fun heq => hbreak (by simp [htrail, heq])
    have hparted : Crlf (list.head ++ (list.trail ++ list.rest)) := by
      simpa [render, inner, hnil] using hcrlf
    simpa [append, hnil, hbreak, render, inner, Element.render, Element.closing]
      using hparted.insert hbehind hfragment
  · rw [List.concat_eq_append] at hlast
    have hlines : list.render = (list.head ++ renderElements front ++ last.lead ++ last.raw) ++
        (last.closing ++ list.trail ++ list.rest) := by
      simp [render, inner, hlast, Element.render]
    rw [hlines] at hcrlf
    obtain ⟨c, hc, hne⟩ := (h.elements last (by simp [hlast])).item.last_ne
    have hbehind := hcrlf.head?_ne (by simp [List.getLast?_append, Option.mem_def.1 hc, hne])
    have hmiddle : '\n' ∉ ',' :: (inlineSeparator front last ++ fragment) := by
      simp [not_mem_inlineSeparator, hfragment]
    rw [append_of_line hlast hbreak]
    simpa [render, inner, Element.render, Element.closing] using hcrlf.insert hbehind hmiddle

/-- An addition does not change whether the closing bracket has a line of its own. -/
theorem break_mem_append_iff (list : ListText) (fragment : List Char) :
    '\n' ∈ (list.append fragment).trail ↔ '\n' ∈ list.trail := by
  rcases List.eq_nil_or_concat list.elements with hnil | ⟨front, last, hlast⟩
  · by_cases hbreak : '\n' ∈ list.trail <;> simp [append, hnil, hbreak]
  · rw [List.concat_eq_append] at hlast
    by_cases hbreak : '\n' ∈ list.trail
    · rw [append_of_lines hlast hbreak, fromFirstBreak_eq_cons hbreak]
      simp [hbreak]
    · rw [append_of_line hlast hbreak]

theorem break_mem_foldl_extend_iff (list : ListText) (names : List String) :
    '\n' ∈ (names.foldl extend list).trail ↔ '\n' ∈ list.trail := by
  induction names generalizing list with
  | nil => rfl
  | cons name names ih =>
    rw [List.foldl_cons, ih, extend]
    split
    · rfl
    · exact break_mem_append_iff ..

/-- A run of additions keeps `Crlf` exactly if all that it writes is on the line of the last
element. -/
theorem crlf_foldl_extend_iff (h : list.Tiled) (hcrlf : Crlf list.render)
    (hhead : ∃ front, list.head = front ++ ['[']) {names : List String}
    (hnames : ∀ name ∈ names, '\n' ∉ name.toList) :
    Crlf (names.foldl extend list).render ↔
      ('\n' ∈ list.trail → ∀ name ∈ names, name ∈ list.values) := by
  -- The last addition that writes something decides, so the induction is from behind.
  induction names using List.reverseRecOn with
  | nil => simpa using hcrlf
  | append_singleton names name ih =>
    rw [List.forall_mem_append, List.forall_mem_singleton] at hnames
    have ih := ih hnames.1
    have hbreak := break_mem_foldl_extend_iff list names
    have htiled := (h.foldl_extend fun name hname hmem => absurd hmem (hnames.1 name hname)).1
    have hkept : (∀ name ∈ names, name ∈ list.values) → names.foldl extend list = list :=
      foldl_extend_of_mem
    rw [List.foldl_append, List.foldl_cons, List.foldl_nil, List.forall_mem_append,
      List.forall_mem_singleton]
    by_cases hmem : name ∈ (names.foldl extend list).values
    · rw [extend_of_mem hmem, ih]
      exact ⟨fun hall hlines => ⟨hall hlines, hkept (hall hlines) ▸ hmem⟩,
        fun hall hlines => (hall hlines).1⟩
    rw [extend, if_neg hmem]
    by_cases hlines : '\n' ∈ list.trail
    · have hhead' : ∃ front, (names.foldl extend list).head = front ++ ['['] := by
        rwa [(foldl_frame extend_frame list names).1]
      refine iff_of_false (not_crlf_append hhead' (hbreak.2 hlines) _ _) fun hall => hmem ?_
      rw [hkept (hall hlines).1]
      exact (hall hlines).2
    · refine iff_of_true ?_ (absurd · hlines)
      exact crlf_append htiled (ih.2 (absurd · hlines)) (mt hbreak.1 hlines)
        (not_mem_encode _ hnames.2)

end ListText

namespace Artifact

open ListText

/-- Where every line feed of a text stands behind a carriage return, that is so after a change set
of names without line feeds exactly if, with the closing bracket on a line of its own when the
additions start, there is nothing to add. Every removal keeps it so, and one of an element that has
its line to itself leaves a blank line. -/
theorem crlf_apply_iff {artifact result : Artifact} {list : ListText} {add remove : List String}
    (h : artifact.locate = .ok list) (hcrlf : Crlf artifact.text.toList)
    (hadd : ∀ name ∈ add, '\n' ∉ name.toList)
    (happly : artifact.apply (.ofNames add remove) = .ok result) :
    (Crlf result.text.toList ↔
      ('\n' ∈ (remove.foldl ListText.remove list).trail →
        ∀ name ∈ add, name ∈ (remove.foldl ListText.remove list).values)) ∧
    ∀ front name back, remove = front ++ name :: back →
      ∃ reduced, front.foldl ListText.remove list = reduced ∧ Crlf reduced.render ∧
        ∀ before e after, reduced.elements = before ++ e :: after → e.value = name →
          (∀ x ∈ before, x.value ≠ name) → HasLine e (gapAfter after reduced.trail) →
          LeavesBlankLine e reduced.render (reduced.remove name).render := by
  obtain ⟨htiled, -⟩ := locate_eq_ok_iff.1 h
  obtain ⟨hvalid, -⟩ := of_apply_eq_ok happly
  rw [← render_locate h] at hcrlf
  have hreduced : ∀ names : List String, (names.foldl ListText.remove list).Tiled ∧
      Crlf (names.foldl ListText.remove list).render := fun names =>
    ⟨(htiled.foldl_remove names).1, crlf_foldl_remove htiled hcrlf names⟩
  constructor
  · rw [apply_ofNames h hvalid] at happly
    obtain ⟨-, hlocate⟩ := foldlM_removeValue h remove
    have hrun := (foldlM_addNode hlocate fun name hname hmem => absurd hmem (hadd name hname)).1
    obtain rfl := Except.ok.inj (hrun.symm.trans happly)
    have hhead : ∃ front, (remove.foldl ListText.remove list).head = front ++ ['['] := by
      rw [(list.foldl_remove_frame remove).1]
      exact exists_head_of_locate h
    rw [withList, String.toList_ofList]
    exact crlf_foldl_extend_iff (hreduced remove).1 (hreduced remove).2 hhead hadd
  · rintro front name back -
    refine ⟨_, rfl, (hreduced front).2, fun before e after helements hvalue hfirst hline => ?_⟩
    rw [ListText.remove, span_of_first helements hvalue hfirst]
    exact leavesBlankLine_removeBetween (hreduced front).1 helements (hreduced front).2 hline

/-- Two elements with a line each, all line feeds behind carriage returns. -/
def crlfLines : ListText where
  head := "x = [".toList
  elements :=
    [{ lead := "\r\n  ".toList, raw := "'a'".toList, comma := true },
     { lead := "\r\n  ".toList, raw := "'b'".toList, comma := true }]
  trail := "\r\n".toList
  rest := "]\r\n".toList

/-- The same with the closing bracket behind the last element. -/
def crlfTail : ListText where
  head := "x = [".toList
  elements :=
    [{ lead := "\r\n  ".toList, raw := "'a'".toList, comma := true },
     { lead := "\r\n  ".toList, raw := "'b'".toList, comma := false }]
  trail := []
  rest := "]\r\n".toList

/-- An addition in the line of the last element keeps `Crlf`, and the line of the removed element is
left. -/
theorem crlf_apply_iff_of_removal :
    apply { text := "x = [\r\n  'a',\r\n  'b']\r\n", anchor := "x", origin := "file" }
        (.ofNames ["c"] ["a"])
      = .ok { text := "x = [\r\n  \r\n  'b', 'c']\r\n", anchor := "x", origin := "file" } ∧
    Crlf "x = [\r\n  \r\n  'b', 'c']\r\n".toList ∧
    LeavesBlankLine { lead := "\r\n  ".toList, raw := "'a'".toList, comma := true }
      crlfTail.render (crlfTail.remove "a").render := by
  have hlocate : locate { text := "x = [\r\n  'a',\r\n  'b']\r\n", anchor := "x",
                          origin := "file" } = .ok crlfTail := by decide +kernel
  have happly :
      apply { text := "x = [\r\n  'a',\r\n  'b']\r\n", anchor := "x", origin := "file" }
        (.ofNames ["c"] ["a"])
      = .ok { text := "x = [\r\n  \r\n  'b', 'c']\r\n", anchor := "x", origin := "file" } := by
    decide +kernel
  obtain ⟨hadded, hremoved⟩ := crlf_apply_iff hlocate (by decide +kernel) (by decide) happly
  obtain ⟨reduced, rfl, -, hline⟩ := hremoved [] "a" [] rfl
  -- No line feed is before the bracket, so the first half asks nothing of what is added.
  have hsame : '\n' ∉ (["a"].foldl ListText.remove crlfTail).trail := by decide +kernel
  refine ⟨happly, hadded.2 (absurd · hsame),
    hline [] _ _ rfl (by decide +kernel) (by simp) ?_⟩
  exact ⟨by decide, by decide, by decide, [], "  ".toList, rfl, rfl⟩

/-- An addition writes a line feed alone, and a removal leaves a blank line. -/
theorem not_crlf_apply_of_lines :
    Crlf "x = [\r\n  'a',\r\n  'b',\r\n]\r\n".toList ∧
    locate { text := "x = [\r\n  'a',\r\n  'b',\r\n]\r\n", anchor := "x", origin := "file" }
      = .ok crlfLines ∧
    apply { text := "x = [\r\n  'a',\r\n  'b',\r\n]\r\n", anchor := "x", origin := "file" }
        (.ofNames ["c"] ["a"])
      = .ok { text := "x = [\r\n  \r\n  'b',\r\n  'c',\n]\r\n", anchor := "x",
              origin := "file" } ∧
    ¬ Crlf "x = [\r\n  \r\n  'b',\r\n  'c',\n]\r\n".toList :=
  ⟨by decide +kernel, by decide +kernel, by decide +kernel, by decide +kernel⟩

end Artifact

end StubManager
