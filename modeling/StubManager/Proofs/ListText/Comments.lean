import Mathlib.Data.List.Basic
import StubManager.Proofs.ListText.Editing

/-!
# Comments of a list

`ListText.comments` are the comments between the brackets of a list, in order: those of the gaps
and those inside of its items. `ListText.marks` tells the two apart. Main statements:

* `Tiled.comments_eq`: they are the comments that reading the text comes across;
* `marks_remove`: a removal takes an item and nothing else, unless the element goes alone and
  has a comment between it and its comma (`LosesComment`);
* `comments_append`: an addition keeps all comments.
-/

namespace StubManager

open Text Piece

/-! ## Comments of a text -/

/-- The comments among pieces, in order. -/
def Piece.commentsOf (pieces : List Piece) : List (List Char) :=
  pieces.filterMap fun
    | comment words => some words
    | _ => none

/-- The comments of a text inside of a list, up to the bracket that closes the list. -/
def commentsIn (text : List Char) : List (List Char) := commentsOf (body 0 text).1

theorem Piece.Lexed.commentsIn_append {pieces : List Piece} (h : Lexed 0 pieces 0)
    (rest : List Char) : commentsIn (textOf pieces ++ rest) = commentsOf pieces ++ commentsIn rest := by
  rw [commentsIn, h.body_append, commentsOf, List.filterMap_append]
  rfl

theorem Piece.Lexed.commentsIn {pieces : List Piece} (h : Lexed 0 pieces 0) :
    commentsIn (textOf pieces) = commentsOf pieces := by
  have := h.commentsIn_append []
  rw [List.append_nil] at this
  rw [this, show StubManager.commentsIn [] = [] by rw [StubManager.commentsIn, body]; rfl,
    List.append_nil]

theorem commentsIn_append_of_lexed {front : List Char}
    (h : ∃ pieces, Lexed 0 pieces 0 ∧ textOf pieces = front) (back : List Char) :
    commentsIn (front ++ back) = commentsIn front ++ commentsIn back := by
  obtain ⟨pieces, hlexed, rfl⟩ := h
  rw [hlexed.commentsIn_append, hlexed.commentsIn]

/-- A string literal has no comments, whether it can be read or not. -/
theorem commentsIn_encode (style : QuoteStyle) (name : List Char) :
    commentsIn (style.encode name) = [] := by
  by_cases hname : '\n' ∈ name
  · have hscan := Literal.scan?_encode_eq_none style hname []
    rw [commentsIn, QuoteStyle.encode, body_unterminated (QuoteStyle.ofMark?_mark style) hscan]
    rfl
  · have hscan := Literal.scan?_encode style name [] hname
    rw [commentsIn, QuoteStyle.encode, body_literal (QuoteStyle.ofMark?_mark style) hscan, body]
    rfl

namespace IsGap

variable {gap : List Char}

theorem lexed (h : IsGap gap) : ∃ pieces, Lexed 0 pieces 0 ∧ textOf pieces = gap := by
  obtain ⟨gaps, hlexed, -, htext⟩ := h.exists_lexed 0
  exact ⟨gaps, hlexed, htext⟩

theorem commentsIn_append (h : IsGap gap) (back : List Char) :
    commentsIn (gap ++ back) = commentsIn gap ++ commentsIn back :=
  commentsIn_append_of_lexed h.lexed back

theorem isListBlank_of_isBlankText (h : isBlankText gap) : ∀ c ∈ gap, isListBlank c := by
  intro c hc
  have := List.all_eq_true.1 h c hc
  simp_all [isSpaceOrTab, isListBlank]

/-- There is no comment among blanks. -/
theorem commentsIn_of_blanks (h : ∀ c ∈ gap, isListBlank c) : commentsIn gap = [] := by
  induction gap with
  | nil => rw [commentsIn, body]; rfl
  | cons c gap ih =>
    rw [List.forall_mem_cons] at h
    have hone : IsGap [c] := .blank h.1 .nil
    rw [← List.singleton_append, hone.commentsIn_append, ih h.2, List.append_nil]
    exact (Lexed.cons (.blank h.1) .nil : Lexed 0 [Piece.blank c] 0).commentsIn

/-- A gap on one line has no comment. -/
theorem blanks_of_line (h : IsGap gap) (hline : '\n' ∉ gap) : ∀ c ∈ gap, isListBlank c := by
  induction h with
  | nil => simp
  | blank hc _ ih =>
    rw [List.mem_cons, not_or] at hline
    exact List.forall_mem_cons.2 ⟨hc, ih hline.2⟩
  | comment => simp at hline

theorem commentsIn_of_line (h : IsGap gap) (hline : '\n' ∉ gap) : commentsIn gap = [] :=
  commentsIn_of_blanks (h.blanks_of_line hline)

theorem commentsIn_of_isBlankText (h : isBlankText gap) : commentsIn gap = [] :=
  commentsIn_of_blanks (isListBlank_of_isBlankText h)

/-- The comments of a gap do not stand on its last line if that is blank. -/
theorem commentsIn_throughLastBreak (h : IsGap gap) (hbreak : '\n' ∈ gap)
    (hblank : isBlankText (lastLine gap)) : commentsIn (Text.throughLastBreak gap) = commentsIn gap := by
  conv_rhs => rw [← throughLastBreak_append_lastLine gap]
  rw [(h.throughLastBreak hbreak).commentsIn_append, commentsIn_of_isBlankText hblank,
    List.append_nil]

theorem commentsIn_append_break (h : IsGap gap) (hbreak : '\n' ∈ gap) :
    commentsIn gap = commentsIn (firstLine gap ++ ['\n'])
      ++ commentsIn ((Text.fromFirstBreak gap).drop 1) := by
  rw [← (h.firstLine_break hbreak).commentsIn_append, List.append_assoc, List.singleton_append,
    firstLine_append_break hbreak]

/-- The comments of a gap stand behind its first line if that is blank. -/
theorem commentsIn_behindFirstBreak (h : IsGap gap) (hbreak : '\n' ∈ gap)
    (hblank : isBlankText (firstLine gap)) :
    commentsIn ((Text.fromFirstBreak gap).drop 1) = commentsIn gap := by
  have hline : commentsIn (firstLine gap ++ ['\n']) = [] := commentsIn_of_blanks fun c hc => by
    rcases List.mem_append.1 hc with hc | hc
    · exact isListBlank_of_isBlankText hblank c hc
    · obtain rfl := List.mem_singleton.1 hc
      rfl
  rw [h.commentsIn_append_break hbreak, hline, List.nil_append]

end IsGap

/-! ## Marks -/

/-- What a list has between its brackets, blanks and commas apart. -/
inductive Mark where
  | comment (words : List Char)
  | item (text : List Char)

namespace Mark

/-- The comments that a mark is or has in it. -/
def comments : Mark → List (List Char)
  | comment words => [words]
  | item text => commentsIn text

/-- The words of a comment between items. -/
def words? : Mark → Option (List Char)
  | comment words => some words
  | item _ => none

/-- The text of an item. -/
def item? : Mark → Option (List Char)
  | comment _ => none
  | item text => some text

@[simp] theorem filterMap_words?_comment (words : List Char) (marks : List Mark) :
    (comment words :: marks).filterMap words? = words :: marks.filterMap words? := rfl

@[simp] theorem filterMap_words?_item (text : List Char) (marks : List Mark) :
    (item text :: marks).filterMap words? = marks.filterMap words? := rfl

@[simp] theorem filterMap_item?_comment (words : List Char) (marks : List Mark) :
    (comment words :: marks).filterMap item? = marks.filterMap item? := rfl

@[simp] theorem filterMap_item?_item (text : List Char) (marks : List Mark) :
    (item text :: marks).filterMap item? = text :: marks.filterMap item? := rfl

/-- Whether a mark is an item that stands for a value. -/
def standsFor (value : String) : Mark → Bool
  | comment _ => false
  | item text => valueOf text == value

/-- The comments of a gap. -/
def ofGap (gap : List Char) : List Mark := (commentsIn gap).map comment

theorem standsFor_ofGap {gap : List Char} {value : String} :
    ∀ mark ∈ ofGap gap, ¬ mark.standsFor value := by
  intro mark hmark
  obtain ⟨words, -, rfl⟩ := List.mem_map.1 hmark
  simp [standsFor]

/-- Marks hold the comments between the items and those of the items. -/
theorem length_comments (marks : List Mark) :
    (marks.flatMap comments).length
      = (marks.filterMap words?).length + ((marks.filterMap item?).flatMap commentsIn).length := by
  induction marks with
  | nil => rfl
  | cons mark marks ih =>
    rw [List.flatMap_cons, List.length_append, ih]
    cases mark with
    | comment words =>
      rw [filterMap_words?_comment, filterMap_item?_comment, List.length_cons]
      simp only [comments, List.length_singleton]
      omega
    | item text =>
      rw [filterMap_words?_item, filterMap_item?_item, List.flatMap_cons, List.length_append]
      simp only [comments]
      omega

theorem filterMap_words?_eraseP (value : String) (marks : List Mark) :
    (marks.eraseP (standsFor value)).filterMap words? = marks.filterMap words? := by
  induction marks with
  | nil => rfl
  | cons mark marks ih =>
    by_cases h : mark.standsFor value
    · cases mark with
      | comment words => simp [standsFor] at h
      | item text => rw [List.eraseP_cons_of_pos h, filterMap_words?_item]
    · rw [List.eraseP_cons_of_neg h, List.filterMap_cons, List.filterMap_cons, ih]

theorem filterMap_item?_eraseP (value : String) (marks : List Mark) :
    (marks.eraseP (standsFor value)).filterMap item?
      = (marks.filterMap item?).eraseP (valueOf · == value) := by
  induction marks with
  | nil => rfl
  | cons mark marks ih =>
    cases mark with
    | comment words =>
      rw [List.eraseP_cons_of_neg (by simp [standsFor]), filterMap_item?_comment,
        filterMap_item?_comment, ih]
    | item text =>
      by_cases h : valueOf text == value
      · simp [standsFor, h]
      · simp [standsFor, h, ih]

/-- The marks that are left when, of each of the names in turn, the first item goes that stands for
it. -/
def kept (names : List String) (marks : List Mark) : List Mark :=
  names.foldl (fun marks name => marks.eraseP (standsFor name)) marks

theorem filterMap_words?_kept (names : List String) (marks : List Mark) :
    (kept names marks).filterMap words? = marks.filterMap words? := by
  induction names generalizing marks with
  | nil => rfl
  | cons name names ih => exact (ih _).trans (filterMap_words?_eraseP name marks)

theorem filterMap_item?_kept (names : List String) (marks : List Mark) :
    (kept names marks).filterMap item?
      = names.foldl (fun items name => items.eraseP (valueOf · == name))
          (marks.filterMap item?) := by
  induction names generalizing marks with
  | nil => rfl
  | cons name names ih =>
    rw [kept, List.foldl_cons, List.foldl_cons, ← filterMap_item?_eraseP]
    exact ih _

theorem kept_sublist {marks marks' : List Mark} (h : marks.Sublist marks') (names : List String) :
    (kept names marks).Sublist (kept names marks') := by
  induction names generalizing marks marks' with
  | nil => exact h
  | cons name names ih => exact ih h.eraseP

end Mark

/-- The marks of an element and the gaps around it. -/
def Element.marks (e : Element) : List Mark :=
  Mark.ofGap e.lead ++ Mark.item e.raw :: Mark.ofGap e.tail

namespace ListText

variable {list : ListText}

/-- The comments and items of a list, in order. -/
def marks (list : ListText) : List Mark :=
  list.elements.flatMap Element.marks ++ Mark.ofGap list.trail

/-- The comments of a list, in order. -/
def comments (list : ListText) : List (List Char) := list.marks.flatMap Mark.comments

/-- The comments of a list but for those inside of the items that go, of each of the names in turn
the first that stands for it. -/
def commentsBeside (names : List String) (list : ListText) : List (List Char) :=
  (Mark.kept names list.marks).flatMap Mark.comments

theorem filterMap_item?_marks (list : ListText) : list.marks.filterMap Mark.item? = list.items := by
  have hgap : ∀ gap, (Mark.ofGap gap).filterMap Mark.item? = [] := fun gap => by
    simp [Mark.ofGap, Mark.item?, List.filterMap_eq_nil_iff]
  rw [marks, List.filterMap_append, hgap, List.append_nil, items]
  induction list.elements with
  | nil => rfl
  | cons e elements ih =>
    rw [List.flatMap_cons, List.filterMap_append, ih, Element.marks, List.filterMap_append, hgap,
      List.filterMap_cons, hgap]
    rfl

theorem flatMap_comments_ofGap (gap : List Char) :
    (Mark.ofGap gap).flatMap Mark.comments = commentsIn gap := by
  rw [Mark.ofGap, List.flatMap_map]
  exact List.flatMap_singleton' _

/-- The comments of a list that can be read are those that reading comes across. -/
theorem Tiled.comments_eq (h : list.Tiled) :
    list.comments = commentsIn (list.inner ++ list.rest) := by
  obtain ⟨after, hrest⟩ := h.rest
  have hend : commentsIn list.rest = [] := by rw [hrest, commentsIn, body_closed]; rfl
  have helements : ∀ back, commentsIn (renderElements list.elements ++ back)
      = (list.elements.flatMap Element.marks).flatMap Mark.comments ++ commentsIn back := by
    have htiled := h.elements
    generalize list.elements = elements at *
    intro back
    induction elements with
    | nil => rfl
    | cons e elements ih =>
      rw [List.forall_mem_cons] at htiled
      obtain ⟨⟨hlead, ⟨pieces, hpieces, -, -, hraw⟩, htail, -⟩, htiled⟩ := htiled
      have hcomma : ∀ back, commentsIn ((if e.comma then [','] else []) ++ back)
          = commentsIn back := by
        intro back
        split
        · exact (Lexed.cons .separator .nil : Lexed 0 [separator] 0).commentsIn_append back
        · rfl
      rw [renderElements_cons, Element.render, Element.closing]
      simp only [List.append_assoc]
      rw [hlead.commentsIn_append, commentsIn_append_of_lexed ⟨pieces, hpieces, hraw⟩,
        htail.commentsIn_append, hcomma, ih htiled]
      simp [Element.marks, flatMap_comments_ofGap, Mark.comments]
  rw [comments, marks, List.flatMap_append, flatMap_comments_ofGap, inner, List.append_assoc,
    helements, h.trail.commentsIn_append, hend, List.append_nil]

/-! ## Removal -/

/-- Whether an element is the last one and another is before it on its line. -/
def LastOnLine (before : List Element) (e : Element) (after : List Element) : Prop :=
  after = [] ∧ ∃ front previous, before = front ++ [previous] ∧ '\n' ∉ previous.closing ++ e.lead

/-- Whether the element that goes for a name takes a comment between it and its comma along. -/
def LosesComment (list : ListText) (name : String) : Prop :=
  ∃ before e after, list.elements = before ++ e :: after ∧ e.value = name ∧
    (∀ x ∈ before, x.value ≠ name) ∧ commentsIn e.tail ≠ [] ∧ ¬ LastOnLine before e after

theorem marks_joinAround (h : list.Tiled) {before after : List Element} {e : Element}
    (helements : list.elements = before ++ e :: after) {gap : List Char}
    (hcomments : commentsIn gap = commentsIn e.lead ++ commentsIn (gapAfter after list.trail)) :
    (list.joinAround before e after gap).marks
      = before.flatMap Element.marks ++ (Mark.ofGap e.lead
        ++ ((after.flatMap Element.marks) ++ Mark.ofGap list.trail)) := by
  obtain ⟨hbefore, -, -, -⟩ := h.around helements
  obtain ⟨front, gap', hjoin, hmarks⟩ : ∃ front gap',
      (if e.comma then (before, gap) else dropLastComma before gap) = (front, gap') ∧
        front.flatMap Element.marks ++ Mark.ofGap gap'
          = before.flatMap Element.marks ++ Mark.ofGap gap := by
    split
    · exact ⟨before, gap, rfl, rfl⟩
    · rcases List.eq_nil_or_concat before with rfl | ⟨front, previous, rfl⟩
      · exact ⟨[], gap, rfl, rfl⟩
      · have htail := (hbefore previous (by simp)).1.tail
        refine ⟨front ++ [{ previous with tail := [], comma := false }], previous.tail ++ gap,
          by simp [dropLastComma], ?_⟩
        have hnil : Mark.ofGap [] = [] := by rw [Mark.ofGap, IsGap.commentsIn_of_blanks (by simp)]; rfl
        simp [Element.marks, Mark.ofGap, htail.commentsIn_append] at hnil ⊢
        exact hnil
  have hfree : Mark.ofGap gap = Mark.ofGap e.lead ++ Mark.ofGap (gapAfter after list.trail) := by
    rw [Mark.ofGap, hcomments, List.map_append]
    rfl
  simp only [ListText.joinAround, hjoin, marks]
  cases after with
  | nil =>
    rw [withGapAfter, List.append_nil, hmarks, hfree]
    rfl
  | cons next more =>
    simp only [withGapAfter, List.flatMap_append, List.flatMap_cons, Element.marks]
    simp only [← List.append_assoc, hmarks, hfree, gapAfter]

/-- An element goes with the comments inside of it; those around it stay, but for a comment before
the comma of an element that goes alone. -/
theorem marks_removeBetween (h : list.Tiled) {before after : List Element} {e : Element}
    (helements : list.elements = before ++ e :: after) :
    ∃ tail, (list.removeBetween before e after).marks
        = before.flatMap Element.marks ++ (Mark.ofGap e.lead ++ (tail
          ++ (after.flatMap Element.marks ++ Mark.ofGap list.trail))) ∧
      (LastOnLine before e after → tail = Mark.ofGap e.tail) ∧
      (¬ LastOnLine before e after → tail = []) := by
  obtain ⟨hbefore, he, hafter, hcomma⟩ := h.around helements
  have hgap := h.gapAfter hafter
  have hnil : Mark.ofGap [] = [] := by rw [Mark.ofGap, IsGap.commentsIn_of_blanks (by simp)]; rfl
  have hline : ∀ {gap}, IsGap gap → '\n' ∉ gap → Mark.ofGap gap = [] := fun hgap hbreak => by
    rw [Mark.ofGap, hgap.commentsIn_of_line hbreak]; rfl
  rcases list.removeBetween_cases before e after with ⟨hlines, heq⟩ | ⟨-, hcases⟩
  · simp only [standsAlone, Bool.and_eq_true, Bool.not_eq_true', List.contains_iff_mem] at hlines
    obtain ⟨⟨⟨⟨hlead, hblank⟩, htail⟩, hbreak⟩, hblank'⟩ := hlines
    have htail' : Mark.ofGap e.tail = [] := hline he.tail (by simpa using htail)
    refine ⟨[], ?_, fun _ => htail'.symm, fun _ => rfl⟩
    rw [heq, List.nil_append]
    refine marks_joinAround h helements ?_
    rw [(he.lead.throughLastBreak hlead).commentsIn_append,
      he.lead.commentsIn_throughLastBreak hlead hblank,
      hgap.commentsIn_behindFirstBreak hbreak hblank']
  rcases hcases with ⟨next, more, rfl, hbreak, heq⟩ | ⟨front, previous, rfl, rfl, hbreak, heq⟩ |
    ⟨hnext, hprevious, heq⟩
  · rw [Element.closing, List.mem_append, List.mem_append, not_or, not_or] at hbreak
    refine ⟨[], ?_, fun _ => (hline he.tail hbreak.1.1).symm, fun _ => rfl⟩
    rw [heq]
    simp [marks, Element.marks, hline (hafter next (by simp)).lead hbreak.2]
  · refine ⟨Mark.ofGap e.tail, ?_, fun _ => rfl, fun h => absurd ⟨rfl, _, _, rfl, hbreak⟩ h⟩
    rw [Element.closing, List.mem_append, List.mem_append, not_or, not_or] at hbreak
    have htail := (hbefore previous (by simp)).1.tail
    rw [heq]
    simp [marks, Element.marks, hline he.lead hbreak.2, hline htail hbreak.1.1]
  · refine ⟨[], ?_, ?_, fun _ => rfl⟩
    · rw [heq, List.nil_append]
      exact marks_joinAround h helements (he.lead.commentsIn_append _)
    · rintro ⟨rfl, front, previous, rfl, hbreak⟩
      exact absurd (hprevious front previous rfl rfl) hbreak

/-- A removal takes the item, and beside it nothing but a comment before the comma of an element
that goes alone. -/
theorem marks_remove (h : list.Tiled) (name : String) :
    (list.remove name).marks.Sublist (list.marks.eraseP (Mark.standsFor name)) ∧
      (¬ list.LosesComment name →
        (list.remove name).marks = list.marks.eraseP (Mark.standsFor name)) ∧
      (list.LosesComment name → ((list.remove name).marks.filterMap Mark.words?).length
        < (list.marks.filterMap Mark.words?).length) := by
  have hspan := List.span_eq_takeWhile_dropWhile (·.value != name) list.elements
  have hcat := List.takeWhile_append_dropWhile (p := (·.value != name)) (l := list.elements)
  have hbefore : ∀ x ∈ list.elements.takeWhile (·.value != name), x.value ≠ name :=
    fun x hx => by simpa using List.mem_takeWhile_imp hx
  have hnot := List.head?_dropWhile_not (·.value != name) list.elements
  have hskip : ∀ elements : List Element, (∀ x ∈ elements, x.value ≠ name) →
      ∀ mark ∈ elements.flatMap Element.marks, ¬ mark.standsFor name := by
    intro elements helements mark hmark
    obtain ⟨x, hx, hmem⟩ := List.mem_flatMap.1 hmark
    rcases List.mem_append.1 hmem with hmem | hmem
    · exact Mark.standsFor_ofGap mark hmem
    · rcases List.mem_cons.1 hmem with rfl | hmem
      · simpa [Mark.standsFor] using helements x hx
      · exact Mark.standsFor_ofGap mark hmem
  rw [ListText.remove, hspan]
  generalize list.elements.takeWhile (·.value != name) = before at *
  cases hdrop : list.elements.dropWhile (·.value != name) with
  | nil =>
    rw [hdrop, List.append_nil] at hcat
    have hkeep : list.marks.eraseP (Mark.standsFor name) = list.marks := by
      refine List.eraseP_of_forall_not fun mark hmark => ?_
      rcases List.mem_append.1 hmark with hmark | hmark
      · exact hskip _ (hcat ▸ hbefore) mark hmark
      · exact Mark.standsFor_ofGap mark hmark
    refine ⟨by rw [hkeep], fun _ => hkeep.symm, ?_⟩
    rintro ⟨front, e, back, helements, hvalue, -⟩
    exact absurd hvalue (hbefore e (by rw [hcat, helements]; simp))
  | cons e after =>
    rw [hdrop] at hcat hnot
    have hvalue : e.value = name := by simpa using hnot
    obtain ⟨tail, hmarks, hlast, halone⟩ := marks_removeBetween h hcat.symm
    have hmark : Mark.standsFor name (.item e.raw) := by simpa [Mark.standsFor] using hvalue
    have herase : list.marks.eraseP (Mark.standsFor name)
        = before.flatMap Element.marks ++ (Mark.ofGap e.lead ++ (Mark.ofGap e.tail
          ++ (after.flatMap Element.marks ++ Mark.ofGap list.trail))) := by
      rw [marks, ← hcat, List.flatMap_append, List.flatMap_cons, Element.marks]
      simp only [List.append_assoc, List.cons_append]
      rw [List.eraseP_append_right _ (hskip before hbefore),
        List.eraseP_append_right _ Mark.standsFor_ofGap, List.eraseP_cons_of_pos hmark]
    have hloses : list.LosesComment name ↔
        commentsIn e.tail ≠ [] ∧ ¬ LastOnLine before e after := by
      constructor
      · rintro ⟨before', e', after', helements, hvalue', hbefore', hlost⟩
        have hfirst := span_of_first helements hvalue' hbefore'
        rw [span_of_first hcat.symm hvalue hbefore] at hfirst
        cases hfirst
        exact hlost
      · exact fun hlost => ⟨before, e, after, hcat.symm, hvalue, hbefore, hlost⟩
    rw [hmarks, herase, hloses]
    have htail : tail = Mark.ofGap e.tail ∨ tail = [] := by
      by_cases h : LastOnLine before e after
      · exact .inl (hlast h)
      · exact .inr (halone h)
    refine ⟨?_, fun hkeeps => ?_, fun hlost => ?_⟩
    · have hsub : tail.Sublist (Mark.ofGap e.tail) := by
        rcases htail with rfl | rfl
        · exact List.Sublist.refl _
        · exact List.nil_sublist _
      exact ((hsub.append_right _).append_left _).append_left _
    · rw [not_and, not_not] at hkeeps
      by_cases hnil : commentsIn e.tail = []
      · have hgap : Mark.ofGap e.tail = [] := by rw [Mark.ofGap, hnil]; rfl
        rcases htail with rfl | rfl
        · rfl
        · rw [hgap]
      · rw [hlast (hkeeps hnil)]
    · rw [marks, ← hcat, halone hlost.2]
      have hcount : ((Mark.ofGap e.tail).filterMap Mark.words?).length ≠ 0 := by
        rw [Mark.ofGap, List.filterMap_map]
        simpa [Function.comp_def, Mark.words?] using hlost.1
      simp only [List.flatMap_append, List.flatMap_cons, Element.marks, List.filterMap_append,
        List.length_append, Mark.filterMap_words?_item, List.nil_append]
      omega

/-! ## Addition -/

/-- The gaps of a list are gaps, whatever stands between them. -/
def Gapped (list : ListText) : Prop :=
  (∀ e ∈ list.elements, IsGap e.lead ∧ IsGap e.tail) ∧ IsGap list.trail

theorem Tiled.gapped (h : list.Tiled) : list.Gapped :=
  ⟨fun e he => ⟨(h.elements e he).lead, (h.elements e he).tail⟩, h.trail⟩

theorem comments_eq_commentsIn (list : ListText) : list.comments
    = (list.elements.flatMap fun e => commentsIn e.lead ++ commentsIn e.raw ++ commentsIn e.tail)
      ++ commentsIn list.trail := by
  simp [comments, marks, Element.marks, List.flatMap_assoc, flatMap_comments_ofGap, Mark.comments]

/-- An addition of an item without comments keeps all comments, and the gaps stay gaps. -/
theorem comments_append (h : list.Gapped) {fragment : List Char}
    (hfragment : commentsIn fragment = []) :
    (list.append fragment).comments = list.comments ∧ (list.append fragment).Gapped := by
  obtain ⟨helements, htrail⟩ := h
  have hnil : commentsIn [] = [] := IsGap.commentsIn_of_blanks (by simp)
  -- A line feed and an indentation are put in front of an element with a line of its own.
  have hline : ∀ {indent}, isBlankText indent →
      IsGap ('\n' :: indent) ∧ commentsIn ('\n' :: indent) = [] := by
    intro indent hindent
    refine ⟨.blank rfl (.of_isBlankText hindent), IsGap.commentsIn_of_blanks ?_⟩
    exact List.forall_mem_cons.2 ⟨rfl, IsGap.isListBlank_of_isBlankText hindent⟩
  rw [comments_eq_commentsIn, comments_eq_commentsIn, append.eq_def]
  rcases List.eq_nil_or_concat list.elements with helems | ⟨front, last, hlast⟩
  · rw [helems]
    simp only [List.getLast?_nil]
    split
    · obtain ⟨hgap, hcomments⟩ := hline (isBlankText_append (isBlankText_indentation
        (lastLine list.trail)) (show isBlankText indentStep from rfl))
      exact ⟨by simp [hcomments, hfragment, hnil], List.forall_mem_singleton.2 ⟨hgap, .nil⟩,
        htrail⟩
    · exact ⟨by simp [hfragment, hnil], List.forall_mem_singleton.2 ⟨.nil, .nil⟩, htrail⟩
  · rw [List.concat_eq_append] at hlast
    rw [hlast, List.forall_mem_append, List.forall_mem_singleton] at helements
    obtain ⟨hfront, hlead, htail⟩ := helements
    rw [hlast]
    simp only [List.getLast?_concat, List.dropLast_concat]
    split
    · next hbreak =>
      have hbreak := List.contains_iff_mem.1 hbreak
      have hindent := list.isBlankText_itemIndentation front last
      have hfirst := htrail.firstLine_break hbreak
      have hlead' : firstLine list.trail ++ '\n' :: list.itemIndentation front last
          = (firstLine list.trail ++ ['\n']) ++ list.itemIndentation front last := by simp
      have hcomments : commentsIn (firstLine list.trail ++ '\n' :: list.itemIndentation front last)
          = commentsIn (firstLine list.trail ++ ['\n']) := by
        rw [hlead', hfirst.commentsIn_append, IsGap.commentsIn_of_isBlankText hindent,
          List.append_nil]
      have hbehind : commentsIn (fromFirstBreak list.trail)
          = commentsIn ((fromFirstBreak list.trail).drop 1) := by
        obtain ⟨hgap, hnone⟩ := hline (show isBlankText [] from rfl)
        have := hgap.commentsIn_append ((fromFirstBreak list.trail).drop 1)
        rwa [hnone, List.singleton_append, ← fromFirstBreak_eq_cons hbreak] at this
      refine ⟨?_, ?_, htrail.fromFirstBreak hbreak⟩
      · simp [hcomments, hfragment, hnil, hbehind, htrail.commentsIn_append_break hbreak]
      · refine List.forall_mem_append.2 ⟨hfront, List.forall_mem_cons.2 ⟨⟨hlead, htail⟩,
          List.forall_mem_singleton.2 ⟨?_, .nil⟩⟩⟩
        rw [hlead']
        exact hfirst.append (.of_isBlankText hindent)
    · have hseparator := isGap_inlineSeparator front hlead
      have hnone := hseparator.commentsIn_of_line (not_mem_inlineSeparator front last)
      refine ⟨by simp [hnone, hfragment, hnil], ?_, htrail⟩
      exact List.forall_mem_append.2 ⟨hfront, List.forall_mem_cons.2 ⟨⟨hlead, .nil⟩,
        List.forall_mem_singleton.2 ⟨hseparator, htail⟩⟩⟩

end ListText

end StubManager
