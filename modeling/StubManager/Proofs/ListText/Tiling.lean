import Mathlib.Data.List.Basic
import StubManager.Proofs.ListText.Lexing

/-!
# Tiled lists

`ListText.Tiled` says what the text of a list consists of: gaps, items that start and end outside
of gaps and hold no separating comma, and one comma between two items. Main statement:
`scan_eq_ok_iff`, a text is read as a list exactly if it is the text of that list and the list is
tiled.
-/

namespace StubManager

namespace Piece

/-! ## Segments -/

theorem segments_append_separator {segment : List Piece} (h : separator ∉ segment)
    (pieces : List Piece) :
    segments (segment ++ separator :: pieces)
      = (segment :: (segments pieces).1, (segments pieces).2) := by
  induction segment with
  | nil => rfl
  | cons piece segment ih =>
    rw [List.mem_cons, not_or] at h
    rw [List.cons_append, segments, ih h.2]
    simp [Ne.symm h.1]

theorem segments_of_not_mem {last : List Piece} (h : separator ∉ last) :
    segments last = ([], last) := by
  induction last with
  | nil => rfl
  | cons piece last ih =>
    rw [List.mem_cons, not_or] at h
    rw [segments, ih h.2]
    simp [Ne.symm h.1]

/-- Segments without a separator are cut apart at the separators between them. -/
theorem segments_flatMap {closed : List (List Piece)} {last : List Piece}
    (hclosed : ∀ segment ∈ closed, separator ∉ segment) (hlast : separator ∉ last) :
    segments (closed.flatMap (· ++ [separator]) ++ last) = (closed, last) := by
  induction closed with
  | nil => exact segments_of_not_mem hlast
  | cons segment closed ih =>
    rw [List.forall_mem_cons] at hclosed
    rw [List.flatMap_cons, List.append_assoc, List.append_assoc, List.singleton_append,
      segments_append_separator hclosed.1, ih hclosed.2]

/-- Cutting at the separators loses nothing but them. -/
theorem flatMap_segments (pieces : List Piece) :
    (segments pieces).1.flatMap (· ++ [separator]) ++ (segments pieces).2 = pieces ∧
      (∀ segment ∈ (segments pieces).1, separator ∉ segment) ∧
      separator ∉ (segments pieces).2 := by
  induction pieces with
  | nil => simp [segments]
  | cons piece pieces ih =>
    obtain ⟨hcat, hclosed, hlast⟩ := ih
    cases hcut : segments pieces with
    | mk closed last =>
      rw [hcut] at hcat hclosed hlast
      simp only [segments, hcut]
      by_cases hpiece : piece = separator
      · exact ⟨by simp [hpiece, ← hcat], by simpa [hpiece] using hclosed,
          by simpa [hpiece] using hlast⟩
      · rw [if_neg hpiece]
        cases closed with
        | nil => simp_all [Ne.symm hpiece]
        | cons segment closed =>
          rw [List.forall_mem_cons] at hclosed
          simp [← hcat, hlast, Ne.symm hpiece, hclosed.1]
          exact hclosed.2

/-! ## The item of a segment -/

/-- Pieces that start and end outside of gaps. -/
def Solid (pieces : List Piece) : Prop :=
  (∃ piece ∈ pieces.head?, ¬ piece.isGap) ∧ ∃ piece ∈ pieces.getLast?, ¬ piece.isGap

theorem trim_of_gaps {gaps : List Piece} (h : ∀ piece ∈ gaps, piece.isGap) :
    trim gaps = (gaps, [], []) := by
  have htake : gaps.takeWhile isGap = gaps := List.takeWhile_eq_self_iff.2 h
  have hdrop : gaps.dropWhile isGap = [] := List.dropWhile_eq_nil_iff.2 h
  simp [trim, htake, hdrop]

private theorem dropWhile_gaps_append {gaps pieces : List Piece}
    (h : ∀ piece ∈ gaps, piece.isGap) (hpieces : ∃ piece ∈ pieces.head?, ¬ piece.isGap) :
    (gaps ++ pieces).dropWhile isGap = pieces ∧ (gaps ++ pieces).takeWhile isGap = gaps := by
  obtain ⟨piece, hmem, hpiece⟩ := hpieces
  rw [List.dropWhile_append_of_pos h, List.takeWhile_append_of_pos h]
  cases pieces with
  | nil => cases hmem
  | cons first pieces =>
    obtain rfl : first = piece := by simpa using hmem
    simp [hpiece]

/-- A solid run of pieces between gaps is what trimming leaves. -/
theorem trim_eq {lead item tail : List Piece} (hlead : ∀ piece ∈ lead, piece.isGap)
    (hitem : Solid item) (htail : ∀ piece ∈ tail, piece.isGap) :
    trim (lead ++ (item ++ tail)) = (lead, item, tail) := by
  have hfirst : ∃ piece ∈ (item ++ tail).head?, ¬ piece.isGap := by
    obtain ⟨piece, hmem, hpiece⟩ := hitem.1
    exact ⟨piece, by simp [List.head?_append, Option.mem_def.1 hmem], hpiece⟩
  have hlast : ∃ piece ∈ item.reverse.head?, ¬ piece.isGap := by
    simpa [List.head?_reverse] using hitem.2
  have htail' : ∀ piece ∈ tail.reverse, piece.isGap := by simpa using htail
  have hback := dropWhile_gaps_append htail' hlast
  obtain ⟨hdrop, htake⟩ := dropWhile_gaps_append hlead hfirst
  simp only [trim, hdrop, htake, List.reverse_append, hback.1, hback.2, List.reverse_reverse]

theorem isGap_of_mem_trim (segment : List Piece) :
    (∀ piece ∈ (trim segment).1, piece.isGap) ∧ ∀ piece ∈ (trim segment).2.2, piece.isGap := by
  refine ⟨fun piece h => List.mem_takeWhile_imp h, fun piece h => ?_⟩
  exact List.mem_takeWhile_imp (List.mem_reverse.1 h)

theorem solid_trim {segment : List Piece} (h : (trim segment).2.1 ≠ []) :
    Solid (trim segment).2.1 := by
  have hhead : ∀ {pieces : List Piece}, pieces.dropWhile isGap ≠ [] →
      ∃ piece ∈ (pieces.dropWhile isGap).head?, ¬ piece.isGap := by
    intro pieces hne
    have hnot := List.head?_dropWhile_not isGap pieces
    cases hdrop : pieces.dropWhile isGap with
    | nil => exact absurd hdrop hne
    | cons piece rest => exact ⟨piece, rfl, by simpa [hdrop] using hnot⟩
  have hback : ((segment.dropWhile isGap).reverse.dropWhile isGap) ≠ [] := by simpa [trim] using h
  have hfront : segment.dropWhile isGap ≠ [] := fun hnil => by simp [hnil] at hback
  refine ⟨?_, by simpa [trim, List.getLast?_reverse] using hhead hback⟩
  -- The item starts where the trimmed segment starts.
  obtain ⟨front, hcat⟩ := List.dropWhile_suffix (l := (segment.dropWhile isGap).reverse) isGap
  have hlast := congrArg List.getLast? hcat
  rw [List.getLast?_append_of_ne_nil _ hback, List.getLast?_reverse] at hlast
  simpa [trim, List.head?_reverse, hlast] using hhead hfront

/-! ## Gaps as pieces -/

/-- Gaps open and close no bracket, and their text is a gap. -/
theorem Lexed.isGap {depth depth' : Nat} {gaps : List Piece} (h : Lexed depth gaps depth')
    (hgaps : ∀ piece ∈ gaps, piece.isGap) : depth' = depth ∧ IsGap (textOf gaps) := by
  induction h with
  | nil => exact ⟨rfl, .nil⟩
  | cons hstep _ ih =>
    rw [List.forall_mem_cons] at hgaps
    obtain ⟨hdepth, hgap⟩ := ih hgaps.2
    cases hstep with
    | blank hc => exact ⟨hdepth, .blank hc hgap⟩
    | _ => exact absurd hgaps.1 (by simp [Piece.isGap])
  | comment hwords _ ih =>
    rw [List.forall_mem_cons] at hgaps
    obtain ⟨hdepth, hgap⟩ := ih hgaps.2
    exact ⟨hdepth, .comment hwords (@IsGap.of_append_break [] _ hgap).2⟩

end Piece

open Piece

theorem IsGap.exists_lexed {gap : List Char} (h : IsGap gap) (depth : Nat) :
    ∃ gaps, Lexed depth gaps depth ∧ (∀ piece ∈ gaps, piece.isGap) ∧ textOf gaps = gap := by
  induction h with
  | nil => exact ⟨[], .nil, by simp, rfl⟩
  | @blank c _ hc _ ih =>
    obtain ⟨gaps, hlexed, hgaps, rfl⟩ := ih
    exact ⟨Piece.blank c :: gaps, .cons (.blank hc) hlexed,
      List.forall_mem_cons.2 ⟨rfl, hgaps⟩, rfl⟩
  | @comment words _ hwords _ ih =>
    obtain ⟨gaps, hlexed, hgaps, rfl⟩ := ih
    refine ⟨Piece.comment words :: Piece.blank '\n' :: gaps,
      .comment hwords (.cons (.blank rfl) hlexed),
      List.forall_mem_cons.2 ⟨rfl, List.forall_mem_cons.2 ⟨rfl, hgaps⟩⟩, ?_⟩
    simp [Piece.text]

/-- Between separators all brackets are closed. -/
theorem Piece.Lexed.of_flatMap {depth : Nat} {segments : List (List Piece)} {last : List Piece}
    (h : Lexed 0 (segments.flatMap (· ++ [separator]) ++ last) depth) :
    (∀ segment ∈ segments, Lexed 0 segment 0) ∧ Lexed 0 last depth := by
  induction segments with
  | nil => exact ⟨by simp, h⟩
  | cons segment segments ih =>
    rw [List.flatMap_cons, List.append_assoc, List.append_assoc, List.singleton_append] at h
    obtain ⟨middle, hsegment, hrest⟩ := h.of_append (.inl (by simp))
    cases hrest with
    | cons hstep hrest =>
      cases hstep
      obtain ⟨hsegments, hlast⟩ := ih hrest
      exact ⟨List.forall_mem_cons.2 ⟨hsegment, hsegments⟩, hlast⟩

/-! ## Items -/

/-- The text of an item: it holds no separating comma, and starts and ends outside of gaps. -/
def IsItem (text : List Char) : Prop :=
  ∃ pieces, Lexed 0 pieces 0 ∧ separator ∉ pieces ∧ Solid pieces ∧ textOf pieces = text

/-- A string literal is an item if its value has no line feed. -/
theorem isItem_encode (style : QuoteStyle) {value : List Char} (h : '\n' ∉ value) :
    IsItem (style.encode value) := by
  refine ⟨[literal style (style.escape value)], .cons (.literal ?_) .nil, by simp, ?_, ?_⟩
  · exact Literal.scan?_encode style value [] h
  · exact ⟨⟨_, rfl, by simp [Piece.isGap]⟩, ⟨_, rfl, by simp [Piece.isGap]⟩⟩
  · simp [textOf, Piece.text, QuoteStyle.encode]

/-- Pieces without a separator, between the commas of a list, are a gap, an item and a gap. -/
theorem tile_segment {segment : List Piece} (h : Lexed 0 segment 0) (hsep : separator ∉ segment)
    (hitem : (trim segment).2.1 ≠ []) :
    IsGap (textOf (trim segment).1) ∧ IsItem (textOf (trim segment).2.1) ∧
      IsGap (textOf (trim segment).2.2) := by
  obtain ⟨hlead, htail⟩ := isGap_of_mem_trim segment
  have hsolid := solid_trim hitem
  have hcat := trim_append segment
  generalize trim segment = cut at *
  obtain ⟨lead, item, tail⟩ := cut
  dsimp only at *
  rw [List.append_assoc] at hcat
  subst hcat
  have hblank : ∀ rest, (item ++ rest).head? ≠ some (blank '\n') := by
    intro rest heq
    obtain ⟨piece, hmem, hpiece⟩ := hsolid.1
    rw [List.head?_append, Option.mem_def.1 hmem, Option.some_or, Option.some.injEq] at heq
    exact hpiece (heq ▸ rfl)
  have hcomment : ∀ words, item.getLast? ≠ some (comment words) := by
    intro words heq
    obtain ⟨piece, hmem, hpiece⟩ := hsolid.2
    rw [Option.mem_def.1 hmem, Option.some.injEq] at heq
    exact hpiece (heq ▸ rfl)
  obtain ⟨middle, hleadlexed, hrest⟩ := h.of_append (.inl (hblank tail))
  obtain ⟨hmiddle, hleadgap⟩ := hleadlexed.isGap hlead
  subst hmiddle
  obtain ⟨middle, hitemlexed, htaillexed⟩ := hrest.of_append (.inr hcomment)
  obtain ⟨hmiddle, htailgap⟩ := htaillexed.isGap htail
  subst hmiddle
  exact ⟨hleadgap, ⟨item, hitemlexed, by simp_all, hsolid, rfl⟩, htailgap⟩

/-- A gap, an item and a gap are pieces without a separator that trimming tells apart. -/
theorem exists_segment {lead item tail : List Char} (hlead : IsGap lead) (hitem : IsItem item)
    (htail : IsGap tail) :
    ∃ leads items tails, Lexed 0 (leads ++ (items ++ tails)) 0 ∧
      separator ∉ leads ++ (items ++ tails) ∧ items ≠ [] ∧
      trim (leads ++ (items ++ tails)) = (leads, items, tails) ∧
      textOf leads = lead ∧ textOf items = item ∧ textOf tails = tail := by
  obtain ⟨leads, hleads, hleadgaps, hleadtext⟩ := hlead.exists_lexed 0
  obtain ⟨items, hitems, hsep, hsolid, hitemtext⟩ := hitem
  obtain ⟨tails, htails, htailgaps, htailtext⟩ := htail.exists_lexed 0
  refine ⟨leads, items, tails, hleads.append (hitems.append htails), ?_, ?_,
    trim_eq hleadgaps hsolid htailgaps, hleadtext, hitemtext, htailtext⟩
  · have hgap : ∀ gaps : List Piece, (∀ piece ∈ gaps, piece.isGap) → separator ∉ gaps :=
      fun gaps hgaps hmem => by simpa [Piece.isGap] using hgaps _ hmem
    simp [hgap _ hleadgaps, hgap _ htailgaps, hsep]
  · rintro rfl
    obtain ⟨⟨_, hmem, -⟩, -⟩ := hsolid
    cases hmem

/-! ## Elements -/

namespace Element

/-- The gaps around an element are gaps, and its text is an item. -/
structure Tiled (e : Element) : Prop where
  lead : IsGap e.lead
  item : IsItem e.raw
  tail : IsGap e.tail
  /-- The gap behind an element without a comma belongs to what follows. -/
  bare : e.comma = false → e.tail = []

theorem Tiled.of_ofSegment? {segment : List Piece} {e : Element} (h : Lexed 0 segment 0)
    (hsep : separator ∉ segment) (he : ofSegment? segment = some e) : e.Tiled ∧ e.comma := by
  unfold ofSegment? at he
  split at he
  · cases he
  · next lead item tail hitem heq =>
    have htile := tile_segment h hsep (by rw [heq]; exact hitem)
    rw [heq] at htile
    cases he
    exact ⟨⟨htile.1, htile.2.1, htile.2.2, by simp⟩, rfl⟩

theorem Tiled.exists_segment {e : Element} (h : e.Tiled) (hcomma : e.comma) :
    ∃ segment, Lexed 0 segment 0 ∧ separator ∉ segment ∧ ofSegment? segment = some e := by
  obtain ⟨leads, items, tails, hlexed, hsep, hne, htrim, hlead, hitem, htail⟩ :=
    StubManager.exists_segment h.lead h.item h.tail
  refine ⟨_, hlexed, hsep, ?_⟩
  rw [ofSegment?, htrim]
  cases items with
  | nil => exact absurd rfl hne
  | cons piece items => simp [hlead, hitem, htail, ← hcomma]

end Element

namespace ListText

/-! ## Lists -/

/-- A list whose text is made up of gaps, items and commas as its elements say. -/
structure Tiled (list : ListText) : Prop where
  elements : ∀ e ∈ list.elements, e.Tiled
  /-- A comma stands between two elements. -/
  comma : ∀ e ∈ list.elements.dropLast, e.comma
  trail : IsGap list.trail
  rest : ∃ after, list.rest = ']' :: after

private theorem tiled_of_closedElements {position : Nat} {segments : List (List Piece)}
    {elements : List Element} (h : closedElements position segments = .ok elements)
    (hsegments : ∀ segment ∈ segments, Lexed 0 segment 0 ∧ separator ∉ segment) :
    ∀ e ∈ elements, e.Tiled ∧ e.comma := by
  induction segments generalizing position elements with
  | nil => cases h; simp
  | cons segment segments ih =>
    rw [List.forall_mem_cons] at hsegments
    unfold closedElements at h
    split at h
    · cases h
    · next e he =>
      cases hrest : closedElements (position + byteLength (Piece.textOf segment) + 1) segments with
      | error _ => simp [hrest, bind, Except.bind] at h
      | ok es =>
        simp only [hrest, bind, Except.bind, pure, Except.pure, Except.ok.injEq] at h
        subst h
        rw [List.forall_mem_cons]
        exact ⟨Element.Tiled.of_ofSegment? hsegments.1.1 hsegments.1.2 he, ih hrest hsegments.2⟩

private theorem exists_closedElements {elements : List Element}
    (h : ∀ e ∈ elements, e.Tiled ∧ e.comma) :
    ∃ segments : List (List Piece), Lexed 0 (segments.flatMap (· ++ [separator])) 0 ∧
      (∀ segment ∈ segments, separator ∉ segment) ∧
      ∀ position, closedElements position segments = .ok elements := by
  induction elements with
  | nil => exact ⟨[], .nil, by simp, fun _ => rfl⟩
  | cons e elements ih =>
    rw [List.forall_mem_cons] at h
    obtain ⟨segment, hlexed, hsep, he⟩ := h.1.1.exists_segment h.1.2
    obtain ⟨segments, hlexeds, hseps, hclosed⟩ := ih h.2
    refine ⟨segment :: segments, ?_, List.forall_mem_cons.2 ⟨hsep, hseps⟩, fun position => ?_⟩
    · exact (hlexed.append (.cons .separator .nil)).append hlexeds
    · rw [closedElements, he]
      simp [hclosed, bind, Except.bind, pure, Except.pure]

/-- What stands behind the last comma is an element without a comma, or nothing, and a gap. -/
private theorem tiled_of_lastElement {segment : List Piece} (h : Lexed 0 segment 0)
    (hsep : separator ∉ segment) :
    (∀ e ∈ (lastElement segment).1, e.Tiled) ∧ (lastElement segment).1.length ≤ 1 ∧
      IsGap (lastElement segment).2 := by
  unfold lastElement
  split
  · next lead tail heq =>
    have hcat := trim_append segment
    rw [heq, List.append_nil] at hcat
    have hgaps := isGap_of_mem_trim segment
    rw [heq] at hgaps
    refine ⟨by simp, by simp, ?_⟩
    rw [← Piece.textOf_append, hcat]
    refine (h.isGap ?_).2
    rw [← hcat]
    exact List.forall_mem_append.2 hgaps
  · next lead item tail hitem heq =>
    have htile := tile_segment h hsep (by rw [heq]; exact hitem)
    rw [heq] at htile
    refine ⟨List.forall_mem_singleton.2 ⟨htile.1, htile.2.1, .nil, fun _ => rfl⟩, by simp,
      htile.2.2⟩

private theorem exists_lastElement {e : Element} {trail : List Char} (h : e.Tiled)
    (hcomma : e.comma = false) (htrail : IsGap trail) :
    ∃ segment, Lexed 0 segment 0 ∧ separator ∉ segment ∧ lastElement segment = ([e], trail) := by
  obtain ⟨leads, items, tails, hlexed, hsep, hne, htrim, hlead, hitem, htail⟩ :=
    exists_segment h.lead h.item htrail
  refine ⟨_, hlexed, hsep, ?_⟩
  rw [lastElement, htrim]
  cases items with
  | nil => exact absurd rfl hne
  | cons piece items => simp [hlead, hitem, htail, ← hcomma, ← h.bare hcomma]

private theorem exists_lastElement_nil {trail : List Char} (htrail : IsGap trail) :
    ∃ segment, Lexed 0 segment 0 ∧ separator ∉ segment ∧ lastElement segment = ([], trail) := by
  obtain ⟨gaps, hlexed, hgaps, htext⟩ := htrail.exists_lexed 0
  refine ⟨gaps, hlexed, fun hmem => by simpa [Piece.isGap] using hgaps _ hmem, ?_⟩
  rw [lastElement, trim_of_gaps hgaps]
  simp [htext, show textOf [] = [] from rfl]

/-- The segments of a tiled list are those that its elements are read from. -/
private theorem Tiled.exists_segments {list : ListText} (h : list.Tiled) :
    ∃ segments last closed more, list.elements = closed ++ more ∧
      Lexed 0 (segments.flatMap (· ++ [separator]) ++ last) 0 ∧
      (∀ segment ∈ segments, separator ∉ segment) ∧ separator ∉ last ∧
      (∀ position, closedElements position segments = .ok closed) ∧
      lastElement last = (more, list.trail) := by
  -- All elements are closed by commas, but for a last one without.
  obtain ⟨closed, more, hcat, hclosed, hmore⟩ : ∃ closed more, list.elements = closed ++ more ∧
      (∀ e ∈ closed, e.comma) ∧ (more = [] ∨ ∃ e, more = [e] ∧ e.comma = false) := by
    rcases List.eq_nil_or_concat list.elements with hnil | ⟨front, e, hlast⟩
    · exact ⟨[], [], hnil, by simp, .inl rfl⟩
    · have hfront := h.comma
      rw [hlast, List.concat_eq_append, List.dropLast_concat] at hfront
      rw [List.concat_eq_append] at hlast
      cases he : e.comma with
      | true =>
        refine ⟨front ++ [e], [], by rw [hlast, List.append_nil], ?_, .inl rfl⟩
        exact List.forall_mem_append.2 ⟨hfront, List.forall_mem_singleton.2 he⟩
      | false => exact ⟨front, [e], hlast, hfront, .inr ⟨e, rfl, he⟩⟩
  have htiled := h.elements
  rw [hcat, List.forall_mem_append] at htiled
  obtain ⟨segments, hlexed, hseps, hsegments⟩ :=
    exists_closedElements fun e he => ⟨htiled.1 e he, hclosed e he⟩
  obtain ⟨last, hlexed', hsep, hlast⟩ : ∃ last, Lexed 0 last 0 ∧ separator ∉ last ∧
      lastElement last = (more, list.trail) := by
    rcases hmore with rfl | ⟨e, rfl, he⟩
    · exact exists_lastElement_nil h.trail
    · exact exists_lastElement (htiled.2 e (by simp)) he h.trail
  exact ⟨segments, last, closed, more, hcat, hlexed.append hlexed', hseps, hsep, hsegments, hlast⟩

/-- The text between the brackets of a tiled list is cut off in any context. -/
theorem Tiled.exists_pieces {list : ListText} (h : list.Tiled) :
    ∃ segments last closed more, list.elements = closed ++ more ∧
      Lexed 0 (segments.flatMap (· ++ [separator]) ++ last) 0 ∧
      textOf (segments.flatMap (· ++ [separator]) ++ last) = list.inner ∧
      Piece.segments (segments.flatMap (· ++ [separator]) ++ last) = (segments, last) ∧
      (∀ position, closedElements position segments = .ok closed) ∧
      lastElement last = (more, list.trail) := by
  obtain ⟨segments, last, closed, more, hcat, hlexed, hseps, hsep, hclosed, hlast⟩ :=
    h.exists_segments
  have hcut := segments_flatMap hseps hsep
  refine ⟨segments, last, closed, more, hcat, hlexed, ?_, hcut, hclosed, hlast⟩
  rw [← textOf_segments, hcut, inner, hcat, renderElements_append,
    renderElements_closedElements (hclosed 0), List.append_assoc, ← render_lastElement last, hlast]

/-- The text of a tiled list is read as that list. -/
theorem Tiled.scan {list : ListText} (h : list.Tiled) :
    scan list.head (list.inner ++ list.rest) = .ok list := by
  obtain ⟨segments, last, closed, more, hcat, hlexed, htext, hcut, hclosed, hlast⟩ :=
    h.exists_pieces
  obtain ⟨after, hrest⟩ := h.rest
  have hbody := hlexed.body_append list.rest
  rw [hrest, body_closed, List.append_nil, htext, ← hrest] at hbody
  rw [ListText.scan]
  simp only [hbody, hcut, hclosed, bind, Except.bind, hlast, pure, Except.pure, ← hcat]

/-- Where a literal does not end, no list is read. -/
theorem scan_error_of_unterminated (head : List Char) {text : List Char} {pieces : List Piece}
    (hlexed : Lexed 0 pieces 0) {style : QuoteStyle}
    (hscan : Literal.scan? style.mark text = none) :
    ∃ fault, ListText.scan head (textOf pieces ++ style.mark :: text) = .error fault := by
  have hbody := hlexed.body_append (style.mark :: text)
  rw [body_unterminated (QuoteStyle.ofMark?_mark style) hscan] at hbody
  rw [ListText.scan]
  simp only [hbody, bind, Except.bind]
  cases closedElements (byteLength head) (segments (pieces ++ [])).1 with
  | error fault => exact ⟨fault, rfl⟩
  | ok elements => exact ⟨_, rfl⟩

theorem tiled_of_scan {head text : List Char} {list : ListText} (h : scan head text = .ok list) :
    list.Tiled := by
  obtain ⟨hcat, hseps, hsep⟩ := flatMap_segments (body 0 text).1
  unfold ListText.scan at h
  simp only at h
  cases helements : closedElements (byteLength head) (segments (body 0 text).1).1 with
  | error _ => simp [helements, bind, Except.bind] at h
  | ok elements =>
    simp only [helements, bind, Except.bind] at h
    split at h
    · cases h
    · cases h
    · cases h
    · next rest hending =>
      cases h
      obtain ⟨hlexed, hrest⟩ := lexed_body hending
      rw [← hcat] at hlexed
      obtain ⟨hlexeds, hlast⟩ := hlexed.of_flatMap
      have hfront := tiled_of_closedElements helements
        fun segment hmem => ⟨hlexeds segment hmem, hseps segment hmem⟩
      obtain ⟨hmore, hlength, htrail⟩ := tiled_of_lastElement hlast hsep
      refine ⟨List.forall_mem_append.2 ⟨fun e he => (hfront e he).1, hmore⟩, ?_, htrail, hrest⟩
      intro e he
      refine (hfront e ?_).2
      match hlist : (lastElement (segments (body 0 text).1).2).1, hlength with
      | [], _ =>
        rw [hlist, List.append_nil] at he
        exact List.dropLast_subset _ he
      | [last], _ => rwa [hlist, List.dropLast_concat] at he

theorem scan_eq_ok_iff {head text : List Char} {list : ListText} :
    ListText.scan head text = .ok list ↔
      list.head = head ∧ list.inner ++ list.rest = text ∧ list.Tiled := by
  constructor
  · intro h
    obtain ⟨hhead, hrender⟩ := render_scan h
    refine ⟨hhead, ?_, tiled_of_scan h⟩
    rw [render, hhead, List.append_assoc] at hrender
    exact List.append_cancel_left hrender
  · rintro ⟨rfl, rfl, h⟩
    exact h.scan

end ListText

end StubManager
