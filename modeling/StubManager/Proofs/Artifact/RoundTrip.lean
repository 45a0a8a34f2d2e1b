import Mathlib.Data.List.DropRight
import StubManager.Proofs.Artifact.Application

/-!
# Adding a name and removing it

An addition that is taken back leaves the text as it was, with one exception: an empty list with
line feeds between its brackets that has blanks or a comment before the first of them. Main
statements: `ListText.remove_append_iff` for the list, `Artifact.apply_removing_adding_iff` for the
text.
-/

namespace StubManager

open Text

/-! ## The lines of a new element -/

theorem fromFirstBreak_idem (text : List Char) :
    fromFirstBreak (fromFirstBreak text) = fromFirstBreak text :=
  List.dropWhile_idempotent ..

namespace ListText

/-- An element on a line of its own goes with it unless something else stands behind it there. -/
theorem standsAlone_of_lines (front : List Char) {e : Element} {indent gap : List Char}
    (hlead : e.lead = front ++ '\n' :: indent) (hindent : isBlankText indent) (htail : e.tail = [])
    (hgap : '\n' ∈ gap) : standsAlone e gap = isBlankText (firstLine gap) := by
  obtain ⟨hline, -⟩ := lastLine_append_break front (not_mem_of_isBlankText hindent)
  simp [standsAlone, hlead, hline, hindent, htail, hgap]

/-! ## Taking back an addition -/

variable {list : ListText} {fragment : List Char} {name : String}

theorem removeBetween_of_standsAlone {before : List Element} {e : Element} {after : List Element}
    (h : standsAlone e (gapAfter after list.trail)) :
    list.removeBetween before e after = list.joinAround before e after
      (throughLastBreak e.lead ++ (fromFirstBreak (gapAfter after list.trail)).drop 1) := by
  rw [removeBetween.eq_def, if_pos h]
  rfl

/-- A value that only the last element has is removed with the last element. -/
theorem remove_of_last (front : List Element) (e : Element)
    (helements : list.elements = front ++ [e]) (hvalue : e.value = name)
    (hfront : ∀ x ∈ front, x.value ≠ name) :
    list.remove name = list.removeBetween front e [] := by
  rw [remove, span_of_first helements hvalue hfront]

/-- Other gaps and another comma do not change what an element stands for. -/
theorem forall_value_ne {front : List Element} {last last' : Element}
    (helements : list.elements = front ++ [last]) (hnew : name ∉ list.values)
    (hraw : last'.raw = last.raw) : ∀ x ∈ front ++ [last'], x.value ≠ name := by
  have hvalues : list.values = (front ++ [last']).map Element.value := by
    rw [values, helements, List.map_append, List.map_append, List.map_singleton,
      List.map_singleton, ← valueOf_raw last, ← hraw, valueOf_raw]
  exact fun x hx heq => hnew (hvalues ▸ List.mem_map.2 ⟨x, hx, heq⟩)

/-- The gap that is left in an empty list on several lines when an element was put into it and
taken out again. -/
def trailAfter (trail : List Char) : List Char :=
  if isBlankText (firstLine trail) then fromFirstBreak trail
  else '\n' :: (indentation (lastLine trail) ++ indentStep) ++ trail

/-- The gap is the one before exactly if nothing stands before its first line feed. -/
theorem trailAfter_eq_iff {trail : List Char} (h : '\n' ∈ trail) :
    trailAfter trail = trail ↔ trail.head? = some '\n' := by
  have hcut := firstLine_append_fromFirstBreak trail
  have hhead : trail.head? = some '\n' ↔ firstLine trail = [] := by
    cases trail with
    | nil => cases h
    | cons c trail => simp [firstLine, List.takeWhile_cons]
  rw [hhead, trailAfter]
  split
  · constructor
    · intro heq
      rw [heq] at hcut
      exact List.append_left_eq_self.1 hcut
    · intro hnil
      rwa [hnil, List.nil_append] at hcut
  · next hblank =>
    refine iff_of_false (fun heq => ?_) fun hnil => hblank (hnil ▸ rfl)
    have := congrArg List.length heq
    simp only [List.length_append, List.length_cons] at this
    omega

theorem remove_append_of_nil_lines (hnil : list.elements = []) (hbreak : '\n' ∈ list.trail)
    (hvalue : valueOf fragment = name) :
    (list.append fragment).remove name = { list with trail := trailAfter list.trail } := by
  obtain ⟨head, elements, trail, rest⟩ := list
  subst hnil
  let indent := indentation (lastLine trail) ++ indentStep
  let e : Element := { lead := '\n' :: indent, raw := fragment, comma := true }
  have hindent : isBlankText indent := isBlankText_append (isBlankText_indentation _) rfl
  have happend : append ⟨head, [], trail, rest⟩ fragment = ⟨head, [e], trail, rest⟩ :=
    if_pos (List.contains_iff_mem.2 hbreak)
  have halone : standsAlone e trail = isBlankText (firstLine trail) :=
    standsAlone_of_lines [] rfl hindent rfl hbreak
  obtain ⟨-, hthrough⟩ := lastLine_append_break [] (not_mem_of_isBlankText hindent)
  have hlead : throughLastBreak e.lead = ['\n'] := hthrough
  rw [happend, remove_of_last [] e rfl hvalue (by simp), removeBetween.eq_def, trailAfter]
  by_cases hblank : isBlankText (firstLine trail)
  · rw [gapAfter, if_pos hblank, if_pos (halone.trans hblank), hlead, List.singleton_append,
      ← fromFirstBreak_eq_cons hbreak]
    rfl
  · rw [gapAfter, if_neg hblank, if_neg (halone ▸ hblank)]
    rfl

theorem remove_append_of_nil_line (hnil : list.elements = []) (hbreak : '\n' ∉ list.trail)
    (hvalue : valueOf fragment = name) : (list.append fragment).remove name = list := by
  obtain ⟨head, elements, trail, rest⟩ := list
  subst hnil
  let e : Element := { raw := fragment, comma := false }
  have happend : append ⟨head, [], trail, rest⟩ fragment = ⟨head, [e], trail, rest⟩ :=
    if_neg (mt List.contains_iff_mem.1 hbreak)
  rw [happend, remove_of_last [] e rfl hvalue (by simp)]
  rfl

/-- An element that was put on a line behind the others leaves nothing behind. -/
theorem remove_append_of_lines {front : List Element} {last : Element}
    (helements : list.elements = front ++ [last]) (hbare : last.comma = false → last.tail = [])
    (hbreak : '\n' ∈ list.trail) (hvalue : valueOf fragment = name) (hnew : name ∉ list.values) :
    (list.append fragment).remove name = list := by
  let indent := list.itemIndentation front last
  let last' : Element := { last with comma := true }
  let e : Element :=
    { lead := firstLine list.trail ++ '\n' :: indent, raw := fragment, comma := last.comma }
  have hindent : isBlankText indent := list.isBlankText_itemIndentation front last
  have happend : list.append fragment
      = { list with
          elements := (front ++ [last']) ++ [e], trail := fromFirstBreak list.trail } :=
    append_of_lines helements hbreak fragment
  have hgap : fromFirstBreak list.trail = '\n' :: (fromFirstBreak list.trail).drop 1 :=
    fromFirstBreak_eq_cons hbreak
  have halone : standsAlone e (fromFirstBreak list.trail) := by
    rw [standsAlone_of_lines (firstLine list.trail) rfl hindent rfl (by rw [hgap]; simp), hgap]
    rfl
  have hlead : throughLastBreak e.lead = firstLine list.trail ++ ['\n'] :=
    (lastLine_append_break _ (not_mem_of_isBlankText hindent)).2
  have htrail : throughLastBreak e.lead
      ++ (fromFirstBreak (fromFirstBreak list.trail)).drop 1 = list.trail := by
    rw [hlead, fromFirstBreak_idem, List.append_assoc, List.singleton_append]
    exact firstLine_append_break hbreak
  have hothers : ∀ x ∈ front ++ [last'], x.value ≠ name := forall_value_ne helements hnew rfl
  rw [happend, remove_of_last (front ++ [last']) e rfl hvalue hothers,
    removeBetween_of_standsAlone halone, gapAfter, htrail]
  obtain ⟨head, elements, trail, rest⟩ := list
  subst helements
  obtain ⟨lead, raw, tail, comma⟩ := last
  cases comma with
  | true => simp [joinAround, e, last', withGapAfter]
  | false =>
    obtain rfl : tail = [] := hbare rfl
    simp [joinAround, e, last', withGapAfter, dropLastComma]

/-- An element that was put on the line of the last one leaves nothing behind. -/
theorem remove_append_of_line {front : List Element} {last : Element}
    (helements : list.elements = front ++ [last]) (hbreak : '\n' ∉ list.trail)
    (hvalue : valueOf fragment = name) (hnew : name ∉ list.values) :
    (list.append fragment).remove name = list := by
  let last' : Element := { last with tail := [], comma := true }
  let e : Element :=
    { lead := inlineSeparator front last, raw := fragment, tail := last.tail, comma := last.comma }
  have happend : list.append fragment = { list with elements := (front ++ [last']) ++ [e] } :=
    append_of_line helements hbreak fragment
  have halone : ¬ standsAlone e list.trail := by
    intro h
    simp only [standsAlone, Bool.and_eq_true, List.contains_iff_mem] at h
    exact hbreak h.1.2
  have hline : ¬ (last'.closing ++ e.lead).contains '\n' := by
    simpa [last', Element.closing, e] using not_mem_inlineSeparator front last
  have hothers : ∀ x ∈ front ++ [last'], x.value ≠ name := forall_value_ne helements hnew rfl
  rw [happend, remove_of_last (front ++ [last']) e rfl hvalue hothers,
    removeBetween.eq_def, gapAfter, if_neg halone]
  simp only [List.getLast?_concat, List.dropLast_concat, if_neg hline]
  rw [← helements]

/-- An element that was put into a list and taken out again leaves nothing behind, unless the list
is empty and its first line feed is not the first character in it. -/
theorem remove_append_iff (h : list.Tiled) (hvalue : valueOf fragment = name)
    (hnew : name ∉ list.values) :
    ((list.append fragment).remove name).render = list.render ↔
      (list.elements = [] → '\n' ∈ list.trail → list.trail.head? = some '\n') := by
  by_cases hbreak : '\n' ∈ list.trail
  · rcases List.eq_nil_or_concat list.elements with hnil | ⟨front, last, hlast⟩
    · rw [remove_append_of_nil_lines hnil hbreak hvalue, render, render, inner, inner,
        List.append_left_inj, List.append_right_inj, List.append_right_inj,
        trailAfter_eq_iff hbreak]
      exact ⟨fun hhead _ _ => hhead, fun himp => himp hnil hbreak⟩
    · rw [List.concat_eq_append] at hlast
      have hbare := (h.elements last (by simp [hlast])).bare
      refine iff_of_true ?_ (by simp [hlast])
      rw [remove_append_of_lines hlast hbare hbreak hvalue hnew]
  · refine iff_of_true ?_ fun _ hmem => absurd hmem hbreak
    rcases List.eq_nil_or_concat list.elements with hnil | ⟨front, last, hlast⟩
    · rw [remove_append_of_nil_line hnil hbreak hvalue]
    · rw [List.concat_eq_append] at hlast
      rw [remove_append_of_line hlast hbreak hvalue hnew]

end ListText

namespace Artifact

open ListText

/-- Adding a new name without a line feed and removing it again returns, and gives back the text
exactly if the list was not an empty one whose first line feed has something before it. -/
theorem apply_removing_adding_iff {artifact : Artifact} {list : ListText} {name : String}
    (h : artifact.locate = .ok list) (hname : '\n' ∉ name.toList) (hnew : name ∉ list.values) :
    ∃ added result, artifact.apply (.ofNames [name] []) = .ok added ∧
      added.apply (.ofNames [] [name]) = .ok result ∧
      (result = artifact ↔
        (list.elements = [] → '\n' ∈ list.trail → list.trail.head? = some '\n')) := by
  have hadd : ∀ other ∈ [name], '\n' ∈ other.toList → other ∈ list.values := by
    rw [List.forall_mem_singleton]
    exact fun hbreak => absurd hbreak hname
  obtain ⟨hrun, hlocate⟩ := foldlM_addNode h hadd
  have happend : list.extend name = list.append (list.style.encode name.toList) := if_neg hnew
  rw [List.foldl_cons, List.foldl_nil, happend] at hrun hlocate
  refine ⟨_, _, (apply_ofNames h rfl).trans ?_, (apply_ofNames hlocate rfl).trans rfl, ?_⟩
  · rw [List.foldl_nil, withList_of_locate h]
    exact hrun
  · have hrender := (locate_eq_ok_iff.1 h).2.1
    have hvalue := valueOf_encode list.style hname
    rw [← remove_append_iff (locate_eq_ok_iff.1 h).1 hvalue hnew, hrender]
    constructor
    · intro heq
      simpa [withList] using congrArg (·.text.toList) heq
    · intro htext
      simp [withList, htext]

/-- A list with a comment and with a comma behind its last element. -/
theorem apply_removing_adding_of_lines :
    ∃ added,
      apply { text := "x = [\n  'a', # first\n]\n", anchor := "x", origin := "file" }
        (.ofNames ["b"] []) = .ok added ∧
      added.apply (.ofNames [] ["b"])
        = .ok { text := "x = [\n  'a', # first\n]\n", anchor := "x", origin := "file" } := by
  have hlocate :
      locate { text := "x = [\n  'a', # first\n]\n", anchor := "x", origin := "file" }
        = .ok {
          head := "x = [".toList
          elements := [{ lead := "\n  ".toList, raw := "'a'".toList, comma := true }]
          trail := " # first\n".toList
          rest := "]\n".toList } := by decide +kernel
  obtain ⟨added, result, hadd, hremove, hrestored⟩ :=
    apply_removing_adding_iff hlocate (show '\n' ∉ "b".toList by decide) (by decide +kernel)
  obtain rfl := hrestored.2 fun hnil => by cases hnil
  exact ⟨added, hadd, hremove⟩

/-- The line of an empty list's bracket takes its comment along when an element comes and goes. -/
theorem apply_removing_adding_ne_of_comment :
    apply { text := "x = [ # none yet\n]\n", anchor := "x", origin := "file" } (.ofNames ["a"] [])
        = .ok { text := "x = [\n    \"a\", # none yet\n]\n", anchor := "x", origin := "file" } ∧
      apply { text := "x = [\n    \"a\", # none yet\n]\n", anchor := "x", origin := "file" }
          (.ofNames [] ["a"])
        = .ok { text := "x = [\n     # none yet\n]\n", anchor := "x", origin := "file" } := by
  decide +kernel

end Artifact

end StubManager
