import StubManager.Proofs.ListText.Editing

/-!
# The style of a list

What a removal keeps of the style of a list: whether a comma follows the last element
(`lastComma?_remove`) and that the closing bracket has a line of its own (`break_mem_remove`). What
an addition follows: `FollowsBelow` and `FollowsBeside` say how an element stands behind the one
before it.
-/

namespace StubManager

open Text

namespace ListText

variable {list : ListText}

/-- Whether a comma follows the last element, if there is one. -/
def lastComma? (list : ListText) : Option Bool := list.elements.getLast?.map Element.comma

/-- The quotes of the first string literal among elements, double quotes if there is none. -/
def quotes (elements : List Element) : QuoteStyle :=
  (elements.findSome? Element.style?).getD .double

/-- What is on the line of an element before it, `before` being the elements before it. -/
def lineBefore (list : ListText) (before : List Element) (e : Element) : List Char :=
  lastLine (list.head ++ renderElements before ++ e.lead)

/-- An element on a line of its own behind another: before it there are blanks alone, those of the
line of the other if that starts its line too, and behind it there is nothing but its comma. -/
structure FollowsBelow (list : ListText) (before : List Element) (previous e : Element)
    (after : List Element) : Prop where
  starts : isBlankText (list.lineBefore (before ++ [previous]) e)
  indent : isBlankText (list.lineBefore before previous) →
    list.lineBefore (before ++ [previous]) e = list.lineBefore before previous
  bare : e.tail = []
  ends : (gapAfter after list.trail).head? = some '\n'

/-- An element on the line of another, with a comma and a separator between them. -/
structure FollowsBeside (separator : List Char) (previous e : Element) : Prop where
  comma : previous.closing = [',']
  lead : e.lead = separator
  line : '\n' ∉ separator

/-! ## Removal -/

theorem lastComma?_joinAround (h : list.Tiled) {before after : List Element} {e : Element}
    (helements : list.elements = before ++ e :: after) {gap : List Char}
    (hne : (list.joinAround before e after gap).elements ≠ []) :
    (list.joinAround before e after gap).lastComma? = list.lastComma? := by
  obtain ⟨hbefore, -, -, hcomma⟩ := h.around helements
  simp only [lastComma?, helements]
  cases after with
  | nil =>
    rcases List.eq_nil_or_concat before with rfl | ⟨front, previous, rfl⟩
    · refine absurd ?_ hne
      cases hclosed : e.comma <;> simp [joinAround, hclosed, dropLastComma, withGapAfter]
    · have hprevious := (hbefore previous (by simp)).2
      cases hclosed : e.comma <;>
        simp [joinAround, hclosed, hprevious, dropLastComma, withGapAfter]
  | cons next more =>
    have hclosed : e.comma := hcomma e (by simp)
    cases more with
    | nil => simp [joinAround, hclosed, withGapAfter]
    | cons x more => simp [joinAround, hclosed, withGapAfter]

theorem lastComma?_removeBetween (h : list.Tiled) {before after : List Element} {e : Element}
    (helements : list.elements = before ++ e :: after)
    (hne : (list.removeBetween before e after).elements ≠ []) :
    (list.removeBetween before e after).lastComma? = list.lastComma? := by
  rcases list.removeBetween_cases before e after with ⟨-, heq⟩ | ⟨-, hcases⟩
  · rw [heq] at hne ⊢
    exact lastComma?_joinAround h helements hne
  rcases hcases with ⟨next, more, rfl, -, heq⟩ | ⟨front, previous, rfl, rfl, -, heq⟩ |
    ⟨-, -, heq⟩
  · rw [heq]
    cases more <;> simp [lastComma?, helements]
  · rw [heq]
    simp [lastComma?, helements]
  · rw [heq] at hne ⊢
    exact lastComma?_joinAround h helements hne

/-- A comma follows the last element after a removal exactly if one did before. -/
theorem lastComma?_remove (h : list.Tiled) (name : String)
    (hne : (list.remove name).elements ≠ []) :
    (list.remove name).lastComma? = list.lastComma? :=
  remove_induction (motive := fun list' => list'.elements ≠ [] → list'.lastComma? = list.lastComma?)
    (fun _ => rfl) (fun _ _ _ helements => lastComma?_removeBetween h helements) name hne

theorem break_mem_joinAround {before after : List Element} {e : Element} {gap : List Char}
    (hgap : after = [] → '\n' ∈ gap) (htrail : '\n' ∈ list.trail) :
    '\n' ∈ (list.joinAround before e after gap).trail := by
  cases after with
  | nil =>
    have hgap := hgap rfl
    rcases List.eq_nil_or_concat before with rfl | ⟨front, previous, rfl⟩ <;>
      cases hclosed : e.comma <;> simp [joinAround, hclosed, dropLastComma, withGapAfter, hgap]
  | cons next more =>
    cases hclosed : e.comma <;> simpa [joinAround, hclosed, withGapAfter] using htrail

/-- A closing bracket that has a line of its own keeps it. -/
theorem break_mem_remove (hbreak : '\n' ∈ list.trail) (name : String) :
    '\n' ∈ (list.remove name).trail := by
  refine remove_induction (motive := fun list' => '\n' ∈ list'.trail) hbreak ?_ name
  intro before e after _
  rcases list.removeBetween_cases before e after with ⟨hlines, heq⟩ | ⟨-, hcases⟩
  · rw [heq]
    refine break_mem_joinAround (fun _ => ?_) hbreak
    simp only [standsAlone, Bool.and_eq_true, List.contains_iff_mem] at hlines
    rw [throughLastBreak_eq_append hlines.1.1.1.1]
    simp
  rcases hcases with ⟨next, more, rfl, -, heq⟩ | ⟨front, previous, rfl, rfl, -, heq⟩ |
    ⟨-, -, heq⟩
  · rwa [heq]
  · rwa [heq]
  · rw [heq]
    refine break_mem_joinAround ?_ hbreak
    rintro rfl
    exact List.mem_append_right _ hbreak

end ListText

end StubManager
