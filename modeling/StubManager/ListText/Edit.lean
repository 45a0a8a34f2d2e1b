import StubManager.ListText.Basic
import StubManager.ListText.Anchor
import StubManager.Text.Split

/-!
# Editing a list in its own style

`ListText.remove` takes one element out and `ListText.append` puts one behind the last. Both leave
everything outside the brackets alone: `head_remove`, `rest_remove`, `head_append`, `rest_append`.
An edit follows the list: its quotes, one element on a line where the closing bracket has a line
of its own, the indentation of the last element, the separator between the last two elements, and
a comma behind the last element where there was one.
-/

namespace StubManager

open Text

/-- Whether a text has only spaces and tabs. -/
def isBlankText (text : List Char) : Bool := text.all isSpaceOrTab

/-- The spaces and tabs a line starts with. -/
def indentation (line : List Char) : List Char := line.takeWhile isSpaceOrTab

/-- One step of indentation, for a list that shows none. -/
def indentStep : List Char := [' ', ' ', ' ', ' ']

namespace ListText

/-- The gap behind an element and its comma. -/
def gapAfter (after : List Element) (trail : List Char) : List Char :=
  match after with
  | [] => trail
  | next :: _ => next.lead

/-- The following elements and the last gap, with another gap in front. -/
def withGapAfter (gap : List Char) (after : List Element) (trail : List Char) :
    List Element × List Char :=
  match after with
  | [] => ([], gap)
  | next :: more => ({ next with lead := gap } :: more, trail)

/-- Whether nothing but blanks and its own comma shares the lines of an element. -/
def standsAlone (e : Element) (gap : List Char) : Bool :=
  e.lead.contains '\n' && isBlankText (lastLine e.lead) && !e.tail.contains '\n'
    && gap.contains '\n' && isBlankText (firstLine gap)

/-- The elements before, with the last one's comma taken away, and the gap that this frees. -/
def dropLastComma (before : List Element) (gap : List Char) : List Element × List Char :=
  match before.getLast? with
  | none => (before, gap)
  | some previous =>
    (before.dropLast ++ [{ previous with tail := [], comma := false }], previous.tail ++ gap)

/-- Takes out the element `e` between `before` and `after`.

An element with lines of its own goes with them. Otherwise it goes with the gap up to the next
element on its line, or from the previous element on its line, or alone. Where the last element
goes and had no comma, the comma before it goes too. -/
def removeBetween (list : ListText) (before : List Element) (e : Element) (after : List Element) :
    ListText :=
  let gap := gapAfter after list.trail
  let join (gap : List Char) : ListText :=
    let (before, gap) := if e.comma then (before, gap) else dropLastComma before gap
    let (after, trail) := withGapAfter gap after list.trail
    { list with elements := before ++ after, trail }
  if standsAlone e gap then join (throughLastBreak e.lead ++ (fromFirstBreak gap).drop 1)
  else
    match before.getLast?, after with
    | _, next :: more =>
      if (e.closing ++ next.lead).contains '\n' then join (e.lead ++ gap)
      else { list with elements := before ++ { next with lead := e.lead } :: more }
    | some previous, [] =>
      if (previous.closing ++ e.lead).contains '\n' then join (e.lead ++ gap)
      else
        { list with
          elements := before.dropLast ++ [{ previous with tail := e.tail, comma := e.comma }] }
    | none, [] => join (e.lead ++ gap)

/-- Takes out the first element of the given value; without one the list stays as it is. -/
def remove (list : ListText) (value : String) : ListText :=
  match list.elements.span (·.value != value) with
  | (_, []) => list
  | (before, e :: after) => list.removeBetween before e after

/-- The indentation for an element on a line of its own: that of the last element if it starts its
line, otherwise one step more than the line of the last element. -/
def itemIndentation (list : ListText) (before : List Element) (last : Element) : List Char :=
  let line := lastLine (list.head ++ renderElements before ++ last.lead)
  if isBlankText line then line else indentation line ++ indentStep

/-- What separates two elements on one line: the gap before the last element if it has another
before it on its line, otherwise a space. -/
def inlineSeparator (before : List Element) (last : Element) : List Char :=
  if before.isEmpty || last.lead.contains '\n' then [' '] else last.lead

/-- Puts an element behind the last one, in the style of the list. -/
def append (list : ListText) (fragment : List Char) : ListText :=
  match list.elements.getLast? with
  | none =>
    if list.trail.contains '\n' then
      let indent := indentation (lastLine list.trail) ++ indentStep
      { list with elements := [{ lead := '\n' :: indent, raw := fragment, comma := true }] }
    else { list with elements := [{ raw := fragment, comma := false }] }
  | some last =>
    let before := list.elements.dropLast
    if list.trail.contains '\n' then
      let lead := firstLine list.trail ++ '\n' :: list.itemIndentation before last
      { list with
        elements := before ++
          [{ last with comma := true }, { lead, raw := fragment, comma := last.comma }]
        trail := fromFirstBreak list.trail }
    else
      { list with
        elements := before ++
          [{ last with tail := [], comma := true },
           { lead := inlineSeparator before last, raw := fragment, tail := last.tail,
             comma := last.comma }] }

theorem head_removeBetween (list : ListText) (before : List Element) (e : Element)
    (after : List Element) : (list.removeBetween before e after).head = list.head := by
  unfold removeBetween
  grind

theorem rest_removeBetween (list : ListText) (before : List Element) (e : Element)
    (after : List Element) : (list.removeBetween before e after).rest = list.rest := by
  unfold removeBetween
  grind

theorem head_remove (list : ListText) (value : String) : (list.remove value).head = list.head := by
  unfold remove
  split
  · rfl
  · exact head_removeBetween ..

theorem rest_remove (list : ListText) (value : String) : (list.remove value).rest = list.rest := by
  unfold remove
  split
  · rfl
  · exact rest_removeBetween ..

theorem head_append (list : ListText) (fragment : List Char) :
    (list.append fragment).head = list.head := by
  unfold append
  grind

theorem rest_append (list : ListText) (fragment : List Char) :
    (list.append fragment).rest = list.rest := by
  unfold append
  grind

end ListText

end StubManager
