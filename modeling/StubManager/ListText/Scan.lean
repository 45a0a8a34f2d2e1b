import StubManager.ListText.Basic

/-!
# Reading a list

`ListText.scan` reads the list behind an opening bracket. Main statement: `render_scan`, a list
that was read renders to the text it was read from.
-/

namespace StubManager

/-- What is wrong with a list, and at which byte of the text. -/
inductive ListFault where
  | unterminated (start : Nat)
  | unbalanced (c : Char) (position : Nat)
  | emptyElement (position : Nat)
  | unclosed
deriving DecidableEq, Repr

/-- The words for a fault. -/
def ListFault.reason : ListFault → String
  | unterminated start => "unterminated string starting at byte " ++ toString start
  | unbalanced c position => "unbalanced '" ++ c.toString ++ "' at byte " ++ toString position
  | emptyElement position => "empty list element before byte " ++ toString position
  | unclosed => "list is never closed"

/-- The number of bytes a text takes. -/
def byteLength : List Char → Nat
  | [] => 0
  | c :: text => c.utf8Size + byteLength text

namespace Piece

/-- The pieces before each separator, and the pieces behind the last one. -/
def segments : List Piece → List (List Piece) × List Piece
  | [] => ([], [])
  | piece :: pieces =>
    let (closed, last) := segments pieces
    if piece = separator then ([] :: closed, last)
    else
      match closed with
      | [] => ([], piece :: last)
      | segment :: more => ((piece :: segment) :: more, last)

/-- The gap at the front of a segment, the pieces from the first to the last that is no gap, and
the gap at the back. A segment of gaps alone has all of it in front. -/
def trim (segment : List Piece) : List Piece × List Piece × List Piece :=
  let back := (segment.dropWhile isGap).reverse
  (segment.takeWhile isGap, (back.dropWhile isGap).reverse, (back.takeWhile isGap).reverse)

theorem textOf_segments (pieces : List Piece) :
    (segments pieces).1.flatMap (fun segment => textOf segment ++ [','])
      ++ textOf (segments pieces).2 = textOf pieces := by
  induction pieces with
  | nil => rfl
  | cons piece pieces ih =>
    cases hcut : segments pieces with
    | mk closed last =>
      rw [hcut] at ih
      simp only [segments, hcut]
      split
      · next h => subst h; simpa [Piece.text, textOf] using ih
      · cases closed with
        | nil => simpa using ih
        | cons segment more => simpa using ih

theorem trim_append (segment : List Piece) :
    (trim segment).1 ++ (trim segment).2.1 ++ (trim segment).2.2 = segment := by
  simp only [trim, List.append_assoc]
  rw [← List.reverse_append, List.takeWhile_append_dropWhile, List.reverse_reverse,
    List.takeWhile_append_dropWhile]

end Piece

/-- The element of a segment that a comma closes. -/
def Element.ofSegment? (segment : List Piece) : Option Element :=
  match Piece.trim segment with
  | (_, [], _) => none
  | (lead, raw, tail) =>
    some { lead := Piece.textOf lead, raw := Piece.textOf raw, tail := Piece.textOf tail,
           comma := true }

theorem Element.render_ofSegment? {segment : List Piece} {e : Element}
    (h : ofSegment? segment = some e) : e.render = Piece.textOf segment ++ [','] := by
  have hcat := congrArg Piece.textOf (Piece.trim_append segment)
  unfold ofSegment? at h
  split at h
  · cases h
  · next lead raw tail _ heq =>
    cases h
    simp only [heq, Piece.textOf_append] at hcat
    simp [Element.render, Element.closing, ← hcat]

namespace ListText

/-- The elements of the segments that commas close, the first starting at byte `position`. -/
def closedElements (position : Nat) : List (List Piece) → Except ListFault (List Element)
  | [] => .ok []
  | segment :: segments =>
    let comma := position + byteLength (Piece.textOf segment)
    match Element.ofSegment? segment with
    | none => .error (.emptyElement comma)
    | some e => do return e :: (← closedElements (comma + 1) segments)

/-- The element, if any, and the gap that the pieces behind the last comma amount to. -/
def lastElement (segment : List Piece) : List Element × List Char :=
  match Piece.trim segment with
  | (lead, [], tail) => ([], Piece.textOf lead ++ Piece.textOf tail)
  | (lead, raw, tail) =>
    ([{ lead := Piece.textOf lead, raw := Piece.textOf raw, comma := false }], Piece.textOf tail)

/-- Reads the list whose opening bracket ends `head` and whose inside starts `text`. -/
def scan (head text : List Char) : Except ListFault ListText := do
  let (pieces, ending) := Piece.body 0 text
  let (closed, last) := Piece.segments pieces
  let elements ← closedElements (byteLength head) closed
  let stop := byteLength head + byteLength (Piece.textOf pieces)
  match ending with
  | .unterminated _ => throw (.unterminated stop)
  | .unbalanced c _ => throw (.unbalanced c stop)
  | .unclosed => throw .unclosed
  | .closed rest =>
    let (more, trail) := lastElement last
    return { head, elements := elements ++ more, trail, rest }

theorem renderElements_closedElements {position : Nat} {segments : List (List Piece)}
    {elements : List Element} (h : closedElements position segments = .ok elements) :
    renderElements elements = segments.flatMap fun segment => Piece.textOf segment ++ [','] := by
  induction segments generalizing position elements with
  | nil => cases h; rfl
  | cons segment segments ih =>
    unfold closedElements at h
    split at h
    · cases h
    · next e he =>
      cases hrest : closedElements (position + byteLength (Piece.textOf segment) + 1) segments with
      | error _ => simp [hrest, bind, Except.bind] at h
      | ok es =>
        simp only [hrest, bind, Except.bind, pure, Except.pure, Except.ok.injEq] at h
        subst h
        simp [ih hrest, Element.render_ofSegment? he]

theorem render_lastElement (segment : List Piece) :
    renderElements (lastElement segment).1 ++ (lastElement segment).2 = Piece.textOf segment := by
  have hcat := congrArg Piece.textOf (Piece.trim_append segment)
  unfold lastElement
  split
  · next heq => simp only [heq, Piece.textOf_append] at hcat; simpa [Piece.textOf] using hcat
  · next heq =>
    simp only [heq, Piece.textOf_append] at hcat
    simpa [Element.render, Element.closing] using hcat

/-- A list that was read renders to the text it was read from. -/
theorem render_scan {head text : List Char} {list : ListText} (h : scan head text = .ok list) :
    list.head = head ∧ list.render = head ++ text := by
  have htext := Piece.text_body 0 text
  have hsegments := Piece.textOf_segments (Piece.body 0 text).1
  have hlast := render_lastElement (Piece.segments (Piece.body 0 text).1).2
  unfold scan at h
  simp only at h
  cases helements : closedElements (byteLength head) (Piece.segments (Piece.body 0 text).1).1 with
  | error _ => simp [helements, bind, Except.bind] at h
  | ok elements =>
    simp only [helements, bind, Except.bind] at h
    split at h
    · cases h
    · cases h
    · cases h
    · next rest hending =>
      cases h
      refine ⟨rfl, ?_⟩
      simp only [hending, Piece.Ending.rest] at htext
      rw [← hsegments, ← hlast] at htext
      simp only [render, inner, renderElements_append, List.append_assoc,
        renderElements_closedElements helements] at htext ⊢
      rw [htext]

end ListText

end StubManager
