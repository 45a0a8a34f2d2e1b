import StubManager.Quoted

/-!
# Lexical pieces of a list

The text behind the opening bracket of a list falls into blanks, comments, string literals, nested
brackets, separating commas and other characters, up to the bracket that closes the list.
`Piece.body` cuts it, and `text_body` says that nothing is lost.
-/

namespace StubManager

/-- White space between elements: space, tab, line feed, form feed and carriage return. -/
def isListBlank (c : Char) : Bool :=
  c = ' ' || c = '\t' || c = '\n' || c = '\x0c' || c = '\x0d'

/-- The pieces of the text inside a list. -/
inductive Piece where
  | blank (c : Char)
  /-- A comment runs to the end of its line; the line feed is not part of it. -/
  | comment (words : List Char)
  | literal (style : QuoteStyle) (inside : List Char)
  /-- An opening or closing bracket of a nested structure. -/
  | bracket (c : Char)
  /-- A comma between elements of the list itself. -/
  | separator
  | plain (c : Char)
deriving DecidableEq, Repr

namespace Piece

/-- The text a piece stands for. -/
def text : Piece → List Char
  | blank c | bracket c | plain c => [c]
  | comment words => '#' :: words
  | literal style inside => style.mark :: (inside ++ [style.mark])
  | separator => [',']

/-- Blanks and comments belong to no element. -/
def isGap : Piece → Bool
  | blank _ | comment _ => true
  | _ => false

/-- The text of a sequence of pieces. -/
def textOf (pieces : List Piece) : List Char := pieces.flatMap text

/-- How the pieces of a list end. -/
inductive Ending where
  /-- The remaining text starts with the bracket that closes the list. -/
  | closed (rest : List Char)
  /-- A string literal starts here and does not end on its line. -/
  | unterminated (rest : List Char)
  /-- A closing bracket of the wrong kind stands where the list may close. -/
  | unbalanced (c : Char) (rest : List Char)
  /-- The text ends inside the list. -/
  | unclosed
deriving DecidableEq, Repr

/-- The text from where the pieces end. -/
def Ending.rest : Ending → List Char
  | closed rest | unterminated rest | unbalanced _ rest => rest
  | unclosed => []

private theorem length_lt_of_scan? {mark c : Char} {text inside after : List Char}
    (h : Literal.scan? mark text = some (inside, after)) :
    after.length < (c :: text).length := by
  have := congrArg List.length (Literal.eq_of_scan? h)
  simp only [List.length_append, List.length_cons] at this ⊢
  omega

/-- The pieces up to the closing bracket of a list, `depth` nested brackets being open. -/
def body (depth : Nat) : List Char → List Piece × Ending
  | [] => ([], .unclosed)
  | c :: text =>
    match QuoteStyle.ofMark? c with
    | some style =>
      match _h : Literal.scan? c text with
      | none => ([], .unterminated (c :: text))
      | some (inside, after) =>
        let (pieces, ending) := body depth after
        (literal style inside :: pieces, ending)
    | none =>
      if c = '#' then
        let (pieces, ending) := body depth (text.dropWhile (· ≠ '\n'))
        (comment (text.takeWhile (· ≠ '\n')) :: pieces, ending)
      else if c = '[' ∨ c = '(' ∨ c = '\x7b' then
        let (pieces, ending) := body (depth + 1) text
        (bracket c :: pieces, ending)
      else if c = ']' ∨ c = ')' ∨ c = '\x7d' then
        match depth with
        | 0 => ([], if c = ']' then .closed (c :: text) else .unbalanced c (c :: text))
        | depth + 1 =>
          let (pieces, ending) := body depth text
          (bracket c :: pieces, ending)
      else
        let (pieces, ending) := body depth text
        let piece := if c = ',' ∧ depth = 0 then separator
          else if isListBlank c then blank c else plain c
        (piece :: pieces, ending)
termination_by text => text.length
decreasing_by
  · exact length_lt_of_scan? _h
  · have := (List.dropWhile_sublist (l := text) (p := (· ≠ '\n'))).length_le
    simp only [List.length_cons]; omega
  all_goals simp

@[simp] theorem textOf_cons (piece : Piece) (pieces : List Piece) :
    textOf (piece :: pieces) = piece.text ++ textOf pieces := rfl

@[simp] theorem textOf_append (front back : List Piece) :
    textOf (front ++ back) = textOf front ++ textOf back := by
  simp [textOf]

/-- Cutting a text into pieces loses nothing. -/
theorem text_body (depth : Nat) (text : List Char) :
    textOf (body depth text).1 ++ (body depth text).2.rest = text := by
  fun_induction body depth text with
  | case1 => rfl
  | case2 => simp [textOf, Ending.rest]
  | case3 depth c text style hstyle inside after h pieces ending heq ih =>
    rw [heq] at ih
    simp [Piece.text, QuoteStyle.mark_of_ofMark? hstyle, Literal.eq_of_scan? h, ih]
  | case4 depth text pieces ending heq _ ih =>
    rw [heq] at ih
    simp [Piece.text, ih, List.takeWhile_append_dropWhile]
  | case5 depth c text _ _ _ pieces ending heq ih =>
    rw [heq] at ih
    simp [Piece.text, ih]
  | case6 c text =>
    simp only [textOf, List.flatMap_nil, List.nil_append]
    split <;> rfl
  | case7 c text _ _ _ _ depth pieces ending heq ih =>
    rw [heq] at ih
    simp [Piece.text, ih]
  | case8 depth c text _ _ _ _ pieces ending heq piece ih =>
    rw [heq] at ih
    have hpiece : piece.text = [c] := by
      simp only [piece]
      split
      · next h => simp [Piece.text, h.1]
      · split <;> rfl
    simp [hpiece, ih]

end Piece

end StubManager
