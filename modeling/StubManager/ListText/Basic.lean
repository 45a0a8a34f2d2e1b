import StubManager.ListText.Piece

/-!
# Texts that hold a list

`ListText` is a text split around the elements of one list literal: what comes before, the
elements with the gaps around them, and what comes after. `ListText.render` puts it together
again.
-/

namespace StubManager

/-- One element of a list, with the white space and comments around it. -/
structure Element where
  /-- The gap before the element. -/
  lead : List Char := []
  /-- The element itself. -/
  raw : List Char
  /-- The gap between the element and its comma; empty where no comma follows. -/
  tail : List Char := []
  /-- Whether a comma follows. -/
  comma : Bool
deriving DecidableEq, Repr, Inhabited

namespace Element

/-- The text from an element's end to its comma, the comma included. -/
def closing (e : Element) : List Char := e.tail ++ if e.comma then [','] else []

/-- The text of an element with its gaps and its comma. -/
def render (e : Element) : List Char := e.lead ++ e.raw ++ e.closing

/-- The quotes and the inside of an element that is one string literal and nothing else. -/
def literal? (e : Element) : Option (QuoteStyle × List Char) :=
  match e.raw with
  | [] => none
  | c :: text =>
    match QuoteStyle.ofMark? c, Literal.scan? c text with
    | some style, some (inside, []) => some (style, inside)
    | _, _ => none

/-- The quotes of an element that is a string literal. -/
def style? (e : Element) : Option QuoteStyle := e.literal?.map (·.1)

/-- What an element stands for: the value of a string literal, otherwise its text. -/
def value (e : Element) : String :=
  match e.literal? with
  | some (_, inside) => String.ofList (Literal.unescape inside)
  | none => String.ofList e.raw

end Element

/-- A text that holds a list, split around the elements of the list. -/
structure ListText where
  /-- The text up to the opening bracket, which it includes. -/
  head : List Char
  elements : List Element
  /-- The gap before the closing bracket. -/
  trail : List Char
  /-- The text from the closing bracket on. -/
  rest : List Char
deriving DecidableEq, Repr

namespace ListText

/-- The text of consecutive elements. -/
def renderElements (elements : List Element) : List Char := elements.flatMap Element.render

/-- The text between the brackets. -/
def inner (list : ListText) : List Char := renderElements list.elements ++ list.trail

/-- The whole text. -/
def render (list : ListText) : List Char := list.head ++ list.inner ++ list.rest

/-- The values of the elements, in order. -/
def values (list : ListText) : List String := list.elements.map Element.value

/-- The quotes of the first string literal in the list, double quotes if there is none. -/
def style (list : ListText) : QuoteStyle :=
  (list.elements.findSome? Element.style?).getD .double

@[simp] theorem renderElements_nil : renderElements [] = [] := rfl

@[simp] theorem renderElements_cons (e : Element) (es : List Element) :
    renderElements (e :: es) = e.render ++ renderElements es := rfl

@[simp] theorem renderElements_append (front back : List Element) :
    renderElements (front ++ back) = renderElements front ++ renderElements back := by
  simp [renderElements]

end ListText

end StubManager
