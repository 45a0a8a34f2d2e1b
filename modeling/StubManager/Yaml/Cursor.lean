/-!
# Positions in a YAML text

A `Cursor` is what is left of a text, with the line and the column it starts at. Columns decide
what belongs to what in YAML, so every reading step goes through a cursor.
-/

namespace StubManager.Yaml

/-- The rest of a text and where it starts. -/
structure Cursor where
  rest : List Char
  /-- How many characters lie before. -/
  index : Nat := 0
  line : Nat := 0
  column : Nat := 0
deriving Repr, Inhabited

/-- Characters that may occur in a YAML text at all. -/
def isAllowed (c : Char) : Bool :=
  c = '\t' || c = '\n' || c = '\x0d' || (' ' ≤ c && c ≤ '~') || c = '\u0085'
    || ('\u00a0' ≤ c && c.toNat ≤ 0xFFFD) || 0x10000 ≤ c.toNat

/-- Characters that end a line. -/
def isBreak (c : Char) : Bool :=
  c = '\n' || c = '\x0d' || c = '\u0085' || c = '\u2028' || c = '\u2029'

/-- Spaces and tabs. -/
def isGap (c : Char) : Bool := c = ' ' || c = '\t'

/-- Spaces, tabs and line breaks. -/
def isSpacing (c : Char) : Bool := isGap c || isBreak c

/-- Letters, digits, the hyphen and the underscore. -/
def isWordChar (c : Char) : Bool := c.isAlphanum || c = '-' || c = '_'

namespace Cursor

/-- The cursor at the start of a text. -/
def ofText (text : List Char) : Cursor := { rest := text }

/-- Whether nothing is left. -/
def atEnd (c : Cursor) : Bool := c.rest.isEmpty

/-- Whether the next character exists and is of the given kind. -/
def next (p : Char → Bool) (c : Cursor) : Bool := c.rest.head?.any p

/-- Whether spacing or the end of the text follows behind `n` characters. -/
def spacedAfter (n : Nat) (c : Cursor) : Bool := (c.rest.drop n).head?.all isSpacing

/-- The cursor behind `n` characters of the same line. -/
def skip (n : Nat) (c : Cursor) : Cursor :=
  { c with rest := c.rest.drop n, index := c.index + n, column := c.column + n }

/-- The longest run of characters of one kind, none of them a line break, and what follows. -/
def takeWhile (p : Char → Bool) (c : Cursor) : List Char × Cursor :=
  let run := c.rest.takeWhile p
  (run, c.skip run.length)

/-- The cursor behind the characters that satisfy a test. -/
def skipWhile (p : Char → Bool) (c : Cursor) : Cursor := (c.takeWhile p).2

/-- The cursor at the start of the next line, behind a break of `n` characters. -/
def nextLine (n : Nat) (c : Cursor) : Cursor :=
  { rest := c.rest.drop n, index := c.index + n, line := c.line + 1, column := 0 }

/-- A line break as it counts inside of text, and what follows it. Only the line and the paragraph
separator stand for themselves. -/
def break? (c : Cursor) : Option (List Char × Cursor) :=
  match c.rest with
  | '\x0d' :: '\n' :: _ => some (['\n'], c.nextLine 2)
  | ch :: _ =>
    if ch = '\u2028' ∨ ch = '\u2029' then some ([ch], c.nextLine 1)
    else if isBreak ch then some (['\n'], c.nextLine 1)
    else none
  | [] => none

/-- Behind a line break, if one follows. -/
def skipBreak (c : Cursor) : Cursor := (c.break?.map (·.2)).getD c

/-- Whether the line starts with the mark of a document's start or end. -/
def atDocumentMark (c : Cursor) : Bool :=
  c.column == 0 && (c.rest.take 3 == ['-', '-', '-'] || c.rest.take 3 == ['.', '.', '.'])
    && c.spacedAfter 3

/-- Behind what may stand at the end of a line: gaps, a comment and the break. None if there is
anything else. -/
def endLine? (c : Cursor) : Option Cursor :=
  let c := c.skipWhile isGap
  let c := if c.next (· = '#') then c.skipWhile (!isBreak ·) else c
  if c.atEnd then some c else c.break?.map (·.2)

end Cursor

end StubManager.Yaml
