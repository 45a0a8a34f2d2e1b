import StubManager.Yaml.Token

/-!
# The layout of a YAML text

`Yaml.tokens?` reads a whole text as tokens. Columns become tokens too: a deeper column opens a
block collection and a lesser one closes it. A colon makes the node before it a key, so a `Layout`
remembers where such a node could start.
-/

namespace StubManager.Yaml

/-- A place where a key may have started. -/
structure KeyStart where
  /-- How many tokens lie before it. -/
  count : Nat
  index : Nat
  line : Nat
  column : Nat
  /-- Whether nothing but a key may stand there. -/
  required : Bool
deriving Repr, Inhabited

/-- How far a text is read. -/
structure Layout where
  cursor : Cursor
  /-- The tokens so far, last first. -/
  tokens : List Token := []
  count : Nat := 0
  /-- The columns of the open block collections, innermost first. -/
  blocks : List Nat := []
  /-- Where the last key on this bracket level may have started. -/
  keyStart : Option KeyStart := none
  /-- The same for the bracket levels around this one. -/
  outer : List (Option KeyStart) := []
  /-- Whether a key may start here. -/
  keyAllowed : Bool := true
deriving Repr, Inhabited

namespace Layout

/-- Whether the place is between brackets. -/
def inFlow (l : Layout) : Bool := !l.outer.isEmpty

/-- The least column of what belongs to the innermost block collection. -/
def contentColumn (l : Layout) : Nat :=
  match l.blocks with
  | [] => 0
  | column :: _ => column + 1

/-- Adds a token to those that have been read. -/
def push (token : Token) (l : Layout) : Layout :=
  { l with tokens := token :: l.tokens, count := l.count + 1 }

/-- Puts a token behind the first `count` ones. -/
def insert (count : Nat) (token : Token) (l : Layout) : Layout :=
  let behind := l.count - count
  { l with
    tokens := l.tokens.take behind ++ token :: l.tokens.drop behind
    count := l.count + 1 }

/-- Opens a block collection behind the first `count` tokens if its column is deeper than the
innermost one. -/
def openBlock (column count : Nat) (token : Token) (l : Layout) : Layout :=
  if !l.inFlow ∧ l.contentColumn ≤ column then
    { l with blocks := column :: l.blocks }.insert count token
  else l

/-- Closes the block collections that lie deeper than a column. -/
def closeBlocks (stays : Nat → Bool) (l : Layout) : Layout :=
  if l.inFlow then l
  else
    let closed := l.blocks.takeWhile (!stays ·)
    { l with
      blocks := l.blocks.drop closed.length
      tokens := closed.map (fun _ => Token.blockEnd) ++ l.tokens
      count := l.count + closed.length }

/-- Gives up the place where a key may have started. None if a key has to be there. -/
def dropKey? (l : Layout) : Option Layout :=
  if l.keyStart.any (·.required) then none else some { l with keyStart := none }

/-- Remembers that a key may start here. -/
def saveKey? (l : Layout) : Option Layout :=
  if l.keyAllowed then do
    let l ← l.dropKey?
    let required := !l.inFlow && l.blocks.head? == some l.cursor.column
    return { l with
      keyStart := some
        { count := l.count, index := l.cursor.index, line := l.cursor.line,
          column := l.cursor.column, required } }
  else some l

/-- The most characters of a key. -/
def keyLimit : Nat := 1024

/-- Whether a key that started there cannot end here any more. -/
def isStale (c : Cursor) (key : KeyStart) : Bool :=
  key.line < c.line || key.index + keyLimit < c.index

/-- Gives up the places that are too far back on all levels. -/
def dropStale? (l : Layout) : Option Layout :=
  let drop (key : Option KeyStart) : Option (Option KeyStart) :=
    match key with
    | none => some none
    | some key =>
      if isStale l.cursor key then (if key.required then none else some none) else some (some key)
  do return { l with keyStart := ← drop l.keyStart, outer := ← l.outer.mapM drop }

/-- Passes over gaps, comments and line breaks, in at most `fuel` lines. -/
def skipSpacing : (fuel : Nat) → Layout → Layout
  | 0, l => l
  | fuel + 1, l =>
    let c := if l.cursor.index = 0 ∧ l.cursor.next (· = '\ufeff') then l.cursor.skip 1 else l.cursor
    let c := c.skipWhile fun ch => ch = ' ' || ((l.inFlow || !l.keyAllowed) && ch = '\t')
    let c := if c.next (· = '#') then c.skipWhile (!isBreak ·) else c
    match c.break? with
    | some (_, c) =>
      skipSpacing fuel { l with cursor := c, keyAllowed := l.keyAllowed || !l.inFlow }
    | none => { l with cursor := c }

/-- Adds a token of `n` characters. -/
def sign (token : Token) (n : Nat) (l : Layout) : Layout :=
  { l with cursor := l.cursor.skip n }.push token

/-- Adds a token that may be the start of a key; `keyAllowed` tells about what follows it. -/
def word? (keyAllowed : Bool) (token? : Option (Token × Cursor)) (l : Layout) : Option Layout := do
  let l ← l.saveKey?
  let (token, cursor) ← token?
  return { l with cursor, keyAllowed }.push token

/-- Opens a bracket level. -/
def openBracket? (token : Token) (l : Layout) : Option Layout := do
  let l ← l.saveKey?
  let opened := { l with keyStart := none, outer := l.keyStart :: l.outer, keyAllowed := true }
  return opened.sign token 1

/-- Closes a bracket level. -/
def closeBracket? (token : Token) (l : Layout) : Option Layout := do
  let l ← l.dropKey?
  match l.outer with
  | [] => none
  | keyStart :: outer => return { l with keyStart, outer, keyAllowed := false }.sign token 1

/-- Adds the hyphen of a sequence entry. Entries of a block have a column of their own. -/
def blockItem? (l : Layout) : Option Layout := do
  guard (!l.inFlow && l.keyAllowed)
  let l ← (l.openBlock l.cursor.column l.count .blockSequenceStart).dropKey?
  return { l with keyAllowed := true }.sign .blockEntry 1

/-- Adds the question mark of a key. -/
def keySign? (l : Layout) : Option Layout := do
  guard (l.inFlow || l.keyAllowed)
  let l ← (l.openBlock l.cursor.column l.count .blockMappingStart).dropKey?
  return { l with keyAllowed := !l.inFlow }.sign .key 1

/-- Adds the colon of a value, which makes what is before it a key. -/
def valueSign? (l : Layout) : Option Layout := do
  match l.keyStart with
  | some start =>
    let l := (l.insert start.count .key).openBlock start.column start.count .blockMappingStart
    return { l with keyStart := none, keyAllowed := false }.sign .value 1
  | none =>
    guard (l.inFlow || l.keyAllowed)
    let l := l.openBlock l.cursor.column l.count .blockMappingStart
    return { l with keyAllowed := !l.inFlow }.sign .value 1

/-- Closes all block collections for a token that stands outside of documents. -/
def atMargin? (l : Layout) : Option Layout := do
  let l ← (l.closeBlocks fun _ => false).dropKey?
  return { l with keyAllowed := false }

/-- A plain scalar. -/
def plain? (l : Layout) : Option Layout := do
  let l ← l.saveKey?
  let (token, broken, cursor) ← plainScalar? l.inFlow l.contentColumn l.cursor
  return { l with cursor, keyAllowed := broken }.push token

/-- Signs that a plain scalar cannot start with. -/
def isSign (c : Char) : Bool := "-?:,[]\x7b\x7d#&*!|>'\"%@`".toList.contains c

/-- Reads one token, and the tokens that its column stands for. -/
def step? (l : Layout) : Option Layout := do
  let c := l.cursor
  match c.rest with
  | [] => none
  | ch :: _ =>
    let spaced := c.spacedAfter 1
    if c.column = 0 ∧ ch = '%' then
      let l ← l.atMargin?
      let (token, cursor) ← directive? c
      return { l with cursor }.push token
    else if c.atDocumentMark then
      return (← l.atMargin?).sign (if ch = '-' then .documentStart else .documentEnd) 3
    else if ch = '[' then l.openBracket? .flowSequenceStart
    else if ch = '\x7b' then l.openBracket? .flowMappingStart
    else if ch = ']' then l.closeBracket? .flowSequenceEnd
    else if ch = '\x7d' then l.closeBracket? .flowMappingEnd
    else if ch = ',' then return { (← l.dropKey?) with keyAllowed := true }.sign .flowEntry 1
    else if ch = '-' ∧ spaced then l.blockItem?
    else if ch = '?' ∧ (l.inFlow ∨ spaced) then l.keySign?
    else if ch = ':' ∧ (l.inFlow ∨ spaced) then l.valueSign?
    else if ch = '*' then
      l.word? false ((anchorName? c).map fun (name, c) => (.reference name, c))
    else if ch = '&' then
      l.word? false ((anchorName? c).map fun (name, c) => (.anchor name, c))
    else if ch = '!' then l.word? false (tag? l.inFlow c)
    else if (ch = '|' ∨ ch = '>') ∧ !l.inFlow then
      let l ← l.dropKey?
      let (token, cursor) ← blockScalar? (ch = '|') l.blocks.head? c
      return { l with cursor, keyAllowed := true }.push token
    else if ch = '\'' then l.word? false (quotedScalar? false c)
    else if ch = '"' then l.word? false (quotedScalar? true c)
    else if !isSpacing ch ∧ !isSign ch ∨ ch = '-' ∨ !l.inFlow ∧ (ch = '?' ∨ ch = ':') then l.plain?
    else none

/-- Reads the rest of a text, in at most `fuel` tokens. -/
def finish? : (fuel : Nat) → Layout → Option (List Token)
  | 0, _ => none
  | fuel + 1, l => do
    let l ← (l.skipSpacing (l.cursor.rest.length + 1)).dropStale?
    let l := l.closeBlocks (· ≤ l.cursor.column)
    if l.cursor.atEnd then return (← l.atMargin?).tokens.reverse
    else finish? fuel (← l.step?)

end Layout

/-- The tokens of a text. -/
def tokens? (text : List Char) : Option (List Token) :=
  if text.all isAllowed then Layout.finish? (text.length + 1) { cursor := .ofText text } else none

end StubManager.Yaml
