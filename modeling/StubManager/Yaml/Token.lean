import StubManager.Yaml.Cursor

/-!
# YAML tokens

The tokens of a YAML text, and the reading of those that are more than a sign: directives, anchors,
tags and scalars. `Yaml.tokens?` in `Yaml.Layout` puts them together.
-/

namespace StubManager.Yaml

/-- The signs and words a YAML text consists of. -/
inductive Token where
  | versionDirective (major minor : Nat)
  | tagDirective (handle value : List Char)
  | documentStart
  | documentEnd
  | blockSequenceStart
  | blockMappingStart
  | blockEnd
  | flowSequenceStart
  | flowSequenceEnd
  | flowMappingStart
  | flowMappingEnd
  | blockEntry
  | flowEntry
  | key
  | value
  | anchor (name : List Char)
  | reference (name : List Char)
  | tag (handle suffix : List Char)
  /-- `plain` says that the scalar has no quotes and is no block. -/
  | scalar (text : List Char) (plain : Bool)
deriving DecidableEq, Repr, Inhabited

/-! ## Directives, anchors and tags -/

/-- The value of a decimal number of at most nine digits. -/
def versionNumber? (c : Cursor) : Option (Nat × Cursor) :=
  let (digits, c) := c.takeWhile Char.isDigit
  if digits.isEmpty || 9 < digits.length then none
  else some (digits.foldl (fun n d => n * 10 + (d.toNat - 48)) 0, c)

private def hexDigit? (c : Char) : Option Nat :=
  if c.isDigit then some (c.toNat - 48)
  else if 'a' ≤ c ∧ c ≤ 'f' then some (c.toNat - 87)
  else if 'A' ≤ c ∧ c ≤ 'F' then some (c.toNat - 55)
  else none

/-- The value of hexadecimal digits. -/
def hexNumber? (digits : List Char) : Option Nat :=
  digits.foldlM (fun n d => (hexDigit? d).map (n * 16 + ·)) 0

/-- An octet written as a percent sign and two digits. -/
def octet? (c : Cursor) : Option (Nat × Cursor) :=
  match c.rest with
  | '%' :: high :: low :: _ => do return (← hexNumber? [high, low], c.skip 3)
  | _ => none

/-- How many octets a character takes whose first octet is given. -/
def octetCount? (first : Nat) : Option Nat :=
  if first < 0x80 then some 1
  else if first / 0x20 = 6 then some 2
  else if first / 0x10 = 14 then some 3
  else if first / 0x08 = 30 then some 4
  else none

/-- `n` octets that continue a character. -/
def continuations? : (n : Nat) → Cursor → Option (List Nat × Cursor)
  | 0, c => some ([], c)
  | n + 1, c => do
    let (octet, c) ← octet? c
    guard (octet / 0x40 = 2)
    let (octets, c) ← continuations? n c
    return (octet :: octets, c)

/-- A character written in octets; an octet beyond the first half of the range stands for itself,
since tags are told apart by their other characters only. -/
def octets? (c : Cursor) : Option (List Char × Cursor) := do
  let (first, c) ← octet? c
  let count ← octetCount? first
  let (others, c) ← continuations? (count - 1) c
  return ((first :: others).map Char.ofNat, c)

private def isTagChar (verbatim : Bool) (c : Char) : Bool :=
  isWordChar c || ";/?:@&=+$.!~*'()".toList.contains c
    || (verbatim && (c = ',' || c = '[' || c = ']'))

/-- The characters of a tag, in at most `fuel` runs. -/
def tagText? (verbatim : Bool) : (fuel : Nat) → Cursor → Option (List Char × Cursor)
  | 0, c => some ([], c)
  | fuel + 1, c => do
    let (run, c) := c.takeWhile (isTagChar verbatim)
    if c.next (· = '%') then
      let (octets, c) ← octets? c
      let (more, c) ← tagText? verbatim fuel c
      return (run ++ octets ++ more, c)
    else return (run, c)

/-- One or more characters of a tag. -/
def tagPart? (verbatim : Bool) (c : Cursor) : Option (List Char × Cursor) := do
  let (text, after) ← tagText? verbatim (c.rest.length + 1) c
  guard (after.index ≠ c.index)
  return (text, after)

/-- A handle: an exclamation mark, a word and perhaps another exclamation mark. -/
def tagHandle? (c : Cursor) : Option (List Char × Cursor) := do
  guard (c.next (· = '!'))
  let (word, c) := (c.skip 1).takeWhile isWordChar
  if c.next (· = '!') then return ('!' :: word ++ ['!'], c.skip 1) else return ('!' :: word, c)

/-- The tag in front of a node. `flow` says that it stands between brackets, where a comma may
follow. -/
def tag? (flow : Bool) (c : Cursor) : Option (Token × Cursor) := do
  let (token, c) ← do
    if c.rest.take 2 = ['!', '<'] then
      let (suffix, c) ← tagPart? true (c.skip 2)
      guard (c.next (· = '>'))
      pure (Token.tag [] suffix, c.skip 1)
    else
      let (handle, behind) ← tagHandle? c
      if 1 < handle.length ∧ handle.getLast? = some '!' then
        let (suffix, c) ← tagPart? false behind
        pure (Token.tag handle suffix, c)
      else
        let (more, c) ← tagText? false (behind.rest.length + 1) behind
        let suffix := handle.drop 1 ++ more
        if suffix.isEmpty then pure (Token.tag [] ['!'], c) else pure (Token.tag ['!'] suffix, c)
  guard (c.spacedAfter 0 || (flow && c.next (· = ',')))
  return (token, c)

/-- A directive, up to and including its line break. -/
def directive? (c : Cursor) : Option (Token × Cursor) := do
  let (name, c) := (c.skip 1).takeWhile isWordChar
  guard (c.spacedAfter 0)
  let c := c.skipWhile isGap
  let (token, c) ← do
    if name = "YAML".toList then
      let (major, c) ← versionNumber? c
      guard (c.next (· = '.'))
      let (minor, c) ← versionNumber? (c.skip 1)
      pure (Token.versionDirective major minor, c)
    else if name = "TAG".toList then
      let (handle, c) ← tagHandle? c
      guard (handle = ['!'] ∨ handle.length ≠ 1 ∧ handle.getLast? = some '!')
      guard (c.next isGap)
      let (value, c) ← tagPart? true (c.skipWhile isGap)
      guard (c.spacedAfter 0)
      pure (Token.tagDirective handle value, c)
    else none
  return (token, ← c.endLine?)

/-- The name behind the sign of an anchor or an alias. -/
def anchorName? (c : Cursor) : Option (List Char × Cursor) := do
  let (name, c) := (c.skip 1).takeWhile isWordChar
  guard (!name.isEmpty)
  guard (c.spacedAfter 0 || c.next "?:,]\x7d%@`".toList.contains)
  return (name, c)

/-! ## Folded line breaks -/

/-- Line breaks with the gaps between them, as they count inside of a scalar that is not a block:
gaps alone count as they are, the first break of several does not count, and a single one counts
as a space. -/
structure Fold where
  /-- Gaps before the first break. -/
  gaps : List Char := []
  /-- Whether there was a break. -/
  broken : Bool := false
  first : List Char := []
  later : List Char := []
deriving Repr, Inhabited

namespace Fold

/-- What the breaks and gaps stand for. -/
def text (fold : Fold) : List Char :=
  if !fold.broken then fold.gaps
  else if fold.first = ['\n'] then (if fold.later.isEmpty then [' '] else fold.later)
  else fold.first ++ fold.later

/-- Reads gaps and breaks, in at most `fuel` runs. `indent` is the least column for gaps with tabs
at the start of a line. -/
def read? (indent : Nat) : (fuel : Nat) → Fold → Cursor → Option (Fold × Cursor)
  | 0, fold, c => some (fold, c)
  | fuel + 1, fold, c =>
    match c.break? with
    | some (text, c) =>
      if fold.broken then read? indent fuel { fold with later := fold.later ++ text } c
      else read? indent fuel { fold with broken := true, first := text } c
    | none =>
      if c.next isGap then
        if fold.broken ∧ c.column < indent ∧ c.next (· = '\t') then none
        else if fold.broken then read? indent fuel fold (c.skip 1)
        else read? indent fuel { fold with gaps := fold.gaps ++ c.rest.take 1 } (c.skip 1)
      else some (fold, c)

end Fold

/-! ## Plain scalars -/

/-- Signs that end a plain scalar between brackets. -/
def isFlowSign (c : Char) : Bool := ",[]\x7b\x7d".toList.contains c

/-- How long the word of a plain scalar is that `text` starts with. None if a colon stands where it
may not. -/
def plainWord? (flow : Bool) : (text : List Char) → Option Nat
  | [] => some 0
  | ':' :: rest =>
    if flow ∧ rest.head?.any (fun c => c = '?' || "[]\x7b\x7d,".toList.contains c) then none
    else if rest.head?.all isSpacing then some 0
    else (plainWord? flow rest).map (· + 1)
  | c :: rest =>
    if isSpacing c then some 0
    else if flow ∧ isFlowSign c then some 0
    else (plainWord? flow rest).map (· + 1)

/-- A plain scalar of at most `fuel` words behind the fold. The answer has its text, whether it
ends behind a line break, and what follows. -/
def plainText? (flow : Bool) (indent : Nat) : (fuel : Nat) → Fold → Cursor →
    Option (List Char × Bool × Cursor)
  | 0, fold, c => some ([], fold.broken, c)
  | fuel + 1, fold, c => do
    if c.atDocumentMark || c.next (· = '#') then return ([], fold.broken, c)
    let length ← plainWord? flow c.rest
    let word := if length = 0 then [] else fold.text ++ c.rest.take length
    let fold := if length = 0 then fold else {}
    let c := c.skip length
    if !c.next isSpacing then return (word, fold.broken, c)
    let (fold, c) ← fold.read? indent (c.rest.length + 1) c
    if !flow ∧ c.column < indent then return (word, fold.broken, c)
    let (more, broken, c) ← plainText? flow indent fuel fold c
    return (word ++ more, broken, c)

/-- A plain scalar; also says whether it ends behind a line break. -/
def plainScalar? (flow : Bool) (indent : Nat) (c : Cursor) : Option (Token × Bool × Cursor) := do
  let (text, broken, c) ← plainText? flow indent (c.rest.length + 1) {} c
  return (.scalar text true, broken, c)

/-! ## Quoted scalars -/

/-- The character a letter behind a backslash stands for. -/
def escape? : Char → Option Char
  | '0' => some '\x00'
  | 'a' => some '\x07'
  | 'b' => some '\x08'
  | 't' | '\t' => some '\t'
  | 'n' => some '\n'
  | 'v' => some '\x0b'
  | 'f' => some '\x0c'
  | 'r' => some '\x0d'
  | 'e' => some '\x1b'
  | ' ' => some ' '
  | '"' => some '"'
  | '/' => some '/'
  | '\\' => some '\\'
  | 'N' => some '\u0085'
  | '_' => some '\u00a0'
  | 'L' => some '\u2028'
  | 'P' => some '\u2029'
  | _ => none

/-- How many hexadecimal digits follow a letter behind a backslash. -/
def escapeWidth? : Char → Option Nat
  | 'x' => some 2
  | 'u' => some 4
  | 'U' => some 8
  | _ => none

/-- The character that an escape stands for, and how long the escape is. -/
def escaped? : List Char → Option (Char × Nat)
  | '\\' :: letter :: rest =>
    match escapeWidth? letter with
    | some width => do
      let digits := rest.take width
      guard (digits.length = width)
      let code ← hexNumber? digits
      guard (code.isValidChar)
      return (Char.ofNat code, 2 + width)
    | none => (escape? letter).map (·, 2)
  | _ => none

/-- A word between quotes in at most `fuel` characters. The answer has the word, whether an escaped
line break ended it, and what follows. -/
def quotedWord? (double : Bool) : (fuel : Nat) → Cursor → Option (List Char × Bool × Cursor)
  | 0, c => some ([], false, c)
  | fuel + 1, c =>
    match c.rest with
    | [] => some ([], false, c)
    | ch :: rest =>
      let go (text : List Char) (n : Nat) : Option (List Char × Bool × Cursor) :=
        (quotedWord? double fuel (c.skip n)).map fun (word, broken, c) => (text ++ word, broken, c)
      if isSpacing ch then some ([], false, c)
      else if double then
        if ch = '"' then some ([], false, c)
        else if ch = '\\' then
          if rest.head?.any isBreak then some ([], true, (c.skip 1).skipBreak)
          else (escaped? c.rest).bind fun (e, n) => go [e] n
        else go [ch] 1
      else if ch = '\'' then
        if rest.head? = some '\'' then go ['\''] 2 else some ([], false, c)
      else go [ch] 1

/-- The text up to the closing quote, in at most `fuel` words. -/
def quotedText? (double : Bool) : (fuel : Nat) → Cursor → Option (List Char × Cursor)
  | 0, _ => none
  | fuel + 1, c => do
    guard (!c.atDocumentMark && !c.atEnd)
    let (word, broken, c) ← quotedWord? double (c.rest.length + 1) c
    if c.next (· = if double then '"' else '\'') then return (word, c.skip 1)
    let (fold, c) ← Fold.read? 0 (c.rest.length + 1) { broken } c
    let (more, c) ← quotedText? double fuel c
    return (word ++ fold.text ++ more, c)

/-- A scalar between quotes. -/
def quotedScalar? (double : Bool) (c : Cursor) : Option (Token × Cursor) := do
  let (text, c) ← quotedText? double (c.rest.length + 1) (c.skip 1)
  return (.scalar text false, c)

/-! ## Block scalars -/

/-- What happens to the line breaks at the end of a block scalar. -/
inductive Chomp where
  | strip
  | clip
  | keep
deriving DecidableEq, Repr

/-- The signs behind the mark of a block scalar: chomping and indentation in any order. -/
def blockHeader? (c : Cursor) : Option (Chomp × Option Nat × Cursor) := do
  let chomp (c : Cursor) : Option (Chomp × Cursor) :=
    if c.next (· = '+') then some (.keep, c.skip 1)
    else if c.next (· = '-') then some (.strip, c.skip 1)
    else none
  let step (c : Cursor) : Option (Option Nat × Cursor) :=
    match c.rest with
    | '0' :: _ => none
    | d :: _ => if d.isDigit then some (some (d.toNat - 48), c.skip 1) else some (none, c)
    | [] => some (none, c)
  match chomp c with
  | some (chomp, c) => do
    let (increment, c) ← step c
    return (chomp, increment, c)
  | none => do
    let (increment, c) ← step c
    match increment, chomp c with
    | some _, some (chomp, c) => return (chomp, increment, c)
    | _, _ => return (.clip, increment, c)

/-- The empty lines in front of a line of a block, in at most `fuel` lines. `indent?` is the column
of the block if it is known. The answer has the breaks, the widest indentation and what follows;
none if a tab stands in the indentation. -/
def blockBreaks? (indent? : Option Nat) : (fuel : Nat) → Cursor →
    Option (List Char × Nat × Cursor)
  | 0, c => some ([], c.column, c)
  | fuel + 1, c =>
    let spaces := c.rest.takeWhile (· = ' ')
    let width := match indent? with
      | none => spaces.length
      | some indent => min spaces.length (indent - c.column)
    let c := c.skip width
    if indent?.all (c.column < ·) ∧ c.next (· = '\t') then none
    else
      match c.break? with
      | none => some ([], c.column, c)
      | some (text, after) =>
        (blockBreaks? indent? fuel after).map fun (more, widest, after) =>
          (text ++ more, max c.column widest, after)

/-- The lines of a block scalar, at most `fuel` of them. `held` is the break behind the line
before, `breaks` are those of empty lines, and `deeper` says that the line before starts with a
gap. -/
def blockText? (literal : Bool) (chomp : Chomp) (indent : Nat) : (fuel : Nat) →
    (held breaks : List Char) → (deeper : Bool) → Cursor → Option (List Char × Cursor)
  | 0, _, _, _, _ => none
  | fuel + 1, held, breaks, deeper, c =>
    if c.column = indent ∧ c.atEnd = false then
      let gap := c.next isGap
      let joint :=
        if !literal ∧ held.head? = some '\n' ∧ !deeper ∧ !gap then
          (if breaks.isEmpty then [' '] else [])
        else held
      let (line, c) := c.takeWhile (!isBreak ·)
      let (held, c) := c.break?.getD ([], c)
      (blockBreaks? (some indent) (c.rest.length + 1) c).bind fun (after, _, c) =>
        (blockText? literal chomp indent fuel held after gap c).map fun (more, c) =>
          (joint ++ breaks ++ line ++ more, c)
    else
      match chomp with
      | .strip => some ([], c)
      | .clip => some (held, c)
      | .keep => some (held ++ breaks, c)

/-- A block scalar. `outer` is the column of the collection around it, if there is one. -/
def blockScalar? (literal : Bool) (outer : Option Nat) (c : Cursor) :
    Option (Token × Cursor) := do
  let (chomp, increment, c) ← blockHeader? (c.skip 1)
  let c ← c.endLine?
  let known := increment.map (outer.getD 0 + ·)
  let (breaks, widest, c) ← blockBreaks? known (c.rest.length + 1) c
  let least := match outer with
    | none => 1
    | some column => column + 1
  let indent := known.getD (max widest least)
  let (text, c) ← blockText? literal chomp indent (c.rest.length + 2) [] breaks false c
  return (.scalar text false, c)

end StubManager.Yaml
