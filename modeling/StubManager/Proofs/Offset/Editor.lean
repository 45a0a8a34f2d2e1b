import StubManager.Artifact
import StubManager.Proofs.Offset.Slices
import Mathlib.Data.List.Sort

/-!
# Editing by offsets

The editor on a text and offsets into its bytes, with nothing taken for granted: every slice, every
index and every difference is checked where it is taken. A result `none` is an access that stops the
program; faults of the text are results like others.
-/

namespace StubManager.Offset

open Text

/-! ## Finding the list -/

/-- Whether the bytes of a line, read from a state, end outside of strings and comments. -/
def endsInCode : (quote : Option UInt8) → (escaped : Bool) → List UInt8 → Bool
  | quote, _, [] => quote.isNone
  | quote, true, _ :: bytes => endsInCode quote false bytes
  | some quote, false, b :: bytes =>
    if b = sign '\\' then endsInCode (some quote) true bytes
    else if b = quote then endsInCode none false bytes
    else endsInCode (some quote) false bytes
  | none, false, b :: bytes =>
    if b = sign '"' ∨ b = sign '\'' then endsInCode (some b) false bytes
    else if b = sign '#' then false
    else endsInCode none false bytes

/-- Whether an offset is outside of strings and comments, judged from the start of its line. -/
def inCode? (text : List Char) (offset : Nat) : Option Bool := do
  let start ← lineStart? text offset
  let line ← byteSlice? (bytesOf text) start offset
  return endsInCode none false line

/-- Whether a byte is one of some ASCII characters. -/
def isOneOf (signs : List Char) (b : UInt8) : Bool := signs.any (b = sign ·)

/-- Spaces and tabs. -/
def isBlankByte : UInt8 → Bool := isOneOf [' ', '\t']

/-- White space between elements. -/
def isWhiteByte : UInt8 → Bool := isOneOf [' ', '\t', '\n', '\x0c', '\x0d']

/-- The bracket of the list that is assigned at an offset. -/
def assignedAt? (bytes : List UInt8) (i : Nat) : Option Nat :=
  let i := skipWhile isBlankByte bytes i
  let value? :=
    if bytes[i]? = some (sign '=') ∧ bytes[i + 1]? ≠ some (sign '=') then some (i + 1)
    else if bytes[i]? = some (sign ':') then some (i + 1)
    else none
  value?.bind fun i =>
    let i := skipWhile isWhiteByte bytes i
    if bytes[i]? = some (sign '[') then some i else none

/-- The bracket of the list that the anchor names where it stands at an offset. -/
def listAt? (text anchor : List Char) (offset : Nat) : Option (Option Nat) := do
  let before ← sliceTo? text offset
  let quote? := before.getLast?.bind fun c => (QuoteStyle.ofMark? c).map fun _ => c
  if quote?.isNone ∧ before.getLast?.any isNameChar then return none
  let start ← sub? offset (quote?.elim 0 Char.utf8Size)
  if !(← inCode? text start) then return none
  let behind ← sliceFrom? text (offset + byteLength anchor)
  match quote? with
  | some quote =>
    if behind.head? ≠ some quote then return none
    return assignedAt? (bytesOf text) (offset + byteLength anchor + quote.utf8Size)
  | none =>
    if behind.head?.any isNameChar then return none
    return assignedAt? (bytesOf text) (offset + byteLength anchor)

/-- The offsets of the occurrences of a pattern that do not overlap. -/
def occurrences (pattern : List Char) : (offset skip : Nat) → List Char → List Nat
  | _, _, [] => []
  | offset, skip + 1, c :: text => occurrences pattern (offset + c.utf8Size) skip text
  | offset, 0, c :: text =>
    if pattern.isPrefixOf (c :: text) then
      offset :: occurrences pattern (offset + c.utf8Size) (pattern.length - 1) text
    else occurrences pattern (offset + c.utf8Size) 0 text

/-- The bracket of the first list that the anchor names at one of the offsets. -/
def firstListAt? (text anchor : List Char) : List Nat → Option (Option Nat)
  | [] => some none
  | offset :: more => do
    match ← listAt? text anchor offset with
    | some bracket => return some bracket
    | none => firstListAt? text anchor more

/-- The bracket of the first list that the anchor names. -/
def findAnchor? (text anchor : List Char) : Option (Option Nat) :=
  if anchor.isEmpty then some none else firstListAt? text anchor (occurrences anchor 0 0 text)

/-! ## Reading the list -/

/-- An element between two offsets, and its comma. -/
structure Item where
  start : Nat
  stop : Nat
  value : String
  style? : Option QuoteStyle
  comma : Option Nat

/-- A list between the offsets of its brackets. -/
structure Span where
  bracket : Nat
  close : Nat
  items : List Item

/-- The offset behind the quote that closes a string; the bytes start at offset `i`. -/
def closeFrom? (quote : UInt8) : (i : Nat) → List UInt8 → Option Nat
  | _, [] => none
  | i, b :: bytes =>
    if b = sign '\\' then
      match bytes with
      | [] => none
      | _ :: bytes => closeFrom? quote (i + 2) bytes
    else if b = sign '\n' then none
    else if b = quote then some (i + 1)
    else closeFrom? quote (i + 1) bytes

/-- The offset behind the string at an offset, if it is closed on its line. -/
def skipString? (bytes : List UInt8) (start : Nat) : Option (Option Nat) := do
  let quote ← bytes[start]?
  return closeFrom? quote (start + 1) (bytes.drop (start + 1))

/-- The style whose quote a byte is. -/
def styleOf? (b : UInt8) : Option QuoteStyle :=
  if b = sign '"' then some .double else if b = sign '\'' then some .single else none

/-- Reads the element between two offsets. -/
def item? (text : List Char) (start stop : Nat) (comma : Option Nat) : Option Item := do
  let raw ← slice? text start stop
  let first ← (bytesOf text)[start]?
  let plain : Item := { start, stop, value := String.ofList raw, style? := none, comma }
  match styleOf? first with
  | none => return plain
  | some style =>
    if (← skipString? (bytesOf text) start) ≠ some stop then return plain
    let inside ← slice? raw 1 (← sub? (byteLength raw) 1)
    let value := String.ofList (Literal.unescape inside)
    return { start, stop, value, style? := some style, comma }

/-- An element grows by the bytes between two offsets; the first ones start it. -/
def extended (current : Option (Nat × Nat)) (start stop : Nat) : Option (Nat × Nat) :=
  match current with
  | some (first, _) => some (first, stop)
  | none => some (start, stop)

/-- How far a list is read: `depth` brackets are open before offset `i`, `current` is the element
that was begun, and `items` are those before it. -/
structure Reading where
  i : Nat
  depth : Nat := 0
  current : Option (Nat × Nat) := none
  items : List Item := []

/-- What comes of reading on. -/
inductive Outcome where
  | fault (fault : ListFault)
  | done (span : Span)
  | more (next : Reading)

/-- Reads the next byte, string or comment. -/
def Reading.step? (text : List Char) (bracket : Nat) (r : Reading) : Option Outcome :=
  match (bytesOf text)[r.i]? with
  | none => some (.fault .unclosed)
  | some b =>
    if b = sign '"' ∨ b = sign '\'' then
      (skipString? (bytesOf text) r.i).map fun
        | none => .fault (.unterminated r.i)
        | some stop => .more { r with i := stop, current := extended r.current r.i stop }
    else if b = sign '#' then
      some (.more { r with i := skipWhile (· ≠ sign '\n') (bytesOf text) r.i })
    else if b = sign '[' ∨ b = sign '(' ∨ b = sign '\x7b' then
      some (.more { r with
        i := r.i + 1, depth := r.depth + 1, current := extended r.current r.i (r.i + 1) })
    else if b = sign ']' ∧ r.depth = 0 then
      match r.current with
      | none => some (.done { bracket, close := r.i, items := r.items })
      | some (start, stop) => (item? text start stop none).map fun item =>
        .done { bracket, close := r.i, items := r.items ++ [item] }
    else if (b = sign ')' ∨ b = sign '\x7d') ∧ r.depth = 0 then
      some (.fault (.unbalanced (Char.ofNat b.toNat) r.i))
    else if b = sign ']' ∨ b = sign ')' ∨ b = sign '\x7d' then
      (sub? r.depth 1).map fun depth =>
        .more { r with i := r.i + 1, depth, current := extended r.current r.i (r.i + 1) }
    else if b = sign ',' ∧ r.depth = 0 then
      match r.current with
      | none => some (.fault (.emptyElement r.i))
      | some (start, stop) => (item? text start stop (some r.i)).map fun item =>
        .more { r with i := r.i + 1, current := none, items := r.items ++ [item] }
    else if isWhiteByte b then some (.more { r with i := r.i + 1 })
    else some (.more { r with i := r.i + 1, current := extended r.current r.i (r.i + 1) })

theorem lt_of_closeFrom? {quote : UInt8} {i stop : Nat} {bytes : List UInt8}
    (h : closeFrom? quote i bytes = some stop) : i < stop := by
  fun_induction closeFrom? quote i bytes with
  | case1 | case2 | case4 => cases h
  | case3 _ _ _ ih | case6 _ _ _ _ _ _ ih => exact Nat.lt_trans (by omega) (ih h)
  | case5 =>
    cases h
    exact Nat.lt_succ_self _

theorem lt_of_skipString? {bytes : List UInt8} {start stop : Nat}
    (h : skipString? bytes start = some (some stop)) : start < stop := by
  unfold skipString? at h
  obtain ⟨quote, -, h⟩ := Option.bind_eq_some_iff.1 h
  have := lt_of_closeFrom? (Option.some.inj h)
  omega

theorem lt_skipWhile {p : UInt8 → Bool} {bytes : List UInt8} {i : Nat} {b : UInt8}
    (h : bytes[i]? = some b) (hb : p b) : i < skipWhile p bytes i := by
  obtain ⟨hlt, rfl⟩ := List.getElem?_eq_some_iff.1 h
  rw [skipWhile, List.drop_eq_getElem_cons hlt, List.takeWhile_cons_of_pos hb, List.length_cons]
  omega

/-- Reading goes forward in the text. -/
theorem Reading.lt_of_step? {text : List Char} {bracket : Nat} {r next : Reading}
    (h : r.step? text bracket = some (.more next)) : r.i < next.i ∧ r.i < byteLength text := by
  unfold step? at h
  split at h
  · cases h
  · next b hbyte =>
    have hlt := (List.getElem?_eq_some_iff.1 hbyte).1
    rw [length_bytesOf] at hlt
    refine ⟨?_, hlt⟩
    split at h
    · obtain ⟨stop?, hskip, h⟩ := Option.map_eq_some_iff.1 h
      cases stop? with
      | none => cases h
      | some stop =>
        cases h
        exact lt_of_skipString? hskip
    split at h
    · next hhash =>
      cases h
      refine lt_skipWhile hbyte ?_
      rw [hhash]
      decide
    split at h
    · cases h
      exact Nat.lt_succ_self _
    split at h
    · split at h
      · cases h
      · obtain ⟨_, -, h⟩ := Option.map_eq_some_iff.1 h
        cases h
    split at h
    · cases h
    split at h
    · obtain ⟨_, -, h⟩ := Option.map_eq_some_iff.1 h
      cases h
      exact Nat.lt_succ_self _
    split at h
    · split at h
      · cases h
      · obtain ⟨_, -, h⟩ := Option.map_eq_some_iff.1 h
        cases h
        exact Nat.lt_succ_self _
    split at h
    all_goals
      cases h
      exact Nat.lt_succ_self _

/-- Reads to the end of the list. -/
def Reading.run? (text : List Char) (bracket : Nat) (r : Reading) :
    Option (Except ListFault Span) :=
  match _h : r.step? text bracket with
  | none => none
  | some (.fault fault) => some (.error fault)
  | some (.done span) => some (.ok span)
  | some (.more next) => next.run? text bracket
termination_by byteLength text - r.i
decreasing_by
  have := lt_of_step? _h
  omega

/-- Reads the list behind the bracket at an offset. -/
def scan? (text : List Char) (bracket : Nat) : Option (Except ListFault Span) :=
  Reading.run? text bracket { i := bracket + 1 }

/-! ## Editing -/

/-- Takes the text between pairs of offsets out. The pairs follow one another in the text. -/
def delete? (text : List Char) (cuts : List (Nat × Nat)) : Option (List Char) :=
  go 0 (cuts.insertionSort fun a b => a.1 < b.1 ∨ a.1 = b.1 ∧ a.2 ≤ b.2)
where
  go (cursor : Nat) : List (Nat × Nat) → Option (List Char)
    | [] => sliceFrom? text cursor
    | (start, stop) :: cuts => do
      let kept ← slice? text cursor start
      let _ ← slice? text start stop
      return kept ++ (← go stop cuts)

/-- Puts texts in at offsets. -/
def insert? (text : List Char) (inserts : List (Nat × List Char)) : Option (List Char) :=
  go 0 (inserts.insertionSort fun a b => a.1 ≤ b.1)
where
  go (cursor : Nat) : List (Nat × List Char) → Option (List Char)
    | [] => sliceFrom? text cursor
    | (offset, fragment) :: inserts => do
      let kept ← slice? text cursor offset
      return kept ++ fragment ++ (← go offset inserts)

/-- The indentation of the line of an offset, up to the offset. -/
def lineIndent? (text : List Char) (offset : Nat) : Option (List Char) := do
  let start ← lineStart? text offset
  let line ← slice? text start offset
  sliceTo? line (byteLength (indentation line))

/-- The offset behind the line that goes on at an offset, if it has nothing but blanks there. -/
def lineEnd? (text : List Char) (offset close : Nat) : Option (Option Nat) := do
  match findBreak? (← slice? text offset close) with
  | none => return none
  | some blanks =>
    let newline := offset + blanks
    return if isBlankText (← slice? text offset newline) then some (newline + 1) else none

/-- The offset behind the lines of an element, which goes on to its comma. -/
def lastLineEnd? (text : List Char) (item : Item) (close : Nat) : Option (Option Nat) :=
  match item.comma with
  | none => lineEnd? text item.stop close
  | some comma => do
    if (← slice? text item.stop comma).contains '\n' then return none
    lineEnd? text (comma + 1) close

/-- The lines of an element that has them to itself. -/
def ownLine? (text : List Char) (span : Span) (index : Nat) : Option (Option (Nat × Nat)) := do
  let item ← span.items[index]?
  let start ← lineStart? text item.start
  if start ≤ span.bracket then return none
  if !isBlankText (← slice? text start item.start) then return none
  return (← lastLineEnd? text item span.close).map fun stop => (start, stop)

/-- What goes with an element that shares its line with the next one, or with the previous one. -/
def joint? (text : List Char) (item : Item) :
    (previous? next? : Option Item) → Option (Option (Nat × Nat))
  | _, some next => do
    let gap ← slice? text item.stop next.start
    return if gap.contains '\n' then none else some (item.start, next.start)
  | some previous, none => do
    let gap ← slice? text previous.stop item.start
    return if gap.contains '\n' then none else some (previous.stop, item.stop)
  | none, none => some none

/-- The element before one of the list, if there is one. -/
def previous? (span : Span) : (index : Nat) → Option (Option Item)
  | 0 => some none
  | index + 1 => span.items[index]?.map some

/-- The comma that is left over where an element without one goes. -/
def dangling? (item : Item) (previous? : Option Item) : Option (Nat × Nat) :=
  match item.comma with
  | none => previous?.bind fun previous => previous.comma.map fun comma => (comma, comma + 1)
  | some _ => none

/-- The offsets between which the text goes for an element to go. -/
def removalCuts? (text : List Char) (span : Span) (index : Nat) : Option (List (Nat × Nat)) := do
  let item ← span.items[index]?
  let previous? ← previous? span index
  let dangling := (dangling? item previous?).toList
  match ← ownLine? text span index with
  | some line => return line :: dangling
  | none =>
    match ← joint? text item previous? span.items[index + 1]? with
    | some joint => return [joint]
    | none => return (item.start, item.comma.elim item.stop (· + 1)) :: dangling

/-- The indentation for an element on a line of its own behind the last one. -/
def newIndent? (text : List Char) (last : Item) : Option (List Char) := do
  let line ← slice? text (← lineStart? text last.start) last.start
  if isBlankText line then return line
  return (← lineIndent? text last.start) ++ indentStep

/-- What separates an element from the last one on its line. -/
def newSeparator? (text : List Char) (span : Span) (last : Item) : Option (List Char) := do
  let comma? ← if span.items.length < 2 then some none
    else span.items[span.items.length - 2]?.map Item.comma
  match comma? with
  | none => return [' ']
  | some comma =>
    let gap ← slice? text (comma + 1) last.start
    return if gap.contains '\n' then [' '] else gap

/-- What is put in, and where, for a node to come behind the last element. -/
def insertion? (text : List Char) (span : Span) (node : ChangeNode) :
    Option (List (Nat × List Char)) := do
  let fragment := (node.render ((span.items.findSome? Item.style?).getD .double)).toList
  match span.items.getLast? with
  | none =>
    let inner ← slice? text (span.bracket + 1) span.close
    if inner.contains '\n' then
      let indent := (← lineIndent? text span.close) ++ indentStep
      return [(span.bracket + 1, '\n' :: indent ++ fragment ++ [','])]
    else return [(span.bracket + 1, fragment)]
  | some last =>
    let after := last.comma.elim last.stop (· + 1)
    match findBreak? (← slice? text after span.close) with
    | some offset =>
      let indent ← newIndent? text last
      match last.comma with
      | some _ => return [(after + offset, '\n' :: indent ++ fragment ++ [','])]
      | none => return [(last.stop, [',']), (after + offset, '\n' :: indent ++ fragment)]
    | none =>
      let separator ← newSeparator? text span last
      return [(last.stop, ',' :: separator ++ fragment)]

/-- The text without the first element of a value. -/
def without? (text : List Char) (span : Span) (value : String) : Option (List Char) :=
  match span.items.findIdx? (·.value == value) with
  | none => some text
  | some index => (removalCuts? text span index).bind (delete? text)

/-- The text with an element for a node, unless there is one of its value. -/
def with? (text : List Char) (span : Span) (node : ChangeNode) : Option (List Char) :=
  if (span.items.findIdx? (·.value == node.value)).isSome then some text
  else (insertion? text span node).bind (insert? text)

/-- A result, or a fault of the text or the change, or an access that stops the program. -/
abbrev Checked := ExceptT Failure Option

/-- Reads the list of an artifact whose text is being changed. -/
def locate (artifact : Artifact) (text : List Char) : Checked Span := do
  match ← (findAnchor? text artifact.anchor.toList : Option (Option Nat)) with
  | none => throw (.anchorMissing artifact.anchor artifact.origin)
  | some bracket =>
    match ← (scan? text bracket : Option (Except ListFault Span)) with
    | .error fault => throw (.listMalformed artifact.origin fault.reason)
    | .ok span => return span

/-- The values in the list of an artifact, in order. -/
def entries (artifact : Artifact) : Checked (List String) := do
  let span ← locate artifact artifact.text.toList
  return span.items.map Item.value

/-- Takes the first element of a value out of the text. -/
def removeNode (artifact : Artifact) (text : List Char) (node : ChangeNode) :
    Checked (List Char) := do
  let span ← locate artifact text
  (without? text span node.value : Option (List Char))

/-- Puts an element for a node into the text unless there is one of its value. -/
def addNode (artifact : Artifact) (text : List Char) (node : ChangeNode) :
    Checked (List Char) := do
  let span ← locate artifact text
  (with? text span node : Option (List Char))

/-- Applies a change set to the text of an artifact. -/
def apply (artifact : Artifact) (change : ChangeSet) : Checked Artifact := do
  MonadExcept.ofExcept change.validate
  let _ ← locate artifact artifact.text.toList
  if change.isEmpty then return artifact
  let removed ← change.remove.foldlM (removeNode artifact) artifact.text.toList
  let text ← change.add.foldlM (addNode artifact) removed
  return { artifact with text := String.ofList text }

end StubManager.Offset
