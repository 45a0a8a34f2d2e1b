/-!
# JSON documents

`Json.Value.parse?` reads a JSON document. A string or a key keeps the text between its quotes until
`Json.decode?` is asked for the characters it stands for, since one that nobody asks for may hold
half a surrogate pair.
-/

namespace StubManager.Json

/-- A JSON value. -/
inductive Value where
  | null
  | bool (b : Bool)
  /-- A number as it is written. -/
  | number (text : List Char)
  /-- The text between the quotes of a string. -/
  | string (inside : List Char)
  | array (items : List Value)
  /-- The members of an object; a key is the text between its quotes. -/
  | object (members : List (List Char × Value))

/-- White space between the parts of a document. -/
def isSpace (c : Char) : Bool := c = ' ' || c = '\n' || c = '\t' || c = '\x0d'

/-- The text without the white space that it starts with. -/
def skip (text : List Char) : List Char := text.dropWhile isSpace

/-! ## Strings -/

/-- The value of a hexadecimal digit. -/
def hexValue? (c : Char) : Option Nat :=
  if c.isDigit then some (c.toNat - 48)
  else if 'a' ≤ c ∧ c ≤ 'f' then some (c.toNat - 87)
  else if 'A' ≤ c ∧ c ≤ 'F' then some (c.toNat - 55)
  else none

/-- The value of four hexadecimal digits. -/
def hexFour? (a b c d : Char) : Option Nat := do
  return ((← hexValue? a) * 16 + (← hexValue? b)) * 256 + (← hexValue? c) * 16 + (← hexValue? d)

/-- The character that a backslash and a letter stand for. -/
def escaped? (c : Char) : Option Char :=
  match c with
  | '"' => some '"'
  | '\\' => some '\\'
  | '/' => some '/'
  | 'b' => some '\x08'
  | 'f' => some '\x0c'
  | 'n' => some '\n'
  | 'r' => some '\x0d'
  | 't' => some '\t'
  | _ => none

/-- Splits the text behind an opening quote at the closing quote. -/
def inside? : List Char → Option (List Char × List Char)
  | [] => none
  | '"' :: rest => some ([], rest)
  | '\\' :: 'u' :: a :: b :: c :: d :: rest =>
    if (hexFour? a b c d).isSome then
      (inside? rest).map fun (inside, after) => ('\\' :: 'u' :: a :: b :: c :: d :: inside, after)
    else none
  | '\\' :: c :: rest =>
    if (escaped? c).isSome then
      (inside? rest).map fun (inside, after) => ('\\' :: c :: inside, after)
    else none
  | c :: rest =>
    if c = '\\' ∨ c.toNat < 0x20 then none
    else (inside? rest).map fun (inside, after) => (c :: inside, after)

/-- The characters a string stands for; none if it holds half a surrogate pair. -/
def decode? : List Char → Option (List Char)
  | [] => some []
  | '\\' :: 'u' :: a :: b :: c :: d :: rest => do
    let unit ← hexFour? a b c d
    if 0xDC00 ≤ unit ∧ unit ≤ 0xDFFF then none
    else if 0xD800 ≤ unit ∧ unit ≤ 0xDBFF then
      match rest with
      | '\\' :: 'u' :: a :: b :: c :: d :: rest =>
        let second ← hexFour? a b c d
        if 0xDC00 ≤ second ∧ second ≤ 0xDFFF then
          let point := 0x10000 + (unit - 0xD800) * 0x400 + (second - 0xDC00)
          return Char.ofNat point :: (← decode? rest)
        else none
      | _ => none
    else return Char.ofNat unit :: (← decode? rest)
  | '\\' :: c :: rest => do return (← escaped? c) :: (← decode? rest)
  | c :: rest => do return c :: (← decode? rest)

/-! ## Numbers -/

/-- One or more digits at the front of a text. -/
def digits? (text : List Char) : Option (List Char × List Char) :=
  let digits := text.takeWhile Char.isDigit
  if digits.isEmpty then none else some (digits, text.dropWhile Char.isDigit)

/-- The whole part of a number: no zero in front of other digits. -/
def whole? (text : List Char) : Option (List Char × List Char) := do
  let (digits, rest) ← digits? text
  match digits with
  | '0' :: _ :: _ => none
  | _ => some (digits, rest)

/-- The fraction of a number, if there is one. -/
def fraction? : List Char → Option (List Char × List Char)
  | '.' :: text => do
    let (digits, rest) ← digits? text
    return ('.' :: digits, rest)
  | text => some ([], text)

/-- The exponent of a number, if there is one. -/
def exponent? (text : List Char) : Option (List Char × List Char) :=
  match text with
  | e :: sign :: rest =>
    if e = 'e' ∨ e = 'E' then
      if sign = '+' ∨ sign = '-' then
        (digits? rest).map fun (digits, rest) => (e :: sign :: digits, rest)
      else (digits? (sign :: rest)).map fun (digits, rest) => (e :: digits, rest)
    else some ([], text)
  | [e] => if e = 'e' ∨ e = 'E' then none else some ([], text)
  | [] => some ([], [])

/-- The number at the front of a text. -/
def number? (text : List Char) : Option (List Char × List Char) := do
  let (sign, rest) := match text with
    | '-' :: rest => (['-'], rest)
    | rest => ([], rest)
  let (whole, rest) ← whole? rest
  let (fraction, rest) ← fraction? rest
  let (exponent, rest) ← exponent? rest
  return (sign ++ whole ++ fraction ++ exponent, rest)

/-! ## Values -/

mutual

/-- The value at the front of a text; `depth` bounds the recursion. -/
def value? : (depth : Nat) → List Char → Option (Value × List Char)
  | 0, _ => none
  | depth + 1, text =>
    match skip text with
    | '"' :: rest => (inside? rest).map fun (inside, rest) => (.string inside, rest)
    | '[' :: rest =>
      match skip rest with
      | ']' :: rest => some (.array [], rest)
      | rest => (items? depth rest).map fun (items, rest) => (.array items, rest)
    | '\x7b' :: rest =>
      match skip rest with
      | '\x7d' :: rest => some (.object [], rest)
      | rest => (members? depth rest).map fun (members, rest) => (.object members, rest)
    | 'n' :: 'u' :: 'l' :: 'l' :: rest => some (.null, rest)
    | 't' :: 'r' :: 'u' :: 'e' :: rest => some (.bool true, rest)
    | 'f' :: 'a' :: 'l' :: 's' :: 'e' :: rest => some (.bool false, rest)
    | text => (number? text).map fun (number, rest) => (.number number, rest)

/-- One or more items and the bracket that closes their array. -/
def items? : (depth : Nat) → List Char → Option (List Value × List Char)
  | 0, _ => none
  | depth + 1, text => do
    let (item, rest) ← value? depth text
    match skip rest with
    | ']' :: rest => return ([item], rest)
    | ',' :: rest => do
      let (items, rest) ← items? depth rest
      return (item :: items, rest)
    | _ => none

/-- One or more members and the brace that closes their object. -/
def members? : (depth : Nat) → List Char → Option (List (List Char × Value) × List Char)
  | 0, _ => none
  | depth + 1, text =>
    match skip text with
    | '"' :: rest => do
      let (key, rest) ← inside? rest
      match skip rest with
      | ':' :: rest => do
        let (value, rest) ← value? depth rest
        match skip rest with
        | '\x7d' :: rest => return ([(key, value)], rest)
        | ',' :: rest => do
          let (members, rest) ← members? depth rest
          return ((key, value) :: members, rest)
        | _ => none
      | _ => none
    | _ => none

end

/-- Reads a document: one value and nothing else. -/
def Value.parse? (text : List Char) : Option Value :=
  match value? (2 * text.length + 1) text with
  | some (value, rest) => if (skip rest).isEmpty then some value else none
  | none => none

/-- The characters of a string. -/
def Value.string? : Value → Option String
  | .string inside => (decode? inside).map String.ofList
  | _ => none

/-- The members of an object with the characters of their keys. -/
def decodeKeys? (members : List (List Char × Value)) : Option (List (String × Value)) :=
  members.mapM fun (key, value) => (decode? key).map (String.ofList ·, value)

/-- The characters of a string that may be left out by `null`. -/
def Value.optional? : Value → Option (Option String)
  | .null => some none
  | value => value.string?.map some

end StubManager.Json
