import StubManager.Yaml.Cursor

/-!
# Writing YAML scalars

`Scalar.entry` writes a key and a text below it so that reading gives the same text back. The style
is the plainest that can hold the text: `Scalar.style`. Texts that would be read as something else
than text are quoted.
-/

namespace StubManager.Yaml.Scalar

/-- The ways to write a scalar. -/
inductive Style where
  | plain
  | single
  | double
  | literal
deriving DecidableEq, Repr

/-! ## Texts that look like other values -/

/-- A text without a sign in front. -/
def unsigned : List Char → List Char
  | '+' :: text | '-' :: text => text
  | text => text

/-- Zeros in front of other digits: not a number, but too close to one. -/
def isPaddedNumber (text : List Char) : Bool :=
  match unsigned text with
  | '0' :: c :: rest => (c :: rest).all Char.isDigit
  | _ => false

private def digitValue (c : Char) : Nat :=
  if c.isDigit then c.toNat - 48 else c.toLower.toNat - 87

private def isDigitOf (base : Nat) (c : Char) : Bool :=
  c.isAlphanum && digitValue c < base

/-- The value of digits in a base. -/
def ofDigits (base : Nat) (digits : List Char) : Nat :=
  digits.foldl (fun n c => n * base + digitValue c) 0

/-- Whether the text is an integer in base 16, 8 or 2 that fits into 128 bits. -/
def isRadixInteger (text : List Char) : Bool :=
  let limit := if text.head? = some '-' then Nat.pow 2 127 + 1 else Nat.pow 2 128
  let digits (base : Nat) (text : List Char) : Bool :=
    !text.isEmpty && text.all (isDigitOf base) && ofDigits base text < limit
  match unsigned text with
  | '0' :: 'x' :: rest => digits 16 rest
  | '0' :: 'o' :: rest => digits 8 rest
  | '0' :: 'b' :: rest => digits 2 rest
  | _ => false

/-- The least number that is too large for a double. -/
def doubleLimit : Nat := Nat.pow 2 1024 - Nat.pow 2 970

/-- Whether digits times a power of ten are below the limit. -/
def isFinite (digits : List Char) (exponent : Int) : Bool :=
  let significant := digits.dropWhile (· = '0')
  let magnitude := significant.length + exponent
  let value := ofDigits 10 significant
  if significant.isEmpty || magnitude < 300 then true
  else if 310 < magnitude then false
  else if 0 ≤ exponent then value * Nat.pow 10 exponent.toNat < doubleLimit
  else value < doubleLimit * Nat.pow 10 exponent.natAbs

/-- The exponent behind the digits of a decimal number; zero if nothing is there. -/
def exponent? : List Char → Option Int
  | [] => some 0
  | e :: rest =>
    let digits := unsigned rest
    if (e = 'e' ∨ e = 'E') ∧ !digits.isEmpty ∧ digits.all Char.isDigit then
      let n : Int := ofDigits 10 digits
      some (if rest.head? = some '-' then -n else n)
    else none

/-- Whether the text is a decimal number that fits into a double. -/
def isDecimal (text : List Char) : Bool :=
  let text := unsigned text
  let whole := text.takeWhile Char.isDigit
  let (fraction, rest) := match text.dropWhile Char.isDigit with
    | '.' :: rest => (rest.takeWhile Char.isDigit, rest.dropWhile Char.isDigit)
    | rest => ([], rest)
  !(whole ++ fraction).isEmpty
    && (exponent? rest).any fun exponent =>
      isFinite (whole ++ fraction) (exponent - fraction.length)

/-- Words for nothing, for truth values and for special numbers. -/
def words : List String :=
  ["", "null", "Null", "NULL", "~", "true", "True", "TRUE", "false", "False", "FALSE",
   ".inf", ".Inf", ".INF", "+.inf", "+.Inf", "+.INF", "-.inf", "-.Inf", "-.INF",
   ".nan", ".NaN", ".NAN"]

/-- Whether a text without quotes would be read as something else than text. -/
def looksOther (text : List Char) : Bool :=
  words.contains (String.ofList text) || isPaddedNumber text || isRadixInteger text
    || isDecimal text

/-! ## The choice of a style -/

/-- Characters that can stand for themselves. -/
def isPrintable (c : Char) : Bool :=
  c = '\n' || (' ' ≤ c && c ≤ '~') || ('\u00a0' ≤ c && c ≠ '\ufeff' && c.toNat ≤ 0xFFFD)
    || 0x10000 ≤ c.toNat

/-- Whether a character of the first kind is followed by one of the second. -/
def hasPair (p q : Char → Bool) : List Char → Bool
  | a :: b :: rest => (p a && q b) || hasPair p q (b :: rest)
  | _ => false

/-- Whether the text starts like something else than a plain scalar. -/
def startsWithSign (text : List Char) : Bool :=
  match text with
  | [] => false
  | c :: rest =>
    "#,[]\x7b\x7d&*!|>'\"%@`".toList.contains c
      || ((c = '?' || c = '-') && rest.head?.all isSpacing)
      || text.take 3 == ['-', '-', '-'] || text.take 3 == ['.', '.', '.']

/-- Whether the text has a colon before spacing or a number sign behind it. `spaced` says that
spacing precedes. -/
def hasInnerSign (spaced : Bool) : List Char → Bool
  | [] => false
  | c :: rest =>
    (c = ':' && rest.head?.all isSpacing) || (c = '#' && spaced) || hasInnerSign (isSpacing c) rest

/-- Whether no style but double quotes can hold the text. -/
def needsEscapes (text : List Char) : Bool :=
  text.any (!isPrintable ·) || hasPair (· = ' ') isBreak text

/-- Whether the text can be written as it is. -/
def isPlain (text : List Char) : Bool :=
  !needsEscapes text && !text.any isBreak && text.head? ≠ some ' ' && text.getLast? ≠ some ' '
    && !startsWithSign text && !hasInnerSign true text

/-- The style for a text. -/
def style (text : List Char) : Style :=
  if text.contains '\n' then
    if needsEscapes text || text.getLast? = some ' ' then .double else .literal
  else if !looksOther text && isPlain text then .plain
  else if needsEscapes text || hasPair isBreak (· = ' ') text then .double
  else .single

/-! ## Writing -/

/-- The indentation of lines of a scalar below a record. -/
def indent : List Char := [' ', ' ', ' ', ' ']

/-- A text with every line after the first indented and single quotes doubled. `broken` says that a
break precedes. -/
def singleBody (broken : Bool) : List Char → List Char
  | [] => if broken then indent else []
  | c :: rest =>
    if isBreak c then c :: singleBody true rest
    else if c = ' ' then c :: singleBody broken rest
    else (if broken then indent else []) ++ (if c = '\'' then [c, c] else [c])
      ++ singleBody false rest

private def upperHex (width n : Nat) : List Char :=
  let digits := (Nat.toDigits 16 n).map Char.toUpper
  List.replicate (width - digits.length) '0' ++ digits

/-- The letter that stands for a character behind a backslash. -/
def escapeLetter? (c : Char) : Option Char :=
  match c with
  | '\x00' => some '0'
  | '\x07' => some 'a'
  | '\x08' => some 'b'
  | '\t' => some 't'
  | '\n' => some 'n'
  | '\x0b' => some 'v'
  | '\x0c' => some 'f'
  | '\x0d' => some 'r'
  | '\x1b' => some 'e'
  | '"' => some '"'
  | '\\' => some '\\'
  | '\u0085' => some 'N'
  | '\u2028' => some 'L'
  | '\u2029' => some 'P'
  | _ => none

/-- A character between double quotes. -/
def escaped (c : Char) : List Char :=
  match escapeLetter? c with
  | some letter => ['\\', letter]
  | none =>
    if isPrintable c then [c]
    else if c.toNat ≤ 0xFF then '\\' :: 'x' :: upperHex 2 c.toNat
    else if c.toNat ≤ 0xFFFF then '\\' :: 'u' :: upperHex 4 c.toNat
    else '\\' :: 'U' :: upperHex 8 c.toNat

/-- A text with every line indented. `broken` says that a break precedes. -/
def literalBody (broken : Bool) : List Char → List Char
  | [] => []
  | c :: rest =>
    if isBreak c then c :: literalBody true rest
    else (if broken then indent else []) ++ c :: literalBody false rest

/-- The signs behind the mark of a literal block: how deep it is if its first line does not show it,
and what its last line breaks mean. -/
def literalHeader (text : List Char) : List Char :=
  let depth := if text.head?.any fun c => c = ' ' || isBreak c then ['2'] else []
  let chomp := match text.reverse with
    | [] => ['-']
    | last :: before =>
      if !isBreak last then ['-']
      else if before.head?.all isBreak then ['+']
      else []
  depth ++ chomp

/-- A text in a style; a literal block without the break at its end. -/
def write (text : List Char) : List Char :=
  match style text with
  | .plain => text
  | .single => '\'' :: singleBody false text ++ ['\'']
  | .double => '"' :: text.flatMap escaped ++ ['"']
  | .literal => '|' :: literalHeader text ++ '\n' :: literalBody true text

/-- A key with its text, up to the start of the next line. -/
def entry (key : String) (text : String) : List Char :=
  let written := write text.toList
  let ended := style text.toList = .literal ∧ written.getLast?.any isBreak
  key.toList ++ [':', ' '] ++ written ++ (if ended then [] else ['\n'])

end StubManager.Yaml.Scalar
