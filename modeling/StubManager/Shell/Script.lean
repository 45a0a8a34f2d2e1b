/-!
# Shell scripts

The part of the shell language that small tool scripts are written in: words with quotes and
parameters, redirections, lists of commands and `case`. `Script.parse?` reads a script.
-/

namespace StubManager.Shell

/-- A part of a word. -/
inductive Piece where
  /-- Characters that stand for themselves. Between quotes a star is one of them. -/
  | text (quoted : Bool) (text : List Char)
  /-- An argument of the script; the first is number 1. -/
  | argument (number : Nat)
  /-- All arguments with spaces between. -/
  | arguments
  /-- The number of the running process. -/
  | process
deriving DecidableEq, Repr, Inhabited

/-- A word of a command. -/
abbrev Word := List Piece

/-- Where a stream goes. -/
inductive Target where
  | stream (number : Nat)
  | file (name : Word) (append : Bool)
deriving DecidableEq, Repr, Inhabited

/-- A stream and where it goes. -/
structure Redirection where
  stream : Nat
  target : Target
deriving DecidableEq, Repr, Inhabited

/-- A command of a script. -/
inductive Command where
  | simple (words : List Word) (redirections : List Redirection)
  /-- The commands behind the first pattern that the subject fits. -/
  | choose (subject : Word) (branches : List (List Word × List Command))
deriving Repr, Inhabited

/-! ## Tokens -/

/-- A word or a sign. -/
inductive Token where
  | word (word : Word)
  | sign (text : String)
  /-- A sign that sends a stream somewhere; `append` keeps what is there. -/
  | redirect (stream : Nat) (append : Bool)
  /-- A sign that sends a stream where another one goes. -/
  | duplicate (stream target : Nat)
deriving DecidableEq, Repr, Inhabited

private def isSignChar (c : Char) : Bool := " \t\n;|()<>&".toList.contains c

/-- The parameter behind a dollar sign, and what follows it. -/
def parameter? : List Char → Option (Piece × List Char)
  | '$' :: rest => some (.process, rest)
  | '*' :: rest | '@' :: rest => some (.arguments, rest)
  | c :: rest =>
    if c.isDigit ∧ c ≠ '0' then some (.argument (c.toNat - 48), rest) else none
  | [] => none

/-- The pieces between double quotes, at most `fuel` of them, and what follows the closing one. -/
def quoted? : (fuel : Nat) → List Char → Option (Word × List Char)
  | 0, _ => none
  | fuel + 1, text =>
    match text with
    | [] => none
    | '"' :: rest => some ([], rest)
    | '\\' :: c :: rest =>
      let front := if "$\"\\`".toList.contains c then [c] else ['\\', c]
      (quoted? fuel rest).map fun (word, rest) => (.text true front :: word, rest)
    | '$' :: rest =>
      match parameter? rest with
      | some (piece, rest) => (quoted? fuel rest).map fun (word, rest) => (piece :: word, rest)
      | none => (quoted? fuel rest).map fun (word, rest) => (.text true ['$'] :: word, rest)
    | c :: rest => (quoted? fuel rest).map fun (word, rest) => (.text true [c] :: word, rest)

/-- The pieces of a word, at most `fuel` of them, and what follows. -/
def word? : (fuel : Nat) → List Char → Option (Word × List Char)
  | 0, _ => none
  | fuel + 1, text =>
    match text with
    | [] => some ([], [])
    | '\'' :: rest =>
      match rest.dropWhile (· ≠ '\'') with
      | [] => none
      | _ :: after =>
        (word? fuel after).map fun (word, after) =>
          (.text true (rest.takeWhile (· ≠ '\'')) :: word, after)
    | '"' :: rest => do
      let (inside, rest) ← quoted? (rest.length + 1) rest
      let (word, rest) ← word? fuel rest
      return (.text true [] :: inside ++ word, rest)
    | '\\' :: c :: rest => (word? fuel rest).map fun (word, rest) => (.text true [c] :: word, rest)
    | '$' :: rest =>
      match parameter? rest with
      | some (piece, rest) => (word? fuel rest).map fun (word, rest) => (piece :: word, rest)
      | none => (word? fuel rest).map fun (word, rest) => (.text false ['$'] :: word, rest)
    | c :: rest =>
      if isSignChar c then some ([], text)
      else (word? fuel rest).map fun (word, rest) => (.text false [c] :: word, rest)

/-- A sign that sends a stream somewhere, behind the number of the stream. -/
def redirect? (stream : Nat) : List Char → Option (Token × List Char)
  | '>' :: '>' :: rest => some (.redirect stream true, rest)
  | '>' :: '&' :: d :: rest =>
    if d.isDigit then some (.duplicate stream (d.toNat - 48), rest) else none
  | '>' :: rest => some (.redirect stream false, rest)
  | _ => none

/-- The tokens of a text, at most `fuel` of them. -/
def tokens? : (fuel : Nat) → List Char → Option (List Token)
  | 0, _ => none
  | fuel + 1, text =>
    match text with
    | [] => some []
    | ';' :: ';' :: rest => (tokens? fuel rest).map (.sign ";;" :: ·)
    | c :: rest =>
      if c = ' ' ∨ c = '\t' then tokens? fuel rest
      else if c = '#' then tokens? fuel (rest.dropWhile (· ≠ '\n'))
      else if c = ';' ∨ c = '\n' then (tokens? fuel rest).map (.sign ";" :: ·)
      else if c = '|' ∨ c = '(' ∨ c = ')' then
        (tokens? fuel rest).map (.sign (String.singleton c) :: ·)
      else
        let stream := if c.isDigit then c.toNat - 48 else 1
        match redirect? stream (if c.isDigit then rest else text) with
        | some (token, rest) => (tokens? fuel rest).map (token :: ·)
        | none =>
          if isSignChar c then none
          else do
            let (word, rest) ← word? (text.length + 1) text
            return .word word :: (← tokens? fuel rest)

/-! ## Commands -/

/-- The characters of a piece without quotes. -/
def Piece.bare? : Piece → Option (List Char)
  | text false characters => some characters
  | _ => none

/-- Whether the token is the given word without quotes. -/
def Token.isWord (text : String) : Token → Bool
  | word pieces => (pieces.mapM Piece.bare?).map List.flatten == some text.toList
  | _ => false

/-- The words and redirections of a simple command, and what follows. -/
def simple? : List Token → Option (List Word × List Redirection × List Token)
  | .word word :: rest =>
    (simple? rest).map fun (words, redirections, rest) => (word :: words, redirections, rest)
  | .redirect stream append :: .word name :: rest =>
    (simple? rest).map fun (words, redirections, rest) =>
      (words, { stream, target := .file name append } :: redirections, rest)
  | .redirect .. :: _ => none
  | .duplicate stream target :: rest =>
    (simple? rest).map fun (words, redirections, rest) =>
      (words, { stream, target := .stream target } :: redirections, rest)
  | rest => some ([], [], rest)

/-- The patterns in front of a closing parenthesis, and what follows. -/
def patterns? : List Token → Option (List Word × List Token)
  | .word word :: .sign ")" :: rest => some ([word], rest)
  | .word word :: .sign "|" :: rest =>
    (patterns? rest).map fun (words, rest) => (word :: words, rest)
  | _ => none

/-- Passes over the ends of lines. -/
def skipEnds (tokens : List Token) : List Token := tokens.dropWhile (· = .sign ";")

mutual

/-- Commands up to the end of the script or of a branch, at most `fuel` deep. -/
def commands? : (fuel : Nat) → List Token → Option (List Command × List Token)
  | 0, _ => none
  | fuel + 1, tokens =>
    match skipEnds tokens with
    | [] => some ([], [])
    | .sign ";;" :: rest => some ([], .sign ";;" :: rest)
    | token :: rest =>
      if token.isWord "esac" then some ([], token :: rest)
      else do
        let (command, rest) ← command? fuel (token :: rest)
        let (more, rest) ← commands? fuel rest
        return (command :: more, rest)

/-- One command. -/
def command? : (fuel : Nat) → List Token → Option (Command × List Token)
  | 0, _ => none
  | fuel + 1, tokens =>
    match tokens with
    | first :: .word subject :: second :: rest =>
      if first.isWord "case" ∧ second.isWord "in" then do
        let (branches, rest) ← branches? fuel rest
        return (.choose subject branches, rest)
      else simpleCommand? tokens
    | _ => simpleCommand? tokens

/-- The branches of a choice up to its end. -/
def branches? : (fuel : Nat) → List Token →
    Option (List (List Word × List Command) × List Token)
  | 0, _ => none
  | fuel + 1, tokens =>
    match skipEnds tokens with
    | [] => none
    | token :: rest =>
      if token.isWord "esac" then some ([], rest)
      else do
        let tokens := if token = .sign "(" then rest else token :: rest
        let (patterns, rest) ← patterns? tokens
        let (commands, rest) ← commands? fuel rest
        let rest := if rest.head? = some (.sign ";;") then rest.drop 1 else rest
        let (more, rest) ← branches? fuel rest
        return ((patterns, commands) :: more, rest)

/-- A command of words and redirections, at least one of them. -/
def simpleCommand? (tokens : List Token) : Option (Command × List Token) := do
  let (words, redirections, rest) ← simple? tokens
  guard (rest.length < tokens.length)
  guard (rest.head?.all fun token => token = .sign ";" || token = .sign ";;")
  return (.simple words redirections, rest)

end

/-- Reads a script. -/
def Script.parse? (text : List Char) : Option (List Command) := do
  let tokens ← tokens? (text.length + 1) text
  let (commands, rest) ← commands? (2 * tokens.length + 2) tokens
  guard rest.isEmpty
  return commands

end StubManager.Shell
