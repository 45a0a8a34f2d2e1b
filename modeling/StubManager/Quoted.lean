/-!
# String literals

A value is written between two quotes, with a backslash before every quote of that kind and before
every backslash. `QuoteStyle.encode` writes a literal, `Literal.scan?` finds where one ends, and
`Literal.unescape` reads the text between its quotes. Main statements: `unescape_escape` and
`scan?_encode`, reading gives back what was written.
-/

namespace StubManager

/-- The two kinds of quote around a string literal. -/
inductive QuoteStyle where
  | double
  | single
deriving DecidableEq, Repr, Inhabited

namespace QuoteStyle

/-- The quote character of a style. -/
def mark : QuoteStyle → Char
  | double => '"'
  | single => '\''

/-- The style whose quote character this is. -/
def ofMark? (c : Char) : Option QuoteStyle :=
  if c = '"' then some double else if c = '\'' then some single else none

theorem ofMark?_mark (style : QuoteStyle) : ofMark? style.mark = some style := by
  cases style <;> rfl

theorem mark_of_ofMark? {c : Char} {style : QuoteStyle} (h : ofMark? c = some style) :
    style.mark = c := by
  grind [ofMark?, mark]

/-- A value with the quote and the backslash escaped. -/
def escape (style : QuoteStyle) : List Char → List Char
  | [] => []
  | c :: rest =>
    if c = '\\' ∨ c = style.mark then '\\' :: c :: escape style rest else c :: escape style rest

theorem mem_escape {style : QuoteStyle} {value : List Char} {c : Char}
    (h : c ∈ style.escape value) : c ∈ value ∨ c = '\\' := by
  induction value with
  | nil => cases h
  | cons first rest ih =>
    unfold escape at h
    split at h <;> grind

/-- The string literal of a value. -/
def encode (style : QuoteStyle) (value : List Char) : List Char :=
  style.mark :: (style.escape value ++ [style.mark])

end QuoteStyle

namespace Literal

/-- The value between the quotes of a literal: a backslash stands for the character after it. -/
def unescape : List Char → List Char
  | [] => []
  | ['\\'] => []
  | '\\' :: c :: rest => c :: unescape rest
  | c :: rest => c :: unescape rest

/-- Splits the text after an opening quote behind the closing one. A line feed that is not escaped
and the end of the text leave the literal unterminated. -/
def scan? (mark : Char) : List Char → Option (List Char × List Char)
  | [] => none
  | '\\' :: rest =>
    match rest with
    | [] => none
    | c :: rest => (scan? mark rest).map fun (inside, after) => ('\\' :: c :: inside, after)
  | c :: rest =>
    if c = '\n' then none
    else if c = mark then some ([], rest)
    else (scan? mark rest).map fun (inside, after) => (c :: inside, after)

end Literal

theorem Literal.unescape_escape (style : QuoteStyle) (value : List Char) :
    Literal.unescape (style.escape value) = value := by
  induction value with
  | nil => rfl
  | cons c rest ih =>
    unfold QuoteStyle.escape
    split
    · simp [Literal.unescape, ih]
    · next h =>
      rw [Literal.unescape, ih]
      · intro h'; simp_all
      · intro _ _ h' ; simp_all

theorem Literal.scan?_encode (style : QuoteStyle) (value after : List Char) (h : '\n' ∉ value) :
    Literal.scan? style.mark (style.escape value ++ style.mark :: after)
      = some (style.escape value, after) := by
  induction value with
  | nil => cases style <;> simp [QuoteStyle.escape, QuoteStyle.mark, Literal.scan?]
  | cons c rest ih =>
    have hrest : '\n' ∉ rest := fun m => h (List.mem_cons_of_mem _ m)
    have hc : c ≠ '\n' := fun e => h (by simp [e])
    unfold QuoteStyle.escape
    split
    · simp [Literal.scan?, ih hrest]
    · next hesc =>
      rw [List.cons_append, Literal.scan?]
      · simp_all
      · intro h'; simp_all

/-- A literal that ends is its inside, the closing quote and what comes after. -/
theorem Literal.eq_of_scan? {mark : Char} {text inside after : List Char}
    (h : Literal.scan? mark text = some (inside, after)) : text = inside ++ mark :: after := by
  fun_induction Literal.scan? mark text generalizing inside after with
  | case1 | case2 | case4 => simp at h
  | case3 c rest ih =>
    obtain ⟨⟨inside', after'⟩, hrest, heq⟩ := Option.map_eq_some_iff.1 h
    simp only [Prod.mk.injEq] at heq
    obtain ⟨rfl, rfl⟩ := heq
    simp [ih hrest]
  | case5 rest => simp_all
  | case6 c rest _ _ _ ih =>
    obtain ⟨⟨inside', after'⟩, hrest, heq⟩ := Option.map_eq_some_iff.1 h
    simp only [Prod.mk.injEq] at heq
    obtain ⟨rfl, rfl⟩ := heq
    simp [ih hrest]

end StubManager
