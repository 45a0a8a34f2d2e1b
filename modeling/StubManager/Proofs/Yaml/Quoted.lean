import Mathlib.Data.List.Basic
import Mathlib.Data.Option.Basic
import StubManager.Proofs.Yaml.Cursor
import StubManager.Yaml.Scalar

/-!
# Scalars between quotes

What is written between quotes is a row of words with gaps between them (`Quoted`), for both kinds of
quotes, and a row of words is read as its text (`Quoted.reads`). `quoted_double` and `quoted_single`:
the two quoted styles write such rows.
-/

namespace StubManager.Yaml

open Scalar

/-! ## Escapes -/

theorem escaped?_append {letter ch : Char} {more : List Char}
    (h : escaped? ('\\' :: letter :: more) = some (ch, more.length + 2)) (rest : List Char) :
    escaped? ('\\' :: letter :: more ++ rest) = some (ch, more.length + 2) := by
  rw [escaped?] at h
  rw [List.cons_append, List.cons_append, escaped?]
  cases hwidth : escapeWidth? letter with
  | none => simpa only [hwidth] using h
  | some width =>
    simp only [hwidth] at h ⊢
    have hlength : width = more.length := by
      simp [Option.bind_eq_some_iff] at h
      omega
    subst hlength
    simpa using h

/-- Whether a character stands for itself between double quotes. -/
def isRaw (ch : Char) : Bool :=
  escaped ch = [ch] && ch ≠ '"' && ch ≠ '\\' && (!isSpacing ch || ch = ' ')

/-- Whether what is written for a character between double quotes is an escape that is read as it. -/
def isEscaped (ch : Char) : Bool :=
  (escaped ch).head? = some '\\' && ((escaped ch).drop 1).head?.any (!isBreak ·)
    && escaped? (escaped ch) = some (ch, (escaped ch).length)

theorem isRaw_or_isEscaped_of_low : ∀ n < 160, isRaw (Char.ofNat n) ∨ isEscaped (Char.ofNat n) := by
  decide +kernel

/-- The characters beyond the control characters that are written as escapes. -/
def highEscapes : List Char := ['\u2028', '\u2029', '\ufeff', '\ufffe', '\uffff']

section

variable {ch : Char} (hhigh : 160 ≤ ch.toNat) (hspecial : ch ∉ highEscapes)

include hhigh hspecial

theorem escapeLetter?_eq_none : escapeLetter? ch = none := by
  unfold escapeLetter?
  split <;> first | rfl | exact absurd hhigh (by decide) | exact absurd (by decide) hspecial

theorem isPrintable_of_high : isPrintable ch := by
  have hne : ∀ n, Char.ofNat n ∈ highEscapes → ch.toNat ≠ n := by
    rintro n hmem rfl
    rw [Char.ofNat_toNat] at hmem
    exact hspecial hmem
  have hle : '\u00a0' ≤ ch := hhigh
  have hfeff : ch ≠ '\ufeff' := fun h => hspecial (by simp [h, highEscapes])
  have hfffe := hne 0xfffe (by decide)
  have hffff := hne 0xffff (by decide)
  simp only [isPrintable, Bool.or_eq_true, Bool.and_eq_true, decide_eq_true_eq]
  have hrange : ch.toNat ≤ 0xFFFD ∨ 0x10000 ≤ ch.toNat := by omega
  rcases hrange with hrange | hrange
  · exact .inl (.inr ⟨⟨hle, hfeff⟩, hrange⟩)
  · exact .inr hrange

theorem isSpacing_eq_false_of_high : isSpacing ch = false := by
  simp only [isSpacing, isGap, isBreak, Bool.or_eq_false_iff, decide_eq_false_iff_not]
  refine ⟨⟨?_, ?_⟩, ⟨⟨⟨?_, ?_⟩, ?_⟩, ?_⟩, ?_⟩ <;> rintro rfl <;>
    first | exact absurd hhigh (by decide) | exact absurd (by decide) hspecial

end

/-- Between double quotes a character stands for itself, or there is an escape that is read as it. -/
theorem isRaw_or_isEscaped (ch : Char) : isRaw ch ∨ isEscaped ch := by
  rcases Nat.lt_or_ge ch.toNat 160 with hlow | hhigh
  · have h := isRaw_or_isEscaped_of_low ch.toNat hlow
    rwa [Char.ofNat_toNat] at h
  by_cases hspecial : ch ∈ highEscapes
  · have hall := List.all_eq_true.1 (by decide +kernel : highEscapes.all isEscaped)
    exact .inr (hall ch hspecial)
  have hraw : ∀ ch', ch'.toNat < 160 → ch ≠ ch' := by
    rintro ch' hlow rfl
    exact absurd hhigh (Nat.not_le.2 hlow)
  left
  simp [isRaw, escaped, escapeLetter?_eq_none hhigh hspecial, isPrintable_of_high hhigh hspecial,
    isSpacing_eq_false_of_high hhigh hspecial, hraw '"' (by decide), hraw '\\' (by decide)]

theorem isAllowed_of_isPrintable {ch : Char} (h : isPrintable ch) : isAllowed ch := by
  simp only [isPrintable, isAllowed, Bool.or_eq_true, Bool.and_eq_true, decide_eq_true_eq] at h ⊢
  grind

/-- Nothing is written between double quotes that may not occur in a text. -/
theorem isAllowed_of_mem_escaped {ch : Char} : ∀ x ∈ escaped ch, isAllowed x := by
  have hlow : ∀ n < 160, (escaped (Char.ofNat n)).all isAllowed := by decide +kernel
  have hescapes : highEscapes.all fun ch => (escaped ch).all isAllowed := by decide +kernel
  rcases Nat.lt_or_ge ch.toNat 160 with hlt | hhigh
  · have h := hlow ch.toNat hlt
    rwa [Char.ofNat_toNat, List.all_eq_true] at h
  by_cases hspecial : ch ∈ highEscapes
  · exact List.all_eq_true.1 (List.all_eq_true.1 hescapes ch hspecial)
  have hprintable := isPrintable_of_high hhigh hspecial
  simpa [escaped, escapeLetter?_eq_none hhigh hspecial, hprintable] using
    isAllowed_of_isPrintable hprintable

/-! ## Words and gaps -/

/-- The quote of a style. -/
def quote (double : Bool) : Char := if double then '"' else '\''

/-- Whether a character is part of a word. Line breaks are escaped between double quotes. -/
def inWord (double : Bool) (ch : Char) : Bool := if double then ch ≠ ' ' else !isSpacing ch

/-- How a character of a word is written. -/
def written (double : Bool) (ch : Char) : List Char :=
  if double then escaped ch else if ch = '\'' then ['\'', '\''] else [ch]

/-- What is written for a gap between words: spaces as they are, and between single quotes breaks
with the indentation of the next line. -/
def IsGap (double : Bool) (gap text : List Char) : Prop :=
  gap ≠ [] ∧ ((∀ ch ∈ gap, ch = ' ') ∧ text = gap ∨
    double = false ∧ (∀ ch ∈ gap, isPlainBreak ch ∧ ch ≠ '\n') ∧
      text = gap ++ List.replicate 4 ' ')

/-- A text and what is written for it between quotes. -/
inductive Quoted (double : Bool) : (text body : List Char) → Prop where
  | word {word : List Char} (hword : ∀ ch ∈ word, inWord double ch) :
      Quoted double word (word.flatMap (written double))
  | gap {word gap between text body : List Char} (hword : ∀ ch ∈ word, inWord double ch)
      (hgap : IsGap double gap between) (h : Quoted double text body) (hsolid : Solid body) :
      Quoted double (word ++ gap ++ text) (word.flatMap (written double) ++ between ++ body)

/-- A word ends before spacing and before the closing quote. -/
def EndsWord (double : Bool) (rest : List Char) : Prop :=
  ∃ ch tail, rest = ch :: tail ∧
    (isSpacing ch ∨ ch = quote double ∧ (double = false → tail.head? ≠ some '\''))

/-- What is read of a character of a word. -/
theorem quotedWord?_of_char {double : Bool} {ch : Char} {rest : List Char}
    (hch : inWord double ch) {c : Cursor} (h : c.rest = written double ch ++ rest) (fuel : Nat) :
    quotedWord? double (fuel + 1) c
      = (quotedWord? double fuel (c.skip (written double ch).length)).map
          fun (word, broken, c) => (ch :: word, broken, c) := by
  cases double with
  | false =>
    have hspacing : isSpacing ch = false := by simpa [inWord] using hch
    by_cases hquote : ch = '\''
    · subst hquote
      simp [quotedWord?, h, written, hspacing]
    · simp [quotedWord?, h, written, hspacing, hquote]
  | true =>
    have hspace : ch ≠ ' ' := by simpa [inWord] using hch
    rcases isRaw_or_isEscaped ch with hraw | hescaped
    · simp only [isRaw, Bool.and_eq_true, decide_eq_true_eq, Bool.or_eq_true, Bool.not_eq_true',
        hspace, or_false] at hraw
      obtain ⟨⟨⟨hwritten, hquote⟩, hslash⟩, hspacing⟩ := hraw
      simp [quotedWord?, h, written, hwritten, hspacing, hquote, hslash]
    · simp only [isEscaped, Bool.and_eq_true, decide_eq_true_eq] at hescaped
      obtain ⟨⟨hslash, hletter⟩, hread⟩ := hescaped
      obtain ⟨letter, more, heq⟩ : ∃ letter more, escaped ch = '\\' :: letter :: more := by
        match hlist : escaped ch, hslash, hletter with
        | _ :: letter :: more, hslash, _ => exact ⟨letter, more, by simpa using hslash⟩
      have hbreak : isBreak letter = false := by simpa [heq] using hletter
      have hread := escaped?_append (by simpa [heq] using hread) rest
      rw [List.cons_append, List.cons_append] at hread
      have hslash : isSpacing '\\' = false := rfl
      simp [quotedWord?, h, written, heq, hbreak, hread, hslash]

theorem written_ne_nil (double : Bool) (ch : Char) : written double ch ≠ [] := by
  cases double with
  | false => by_cases hquote : ch = '\'' <;> simp [written, hquote]
  | true =>
    rcases isRaw_or_isEscaped ch with h | h
    · simp only [isRaw, Bool.and_eq_true, decide_eq_true_eq] at h
      simp [written, h.1.1.1]
    · intro hnil
      simp [isEscaped, show escaped ch = [] from hnil] at h

theorem length_le_written (double : Bool) (word : List Char) :
    word.length ≤ (word.flatMap (written double)).length := by
  induction word with
  | nil => simp
  | cons ch word ih =>
    have hch := List.length_pos_iff.2 (written_ne_nil double ch)
    rw [List.flatMap_cons, List.length_append, List.length_cons]
    omega

/-- What is read of a word. -/
theorem quotedWord?_of_word {double : Bool} {word rest : List Char}
    (hword : ∀ ch ∈ word, inWord double ch) (hrest : EndsWord double rest) {fuel : Nat}
    {c : Cursor} (h : c.rest = word.flatMap (written double) ++ rest)
    (hfuel : word.length < fuel) :
    ∃ c', quotedWord? double fuel c = some (word, false, c') ∧ c'.rest = rest ∧
      c.column ≤ c'.column := by
  induction word generalizing fuel c with
  | nil =>
    obtain ⟨fuel, rfl⟩ := Nat.exists_eq_add_one.2 hfuel
    obtain ⟨ch, tail, rfl, hend⟩ := hrest
    rw [List.flatMap_nil, List.nil_append] at h
    refine ⟨c, ?_, h, Nat.le_refl _⟩
    rcases hend with hspacing | ⟨rfl, htail⟩
    · simp [quotedWord?, h, hspacing]
    · cases double <;> simp [quotedWord?, h, quote, isSpacing, isGap, isBreak, htail]
  | cons ch word ih =>
    obtain ⟨hch, hword⟩ := List.forall_mem_cons.1 hword
    obtain ⟨fuel, rfl⟩ := Nat.exists_eq_add_one.2 (Nat.zero_lt_of_lt hfuel)
    rw [List.flatMap_cons, List.append_assoc] at h
    obtain ⟨c', hread, hrest', hcolumn⟩ := ih hword (Cursor.skip_rest_append h)
      (Nat.lt_of_succ_lt_succ hfuel)
    refine ⟨c', ?_, hrest', Nat.le_trans (Nat.le_add_right _ _) hcolumn⟩
    rw [quotedWord?_of_char hch h, hread, Option.map_some]

theorem IsGap.exists_cons {double : Bool} {gap between : List Char} (h : IsGap double gap between) :
    ∃ ch more, between = ch :: more ∧ isSpacing ch := by
  obtain ⟨hne, ⟨hspaces, rfl⟩ | ⟨-, hbreaks, rfl⟩⟩ := h
  · obtain ⟨ch, more, rfl⟩ := List.exists_cons_of_ne_nil hne
    exact ⟨ch, more, rfl, (List.forall_mem_cons.1 hspaces).1 ▸ rfl⟩
  · obtain ⟨ch, more, rfl⟩ := List.exists_cons_of_ne_nil hne
    exact ⟨ch, _, rfl, isSpacing_of_isBreak
      (isBreak_of_isPlainBreak (List.forall_mem_cons.1 hbreaks).1.1)⟩

/-- What is read of a gap. -/
theorem read?_of_isGap {double : Bool} {gap between rest : List Char}
    (hgap : IsGap double gap between) (hrest : Solid rest) {c : Cursor}
    (h : c.rest = between ++ rest) (hcolumn : 0 < c.column) :
    ∃ fold c', Fold.read? 0 (c.rest.length + 1) {} c = some (fold, c') ∧ fold.text = gap ∧
      c'.rest = rest ∧ 0 < c'.column := by
  have hfuel : between.length ≤ c.rest.length := by
    rw [h, List.length_append]
    exact Nat.le_add_right _ _
  obtain ⟨hne, ⟨hspaces, rfl⟩ | ⟨-, hbreaks, rfl⟩⟩ := hgap
  · refine ⟨_, _, Fold.read?_gaps rfl h hspaces hrest (Nat.le_succ_of_le hfuel), by simp [Fold.text],
      Cursor.skip_rest_append h, ?_⟩
    rw [Cursor.skip_column]
    omega
  · obtain ⟨first, later, rfl⟩ := List.exists_cons_of_ne_nil hne
    obtain ⟨hfirst, hlater⟩ := List.forall_mem_cons.1 hbreaks
    have hlength : later.length + 4 < c.rest.length + 1 := by
      rw [List.length_append, List.length_cons, List.length_replicate] at hfuel
      omega
    have hnone : ({} : Fold).broken = false := rfl
    obtain ⟨c', hread, hrest', hcolumn'⟩ := Fold.read?_breaks hnone
      (by rw [h, List.append_assoc]) hfirst.1 (fun ch hch => (hlater ch hch).1) hrest hlength
    refine ⟨_, c', hread, ?_, hrest', hcolumn' ▸ by decide⟩
    simp [Fold.text, hfirst.2]

theorem quotedText?_of_word {double : Bool} {word : List Char} {fuel : Nat} {c c' : Cursor}
    (hcolumn : 0 < c.column) (hrest : c.rest ≠ [])
    (hread : quotedWord? double (c.rest.length + 1) c = some (word, false, c')) :
    quotedText? double (fuel + 1) c
      = if c'.next (· = quote double) then some (word, c'.skip 1)
        else (Fold.read? 0 (c'.rest.length + 1) {} c').bind fun (fold, c) =>
          (quotedText? double fuel c).bind fun (more, c) =>
            some (word ++ fold.text ++ more, c) := by
  have hstart : c.atEnd = false := by simpa [Cursor.atEnd] using hrest
  simp only [quotedText?, Cursor.atDocumentMark_eq_false hcolumn, hstart, Bool.not_false,
    Bool.and_self, guard, if_true, hread, Option.bind_eq_bind, Option.pure_def, Option.bind_some]
  rfl

/-- A row of words is read as its text, up to and including the closing quote. -/
theorem Quoted.reads {double : Bool} {text body tail : List Char} (h : Quoted double text body)
    (htail : double = false → tail.head? ≠ some '\'') {fuel : Nat} {c : Cursor}
    (hrest : c.rest = body ++ quote double :: tail) (hcolumn : 0 < c.column)
    (hfuel : body.length < fuel) :
    ∃ c', quotedText? double fuel c = some (text, c') ∧ c'.rest = tail ∧ 0 < c'.column := by
  have hne : c.rest ≠ [] := by simp [hrest]
  obtain ⟨fuel, rfl⟩ := Nat.exists_eq_add_one.2 (Nat.zero_lt_of_lt hfuel)
  induction h generalizing fuel c with
  | @word word hword =>
    have hend : EndsWord double (quote double :: tail) := ⟨_, _, rfl, .inr ⟨rfl, htail⟩⟩
    have hlength : word.length < c.rest.length + 1 := by
      have hle := length_le_written double word
      rw [hrest, List.length_append]
      omega
    obtain ⟨c', hread, hrest', hcolumn'⟩ := quotedWord?_of_word hword hend hrest hlength
    refine ⟨c'.skip 1, ?_, by simp [hrest'], Nat.lt_succ_of_lt (Nat.lt_of_lt_of_le hcolumn hcolumn')⟩
    simp [quotedText?_of_word hcolumn hne hread, Cursor.next_cons hrest']
  | @gap word gap between text body hword hgap h hsolid ih =>
    obtain ⟨ch, more, hbetween, hspacing⟩ := hgap.exists_cons
    have hlength : word.length < c.rest.length + 1 := by
      have hle := length_le_written double word
      simp only [hrest, List.length_append]
      omega
    rw [List.append_assoc, List.append_assoc] at hrest
    have hend : EndsWord double (between ++ (body ++ quote double :: tail)) :=
      ⟨ch, _, by rw [hbetween, List.cons_append], .inl hspacing⟩
    obtain ⟨c', hread, hrest', hcolumn'⟩ := quotedWord?_of_word hword hend hrest hlength
    have hquote : c'.next (· = quote double) = false := by
      rw [Cursor.next_cons (by rw [hrest', hbetween, List.cons_append])]
      rw [decide_eq_false_iff_not]
      rintro rfl
      cases double <;> cases hspacing
    have hbody : Solid (body ++ quote double :: tail) := by
      cases body with
      | nil => cases double <;> simp [quote, isSpacing, isGap, isBreak]
      | cons first rest => simpa using hsolid
    obtain ⟨fold, c'', hfold, hgaptext, hrest'', hcolumn''⟩ := read?_of_isGap hgap hbody hrest'
      (Nat.lt_of_lt_of_le hcolumn hcolumn')
    rw [List.length_append, List.length_append, hbetween, List.length_cons] at hfuel
    obtain ⟨fuel, rfl⟩ := Nat.exists_eq_add_one.2 (show 0 < fuel by omega)
    obtain ⟨last, hmore, hlast⟩ := ih hrest'' hcolumn'' (by simp [hrest'']) fuel (by omega)
    refine ⟨last, ?_, hlast⟩
    simp [quotedText?_of_word hcolumn hne hread, hquote, hfold, hmore, hgaptext]

theorem Quoted.quotedScalar? {double : Bool} {text body tail : List Char}
    (h : Quoted double text body) (htail : double = false → tail.head? ≠ some '\'') {c : Cursor}
    (hrest : c.rest = quote double :: body ++ quote double :: tail) :
    ∃ c', Yaml.quotedScalar? double c = some (.scalar text false, c') ∧ c'.rest = tail := by
  have hskip : (c.skip 1).rest = body ++ quote double :: tail := by simp [hrest]
  obtain ⟨c', hread, hrest', -⟩ := h.reads htail hskip (Nat.succ_pos _)
    (show body.length < c.rest.length + 1 by simp [hrest]; omega)
  refine ⟨c', ?_, hrest'⟩
  simp [Yaml.quotedScalar?, hread]

/-! ## What the quoted styles write -/

theorem solid_written {double : Bool} {ch : Char} (hch : inWord double ch) (rest : List Char) :
    Solid (written double ch ++ rest) := by
  cases double with
  | false =>
    have hspacing : isSpacing ch = false := by simpa [inWord] using hch
    by_cases hquote : ch = '\''
    · simp [written, hquote, isSpacing, isGap, isBreak]
    · simp [written, hquote, hspacing]
  | true =>
    have hspace : ch ≠ ' ' := by simpa [inWord] using hch
    rcases isRaw_or_isEscaped ch with h | h
    · simp only [isRaw, Bool.and_eq_true, decide_eq_true_eq, Bool.or_eq_true, Bool.not_eq_true',
        hspace, or_false] at h
      simp [written, h.1.1.1, h.2]
    · simp only [isEscaped, Bool.and_eq_true, decide_eq_true_eq] at h
      cases hlist : escaped ch with
      | nil => simp [hlist] at h
      | cons first more =>
        have hfirst : first = '\\' := by simpa [hlist] using h.1.1
        simp [written, hlist, hfirst, isSpacing, isGap, isBreak]

/-- Between double quotes everything is a word but spaces. -/
theorem quoted_double (text : List Char) : Quoted true text (text.flatMap escaped) := by
  have hwritten : written true = escaped := by
    funext ch
    exact if_pos rfl
  rw [← hwritten]
  induction text using runs_induction (inWord true) with
  | run word hword => exact .word hword
  | gap word gap text hword hgap hne hhead ih =>
    have hspaces : ∀ ch ∈ gap, ch = ' ' := fun ch hch => by simpa [inWord] using hgap ch hch
    have hbetween : gap.flatMap (written true) = gap := by
      have hsame : ∀ ch ∈ gap, written true ch = [ch] := fun ch hch => hspaces ch hch ▸ rfl
      rw [List.flatMap_congr hsame, List.flatMap_singleton']
    rw [List.flatMap_append, List.flatMap_append, hbetween]
    refine .gap hword ⟨hne, .inl ⟨hspaces, rfl⟩⟩ ih ?_
    cases text with
    | nil => exact solid_nil
    | cons ch text => exact solid_written (hhead ch rfl) _

theorem singleBody_word {word : List Char} (hword : ∀ ch ∈ word, inWord false ch)
    (rest : List Char) :
    singleBody false (word ++ rest) = word.flatMap (written false) ++ singleBody false rest := by
  induction word with
  | nil => rfl
  | cons ch word ih =>
    obtain ⟨hch, hword⟩ := List.forall_mem_cons.1 hword
    have hspacing : isSpacing ch = false := by simpa [inWord] using hch
    have hspace : ch ≠ ' ' := fun h => by simp [h] at hspacing
    have hwritten : (if ch = '\'' then [ch, ch] else [ch]) = written false ch := by
      by_cases hquote : ch = '\'' <;> simp [written, hquote]
    simp [singleBody, isBreak_eq_false hspacing, hspace, ih hword, hwritten]

theorem singleBody_spaces {gap : List Char} (hgap : ∀ ch ∈ gap, ch = ' ') (rest : List Char) :
    singleBody false (gap ++ rest) = gap ++ singleBody false rest := by
  induction gap with
  | nil => rfl
  | cons ch gap ih =>
    obtain ⟨rfl, htail⟩ := List.forall_mem_cons.1 hgap
    simp [singleBody, isBreak, ih htail]

theorem singleBody_breaks {gap : List Char} (hgap : ∀ ch ∈ gap, isBreak ch) (hne : gap ≠ [])
    (broken : Bool) (rest : List Char) :
    singleBody broken (gap ++ rest) = gap ++ singleBody true rest := by
  induction gap generalizing broken with
  | nil => exact absurd rfl hne
  | cons ch gap ih =>
    obtain ⟨hch, hgap⟩ := List.forall_mem_cons.1 hgap
    cases gap with
    | nil => simp [singleBody, hch]
    | cons next gap => simp [singleBody, hch, ← ih hgap (List.cons_ne_nil _ _) true]

theorem singleBody_indent {text : List Char} (h : ∀ ch ∈ text.head?, inWord false ch) :
    singleBody true text = List.replicate 4 ' ' ++ singleBody false text := by
  cases text with
  | nil => simp [singleBody, indent]
  | cons ch text =>
    have hspacing : isSpacing ch = false := by simpa [inWord] using h ch rfl
    have hspace : ch ≠ ' ' := fun h => by simp [h] at hspacing
    simp [singleBody, isBreak_eq_false hspacing, hspace, indent]

theorem hasPair_append {p q : Char → Bool} {xs ys : List Char} (h : hasPair p q (xs ++ ys) = false) :
    hasPair p q xs = false ∧ hasPair p q ys = false := by
  induction xs with
  | nil => exact ⟨rfl, h⟩
  | cons a xs ih =>
    cases xs with
    | nil => cases ys <;> simp_all [hasPair]
    | cons b xs =>
      simp only [List.cons_append, hasPair, Bool.or_eq_false_iff] at h ⊢
      obtain ⟨hxs, hys⟩ := ih h.2
      exact ⟨⟨h.1, hxs⟩, hys⟩

theorem space_or_plainBreak {ch : Char} (hprintable : isPrintable ch) (h : isSpacing ch) :
    ch = ' ' ∨ isPlainBreak ch := by
  simp only [isSpacing, isGap, isBreak, Bool.or_eq_true, decide_eq_true_eq] at h
  rcases h with (rfl | rfl) | (((rfl | rfl) | rfl) | rfl) | rfl <;>
    first | exact .inl rfl | exact .inr rfl | exact absurd hprintable (by decide)

/-- Spacing without a space beside a break is of one kind. -/
theorem spaces_or_breaks {gap : List Char} (hgap : ∀ ch ∈ gap, ch = ' ' ∨ isBreak ch)
    (hbefore : hasPair (· = ' ') isBreak gap = false)
    (hbehind : hasPair isBreak (· = ' ') gap = false) :
    (∀ ch ∈ gap, ch = ' ') ∨ ∀ ch ∈ gap, isBreak ch := by
  induction gap with
  | nil => simp
  | cons a gap ih =>
    cases gap with
    | nil => simpa using hgap
    | cons b gap =>
      simp only [hasPair, Bool.or_eq_false_iff, Bool.and_eq_false_iff, decide_eq_false_iff_not]
        at hbefore hbehind
      obtain ⟨ha, hgap⟩ := List.forall_mem_cons.1 hgap
      have hb := (List.forall_mem_cons.1 hgap).1
      have hspace : isBreak ' ' = false := rfl
      rcases ih hgap hbefore.2 hbehind.2 with hsame | hsame
      · have hb := (List.forall_mem_cons.1 hsame).1
        left
        grind
      · have hb := (List.forall_mem_cons.1 hsame).1
        right
        grind

/-- Between single quotes everything is a word but spaces and the line breaks that count as they
are. -/
theorem quoted_single {text : List Char} (hprintable : ∀ ch ∈ text, isPrintable ch)
    (hline : '
' ∉ text) (hbefore : hasPair (· = ' ') isBreak text = false)
    (hbehind : hasPair isBreak (· = ' ') text = false) :
    Quoted false text (singleBody false text) := by
  induction text using runs_induction (inWord false) with
  | run word hword =>
    have hbody := singleBody_word hword []
    rw [List.append_nil] at hbody
    rw [hbody]
    simpa [singleBody] using Quoted.word hword
  | gap word gap text hword hgap hne hhead ih =>
    simp only [List.mem_append, not_or, or_imp, forall_and] at hprintable hline
    obtain ⟨hbeforeWord, hbeforeText⟩ := hasPair_append hbefore
    obtain ⟨hbehindWord, hbehindText⟩ := hasPair_append hbehind
    have hquoted := ih hprintable.2 hline.2 hbeforeText hbehindText
    have hsolid : Solid (singleBody false text) := by
      cases text with
      | nil => exact solid_nil
      | cons ch text =>
        have hword : ∀ x ∈ [ch], inWord false x := by simpa using hhead ch rfl
        have hbody := singleBody_word hword text
        rw [List.singleton_append, List.flatMap_singleton] at hbody
        exact hbody ▸ solid_written (hhead ch rfl) _
    have hkinds : ∀ ch ∈ gap, ch = ' ' ∨ isPlainBreak ch := fun ch hch =>
      space_or_plainBreak (hprintable.1.2 ch hch) (by simpa [inWord] using hgap ch hch)
    have hbody : ∀ between, IsGap false gap between →
        singleBody false (gap ++ text) = between ++ singleBody false text →
        Quoted false (word ++ gap ++ text) (singleBody false (word ++ gap ++ text)) := by
      intro between hbetween heq
      rw [List.append_assoc word, singleBody_word hword, heq, ← List.append_assoc,
        ← List.append_assoc]
      exact .gap hword hbetween hquoted hsolid
    rcases spaces_or_breaks (fun ch hch => (hkinds ch hch).imp_right isBreak_of_isPlainBreak)
      (hasPair_append hbeforeWord).2 (hasPair_append hbehindWord).2 with hspaces | hbreaks
    · exact hbody gap ⟨hne, .inl ⟨hspaces, rfl⟩⟩ (singleBody_spaces hspaces text)
    · refine hbody _ ⟨hne, .inr ⟨rfl, fun ch hch => ⟨?_, ?_⟩, rfl⟩⟩ ?_
      · refine (hkinds ch hch).resolve_left fun hspace => ?_
        simpa [hspace, isBreak] using hbreaks ch hch
      · exact fun hbreak => hline.1.2 (hbreak ▸ hch)
      · rw [singleBody_breaks hbreaks hne, singleBody_indent hhead, List.append_assoc]

end StubManager.Yaml
