import StubManager.Proofs.Yaml.Layout

/-!
# Entries of block mappings

What each style asks of a text is what its reading needs (`plainText_of_style`,
`quoted_of_style`, `literalText_of_style`), so a value is read as the text it was written for
whatever that is (`Finishes.of_value`).
-/

namespace StubManager.Yaml

open Scalar

/-! ## Styles -/

variable {text : List Char}

theorem isPrintable_of_needsEscapes (h : needsEscapes text = false) :
    (∀ ch ∈ text, isPrintable ch) ∧ hasPair (· = ' ') isBreak text = false := by
  simpa [needsEscapes] using h

theorem plain_of_style (h : style text = .plain) : looksOther text = false ∧ isPlain text := by
  rw [style] at h
  split at h
  · split at h <;> cases h
  split at h
  · next hplain => simpa using hplain
  split at h <;> cases h

/-- Only double quotes hold characters that do not stand for themselves. -/
theorem printable_of_style (h : style text ≠ .double) : ∀ ch ∈ text, isPrintable ch := by
  refine (isPrintable_of_needsEscapes ?_).1
  by_contra hescapes
  rw [Bool.not_eq_false] at hescapes
  exact h (by simp [style, hescapes, isPlain])

theorem plainText_of_style (h : style text = .plain) : PlainText text := by
  obtain ⟨hother, hplain⟩ := plain_of_style h
  simp only [isPlain, Bool.and_eq_true, Bool.not_eq_true', decide_eq_true_eq] at hplain
  obtain ⟨⟨⟨⟨⟨hescapes, hbreaks⟩, hhead⟩, hlast⟩, hstart⟩, hsigns⟩ := hplain
  obtain ⟨hprintable, -⟩ := isPrintable_of_needsEscapes hescapes
  have hspaces : ∀ ch ∈ text, isSpacing ch → ch = ' ' := fun ch hch hspacing =>
    (space_or_plainBreak (hprintable ch hch) hspacing).resolve_right fun hbreak => by
      have hnone := List.any_eq_false.1 hbreaks ch hch
      exact hnone (isBreak_of_isPlainBreak hbreak)
  refine ⟨?_, hspaces, fun ch hch => ?_, hlast, hsigns⟩
  · rintro rfl
    cases hother
  · by_contra hspacing
    have hspace := hspaces ch (List.mem_of_head? hch) (by simpa using hspacing)
    exact hhead (hspace ▸ hch)

/-- A plain text starts like a plain scalar. -/
theorem startsPlain_of_style (h : style text = .plain) (rest : List Char) :
    Layout.startsPlain (text ++ rest) := by
  have hplainText := plainText_of_style h
  obtain ⟨-, hplain⟩ := plain_of_style h
  obtain ⟨ch, more, rfl⟩ := List.exists_cons_of_ne_nil hplainText.ne_nil
  simp only [isPlain, Bool.and_eq_true, Bool.not_eq_true'] at hplain
  obtain ⟨⟨-, hstart⟩, hsigns⟩ := hplain
  simp only [startsWithSign, Bool.or_eq_false_iff] at hstart
  obtain ⟨⟨⟨hsign, hmark⟩, -⟩, -⟩ := hstart
  simp only [hasInnerSign, Bool.or_eq_false_iff] at hsigns
  obtain ⟨⟨hcolon, -⟩, -⟩ := hsigns
  have hch : isSpacing ch = false := hplainText.solid ch rfl
  simp only [Layout.startsPlain, List.cons_append, hsign, hch, Bool.not_false, Bool.true_and,
    Bool.or_eq_true, Bool.not_eq_true']
  by_cases hmid : "-?:".toList.contains ch
  · right
    have hmore : more.head?.all isSpacing = false := by
      have hcases : ch = '-' ∨ ch = '?' ∨ ch = ':' := by simpa using hmid
      rcases hcases with rfl | rfl | rfl <;> simpa using ‹_›
    cases more <;> simp_all
  · exact .inl (by simpa using hmid)

theorem begins_of_startsPlain (h : Layout.startsPlain text) (hbom : text.head? ≠ some '\ufeff') :
    Layout.Begins text := by
  cases text with
  | nil => cases h
  | cons ch text =>
    simp only [Layout.startsPlain, Bool.and_eq_true, Bool.not_eq_true'] at h
    refine fun other hother => ?_
    obtain rfl : ch = other := by simpa using hother
    refine ⟨h.1.2, ?_, by simpa using hbom⟩
    rintro rfl
    exact absurd h.1.1 (by decide)

theorem begins_of_style (h : style text = .plain) (rest : List Char) :
    Layout.Begins (text ++ rest) := by
  refine begins_of_startsPlain (startsPlain_of_style h rest) fun hbom => ?_
  obtain ⟨-, hplain⟩ := plain_of_style h
  simp only [isPlain, Bool.and_eq_true, Bool.not_eq_true'] at hplain
  obtain ⟨hprintable, -⟩ := isPrintable_of_needsEscapes hplain.1.1.1.1.1
  obtain ⟨ch, more, rfl⟩ := List.exists_cons_of_ne_nil (plainText_of_style h).ne_nil
  obtain rfl : ch = '\ufeff' := by simpa using hbom
  exact absurd (hprintable _ (List.mem_cons_self ..)) (by decide)

theorem quoted_of_style (h : style text = .single) : Quoted false text (singleBody false text) := by
  rw [style] at h
  split at h
  · split at h <;> cases h
  split at h
  · cases h
  split at h
  · cases h
  next hline _ hpairs =>
  simp only [Bool.or_eq_true, not_or, Bool.not_eq_true] at hpairs
  obtain ⟨hprintable, hbefore⟩ := isPrintable_of_needsEscapes hpairs.1
  exact quoted_single hprintable (by simpa using hline) hbefore hpairs.2

theorem literalText_of_style (h : style text = .literal) : LiteralText text ∧ text ≠ [] := by
  rw [style] at h
  split at h
  · split at h
    · cases h
    next hline hescapes =>
    simp only [Bool.or_eq_true, not_or, Bool.not_eq_true] at hescapes
    obtain ⟨hprintable, -⟩ := isPrintable_of_needsEscapes hescapes.1
    refine ⟨⟨fun ch hch hbreak => ?_, fun htab => ?_⟩, ?_⟩
    · refine (space_or_plainBreak (hprintable ch hch) (isSpacing_of_isBreak hbreak)).resolve_left ?_
      rintro rfl
      cases hbreak
    · exact absurd (hprintable _ htab) (by decide)
    · rintro rfl
      cases hline
  · split at h
    · cases h
    split at h <;> cases h

/-! ## Allowed characters -/

theorem eq_space_of_mem_indent {ch : Char} {broken : Bool}
    (h : ch ∈ if broken then indent else []) : ch = ' ' := by
  cases broken <;> simp_all [indent]

theorem mem_singleBody {ch : Char} {broken : Bool} (h : ch ∈ singleBody broken text) :
    ch ∈ text ∨ ch = ' ' ∨ ch = '\'' := by
  induction text generalizing broken with
  | nil => exact .inr (.inl (eq_space_of_mem_indent (by simpa [singleBody] using h)))
  | cons first text ih =>
    rw [singleBody] at h
    split at h
    · grind
    split at h
    · grind
    · simp only [List.mem_append] at h
      rcases h with (h | h) | h
      · exact .inr (.inl (eq_space_of_mem_indent h))
      · split at h <;> simp_all
      · grind

theorem mem_literalBody {ch : Char} {broken : Bool} (h : ch ∈ literalBody broken text) :
    ch ∈ text ∨ ch = ' ' := by
  induction text generalizing broken with
  | nil => simp [literalBody] at h
  | cons first text ih =>
    rw [literalBody] at h
    split at h
    · grind
    · rw [List.mem_append] at h
      rcases h with h | h
      · exact .inr (eq_space_of_mem_indent h)
      · grind

theorem isAllowed_of_mem_literalHeader {ch : Char} (h : ch ∈ literalHeader text) : isAllowed ch := by
  have hall := List.all_eq_true.1 (by decide : ['2', '+', '-'].all isAllowed)
  refine hall ch ?_
  rw [literalHeader_eq] at h
  cases hchomp : chompOf text <;> grind [Chomp.sign]

/-- Nothing is written that may not occur in a text. -/
theorem isAllowed_of_mem_write {ch : Char} (h : ch ∈ write text) : isAllowed ch := by
  have hspace : isAllowed ' ' := rfl
  have hquotes : isAllowed '\'' ∧ isAllowed '"' ∧ isAllowed '|' ∧ isAllowed '\n' := by decide
  cases hstyle : style text with
  | plain =>
    rw [write, hstyle] at h
    exact isAllowed_of_isPrintable (printable_of_style (by simp [hstyle]) ch h)
  | single =>
    simp only [write, hstyle, List.mem_append, List.mem_cons, List.not_mem_nil, or_false] at h
    rcases h with (rfl | h) | rfl
    · exact hquotes.1
    · rcases mem_singleBody h with h | rfl | rfl
      · exact isAllowed_of_isPrintable (printable_of_style (by simp [hstyle]) ch h)
      · exact hspace
      · exact hquotes.1
    · exact hquotes.1
  | double =>
    simp only [write, hstyle, List.mem_append, List.mem_cons, List.not_mem_nil, or_false,
      List.mem_flatMap] at h
    rcases h with (rfl | ⟨x, -, h⟩) | rfl
    · exact hquotes.2.1
    · exact isAllowed_of_mem_escaped ch h
    · exact hquotes.2.1
  | literal =>
    simp only [write, hstyle, List.mem_append, List.mem_cons] at h
    rcases h with (rfl | h) | rfl | h
    · exact hquotes.2.2.1
    · exact isAllowed_of_mem_literalHeader h
    · exact hquotes.2.2.2
    · rcases mem_literalBody h with h | rfl
      · exact isAllowed_of_isPrintable (printable_of_style (by simp [hstyle]) ch h)
      · exact hspace

/-! ## Values -/

/-- What ends the last line of a text that is written below a key. -/
def closing (text : List Char) : List Char :=
  if style text = .literal ∧ (write text).getLast?.any isBreak then [] else ['\n']

theorem closing_of_literal (h : style text = .literal) : closing text = ending text := by
  obtain ⟨-, hne⟩ := literalText_of_style h
  have hlast : (write text).getLast? = text.getLast? := by
    obtain ⟨front, last, rfl⟩ : ∃ front last, text = front ++ [last] :=
      ⟨_, _, (List.dropLast_concat_getLast hne).symm⟩
    simp only [write, h]
    rw [List.getLast?_append, List.getLast?_cons, getLast?_literalBody]
    simp
  simp [closing, ending, h, hlast]

theorem closing_of_other (h : style text ≠ .literal) : closing text = ['\n'] := by
  simp [closing, h]

namespace Layout

variable {l : Layout} {all tokens : List Token} {blocks : List Nat} {rest : List Char} {width : Nat}
  {c : Cursor}

/-- The token of a text that is written below a key. -/
def valueToken (text : List Char) : Token := .scalar text (style text = .plain)

/-- A value that is read with its step, up to the next line. -/
theorem Finishes.of_value_step {start : Char} {written : List Char}
    (hstart : Begins (start :: written)) (hc : c.rest = ' ' :: start :: written)
    (hblocks : ∀ column ∈ blocks.head?, column ≤ c.column) {l : Layout}
    (hstep : (between (c.skip 1) tokens blocks false).step? = some l)
    (hlength : l.cursor.rest.length < c.rest.length) (h : l.Finishes all) :
    (between c tokens blocks false).Finishes all := by
  have hspaced : (between c tokens blocks false).spaced = between (c.skip 1) tokens blocks false :=
    spaced_of_spaces hstart (show c.rest = List.replicate 1 ' ' ++ start :: written from hc)
  refine Finishes.of_step h hspaced (dropStale?_of_none rfl rfl) (closeBlocks_of_deeper ?_) ?_ hstep
    hlength
  · exact fun column hcolumn => Nat.le_succ_of_le (hblocks column hcolumn)
  · simp [between, Cursor.atEnd, hc]

theorem step?_of_quote {double : Bool} {token : Token} {c' : Cursor}
    (hc : c.rest = quote double :: rest) (hcolumn : 0 < c.column)
    (hread : quotedScalar? double c = some (token, c')) (tokens : List Token)
    (blocks : List Nat) :
    (between c tokens blocks false).step? = some (between c' (token :: tokens) blocks false) := by
  have hmark := Cursor.atDocumentMark_eq_false hcolumn
  cases double <;>
    simp [step?, between, hc, quote, hmark, word?, saveKey?, hread, push]

theorem step?_of_bar {token : Token} {c' : Cursor} (hc : c.rest = '|' :: rest)
    (hcolumn : 0 < c.column) (tokens : List Token) (blocks : List Nat)
    (hread : blockScalar? true blocks.head? c = some (token, c')) :
    (between c tokens blocks false).step? = some (between c' (token :: tokens) blocks true) := by
  have hmark := Cursor.atDocumentMark_eq_false hcolumn
  simp [step?, between, hc, hmark, inFlow, dropKey?, hread, push]

theorem step?_of_plainText {token : Token} {c' : Cursor} {broken : Bool}
    (hstart : startsPlain c.rest) (hcolumn : 0 < c.column) (tokens : List Token)
    (blocks : List Nat) (hread : plainScalar? false (between c tokens blocks false).contentColumn c
      = some (token, broken, c')) :
    (between c tokens blocks false).step? = some (between c' (token :: tokens) blocks broken) := by
  rw [step?_of_plain rfl (Cursor.atDocumentMark_eq_false hcolumn) hstart]
  simp only [between] at hread
  simp [plain?, saveKey?, between, inFlow, hread, push]

/-- A value between quotes is read, and the end of its line is passed over. -/
theorem Finishes.of_quoted {double : Bool} {body : List Char} (hquoted : Quoted double text body)
    (htext : c.rest = ' ' :: quote double :: (body ++ quote double :: '\n' ::
      (List.replicate width ' ' ++ rest))) (hrest : Begins rest)
    (hblocks : ∀ column ∈ blocks.head?, column ≤ c.column)
    (h : ∀ c' : Cursor, c'.rest = rest → c'.column = width →
      (between c' (.scalar text false :: tokens) blocks true).Finishes all) :
    (between c tokens blocks false).Finishes all := by
  have hskip : (c.skip 1).rest = quote double :: body ++ quote double :: '\n' ::
      (List.replicate width ' ' ++ rest) := by
    simp [htext]
  obtain ⟨c', hread, hrest'⟩ := hquoted.quotedScalar? (by simp) hskip
  have hstep := step?_of_quote hskip (Nat.succ_pos _) hread tokens blocks
  have hbegins : Begins (quote double :: (body ++ quote double :: '\n' ::
      (List.replicate width ' ' ++ rest))) := by
    cases double <;> simp [Begins, quote, isSpacing, isGap, isBreak]
  have hnext := spaced_of_break (l := between c' (.scalar text false :: tokens) blocks false) rfl
    hrest hrest'
  refine Finishes.of_value_step hbegins htext hblocks hstep ?_ ?_
  · simp [between, hrest', htext]
    omega
  · refine Finishes.of_spaced (h ((c'.nextLine 1).skip width) (by simp [hrest']) (by simp)) ?_ ?_
    · rw [hnext, spaced_of_begins (by simpa [between, hrest'] using hrest)]
      rfl
    · simp [between, hrest']
      omega

/-- A value is read as the text that was written, whatever that is. -/
theorem Finishes.of_value (htext : c.rest = ' ' :: (write text ++ (closing text
      ++ (List.replicate width ' ' ++ rest)))) (hrest : Begins rest) (hwidth : width < 3)
    (hcolumn : 2 ≤ c.column)
    (h : ∀ c' : Cursor, c'.rest = rest → c'.column = width →
      (between c' (valueToken text :: tokens) (2 :: blocks) true).Finishes all) :
    (between c tokens (2 :: blocks) false).Finishes all := by
  have hblocks : ∀ column ∈ (2 :: blocks).head?, column ≤ c.column := by simpa using hcolumn
  rw [valueToken] at h
  cases hstyle : style text with
  | plain =>
    have hplain := plainText_of_style hstyle
    rw [closing_of_other (by simp [hstyle]), write, hstyle] at htext
    simp only [hstyle, decide_true] at h
    have hskip : (c.skip 1).rest = text ++ '\n' :: (List.replicate width ' ' ++ rest) := by
      simp [htext]
    obtain ⟨c', hread, hrest', hcolumn'⟩ :=
      hplain.plainScalar? hrest.solid hwidth hskip (Nat.succ_le_succ hcolumn)
    obtain ⟨first, more, heq⟩ := List.exists_cons_of_ne_nil hplain.ne_nil
    have hstart := startsPlain_of_style hstyle ('\n' :: (List.replicate width ' ' ++ rest))
    have hbegins := begins_of_style hstyle ('\n' :: (List.replicate width ' ' ++ rest))
    have hstep := step?_of_plainText (hskip ▸ hstart) (Nat.succ_pos _) tokens (2 :: blocks) hread
    rw [heq] at hbegins htext
    refine Finishes.of_value_step hbegins htext hblocks hstep ?_ (h c' hrest' hcolumn')
    simp [between, hrest', htext]
    omega
  | single =>
    rw [closing_of_other (by simp [hstyle]), write, hstyle] at htext
    simp only [hstyle, reduceCtorEq, decide_false] at h
    exact Finishes.of_quoted (quoted_of_style hstyle) (by simpa [quote] using htext) hrest hblocks h
  | double =>
    rw [closing_of_other (by simp [hstyle]), write, hstyle] at htext
    simp only [hstyle, reduceCtorEq, decide_false] at h
    exact Finishes.of_quoted (quoted_double text) (by simpa [quote] using htext) hrest hblocks h
  | literal =>
    obtain ⟨hliteral, hne⟩ := literalText_of_style hstyle
    rw [closing_of_literal hstyle, write, hstyle] at htext
    simp only [List.cons_append, List.append_assoc] at htext
    simp only [hstyle, reduceCtorEq, decide_false] at h
    have hskip : (c.skip 1).rest = '|' :: (literalHeader text ++ '\n' :: (literalBody true text
        ++ (ending text ++ (List.replicate width ' ' ++ rest)))) := by
      rw [Cursor.skip_rest, htext, List.drop_succ_cons, List.drop_zero]
    obtain ⟨c', hread, hrest', hcolumn'⟩ :=
      hliteral.blockScalar? hne (Nat.lt_succ_of_lt hwidth) hrest.solid hskip
    have hstep := step?_of_bar hskip (Nat.succ_pos _) tokens (2 :: blocks) hread
    have hbegins : Begins ('|' :: (literalHeader text ++ '\n' :: (literalBody true text
        ++ (ending text ++ (List.replicate width ' ' ++ rest))))) := by
      simp [Begins, isSpacing, isGap, isBreak]
    refine Finishes.of_value_step hbegins htext hblocks hstep ?_
      (h c' hrest' hcolumn')
    simp [between, hrest', htext]
    omega

/-! ## Entries -/

/-- The tokens of an entry. -/
def entryTokens (entry : String × String) : List Token :=
  [.key, .scalar entry.1.toList true, .value, valueToken entry.2.toList]

theorem entry_eq (key text : String) :
    entry key text
      = key.toList ++ ':' :: ' ' :: (write text.toList ++ closing text.toList) := by
  simp [entry, closing]

theorem isAllowed_of_mem_entry {entry : String × String} (hkey : isKey entry.1.toList) :
    ∀ ch ∈ Scalar.entry entry.1 entry.2, isAllowed ch := by
  intro ch hch
  rw [entry_eq] at hch
  simp only [List.mem_append, List.mem_cons] at hch
  rcases hch with hch | rfl | rfl | hch | hch
  · have hchar := isKeyChar_of_isKey hkey ch hch
    simp only [isKeyChar, Bool.or_eq_true, decide_eq_true_eq] at hchar
    rcases hchar with hlower | rfl
    · obtain ⟨hlow, hhigh⟩ := Bool.and_eq_true_iff.1 hlower
      simp only [decide_eq_true_eq, ge_iff_le, UInt32.le_iff_toNat_le] at hlow hhigh
      have hspace : ' ' ≤ ch := by
        simp only [Char.le_def, UInt32.le_iff_toNat_le]
        exact Nat.le_trans (by decide) hlow
      have htilde : ch ≤ '~' := by
        simp only [Char.le_def, UInt32.le_iff_toNat_le]
        exact Nat.le_trans hhigh (by decide)
      simp [isAllowed, hspace, htilde]
    · rfl
  · rfl
  · rfl
  · exact isAllowed_of_mem_write hch
  · rw [closing] at hch
    split at hch
    · cases hch
    · rw [List.mem_singleton.1 hch]
      rfl

theorem intercalate_cons_cons (entry next : String × String) (entries : List (String × String)) :
    [' ', ' '].intercalate ((entry :: next :: entries).map fun (key, text) => Scalar.entry key text)
      = Scalar.entry entry.1 entry.2 ++ (' ' :: ' ' :: [' ', ' '].intercalate
          ((next :: entries).map fun (key, text) => Scalar.entry key text)) := by
  simp [List.intercalate]

theorem isAllowed_of_mem_entries {entries : List (String × String)}
    (hkeys : ∀ entry ∈ entries, isKey entry.1.toList) :
    ∀ ch ∈ [' ', ' '].intercalate (entries.map fun (key, text) => Scalar.entry key text),
      isAllowed ch := by
  induction entries with
  | nil => simp [List.intercalate]
  | cons entry entries ih =>
    obtain ⟨hkey, hkeys⟩ := List.forall_mem_cons.1 hkeys
    have hentry := isAllowed_of_mem_entry hkey
    cases entries with
    | nil => simpa [List.intercalate] using hentry
    | cons next entries =>
      have hmore := ih hkeys
      have hspace : isAllowed ' ' := rfl
      rw [intercalate_cons_cons]
      simp only [List.mem_append, List.mem_cons]
      rintro ch (hch | rfl | rfl | hch)
      · exact hentry ch hch
      · exact hspace
      · exact hspace
      · exact hmore ch hch

/-- An entry of a block mapping in the column 2 is read. The first one opens the block. -/
theorem Finishes.of_entry {entry : String × String} {blocks outer : List Nat}
    (hkey : isKey entry.1.toList)
    (hc : c.rest = Scalar.entry entry.1 entry.2 ++ (List.replicate width ' ' ++ rest))
    (hrest : Begins rest) (hwidth : width < 3) (hcolumn : c.column = 2)
    (hblocks : ∀ column ∈ blocks.head?, column ≤ 2) (houter : (opening 2 blocks).2 = 2 :: outer)
    (h : ∀ c' : Cursor, c'.rest = rest → c'.column = width →
      (between c' ((entryTokens entry).reverse ++ (opening 2 blocks).1 ++ tokens) (2 :: outer)
        true).Finishes all) :
    (between c tokens blocks true).Finishes all := by
  have hkeyrest : c.rest = entry.1.toList ++ ':' :: (' ' :: (write entry.2.toList
      ++ (closing entry.2.toList ++ (List.replicate width ' ' ++ rest)))) := by
    rw [hc, entry_eq]
    simp
  have hpos := List.length_pos_iff.2 (ne_nil_of_isKey hkey)
  refine Finishes.of_key hkey (by rfl) hkeyrest (hcolumn ▸ hblocks) ?_
  rw [hcolumn, houter]
  refine Finishes.of_value ?_ hrest hwidth ?_ h
  · rw [Cursor.skip_rest, hkeyrest]
    simp
  · simp [hcolumn]

theorem begins_of_entries {entries : List (String × String)} (hne : entries ≠ [])
    (hkeys : ∀ entry ∈ entries, isKey entry.1.toList) (rest : List Char) :
    Begins ([' ', ' '].intercalate (entries.map fun (key, text) => Scalar.entry key text) ++ rest) := by
  obtain ⟨entry, more, rfl⟩ := List.exists_cons_of_ne_nil hne
  have hkey := hkeys entry (List.mem_cons_self ..)
  cases more with
  | nil => simpa [List.intercalate, entry_eq] using begins_of_isKey hkey _
  | cons next more => simpa [List.intercalate, entry_eq] using begins_of_isKey hkey _

/-- All entries of a block mapping in the column 2, up to what follows in the first column. -/
theorem Finishes.of_entries {entries : List (String × String)} {blocks outer : List Nat}
    (hne : entries ≠ []) (hkeys : ∀ entry ∈ entries, isKey entry.1.toList)
    (hc : c.rest = [' ', ' '].intercalate (entries.map fun (key, text) => Scalar.entry key text)
      ++ rest)
    (hrest : Begins rest) (hcolumn : c.column = 2) (hblocks : ∀ column ∈ blocks.head?, column ≤ 2)
    (houter : (opening 2 blocks).2 = 2 :: outer)
    (h : ∀ c' : Cursor, c'.rest = rest → c'.column = 0 →
      (between c' ((entries.flatMap entryTokens).reverse ++ (opening 2 blocks).1 ++ tokens)
        (2 :: outer) true).Finishes all) :
    (between c tokens blocks true).Finishes all := by
  induction entries generalizing c tokens blocks with
  | nil => exact absurd rfl hne
  | cons entry entries ih =>
    obtain ⟨hkey, hkeys⟩ := List.forall_mem_cons.1 hkeys
    cases entries with
    | nil =>
      have hline : c.rest = Scalar.entry entry.1 entry.2 ++ (List.replicate 0 ' ' ++ rest) := by
        simpa [List.intercalate] using hc
      refine Finishes.of_entry hkey hline hrest (by decide) hcolumn hblocks houter ?_
      simpa using h
    | cons next entries =>
      have hline : c.rest = Scalar.entry entry.1 entry.2 ++ (List.replicate 2 ' ' ++
          ([' ', ' '].intercalate ((next :: entries).map fun (key, text) => Scalar.entry key text)
            ++ rest)) := by
        rw [hc, intercalate_cons_cons]
        simp
      have hopen : opening 2 (2 :: outer) = ([], 2 :: outer) := by simp [opening]
      refine Finishes.of_entry hkey hline (begins_of_entries (List.cons_ne_nil _ _) hkeys rest)
        (by decide) hcolumn hblocks houter fun c' hrest' hcolumn' => ?_
      refine ih (List.cons_ne_nil _ _) hkeys hrest' hcolumn' (by simp) (by rw [hopen]) ?_
      intro c'' hrest'' hcolumn''
      simpa [hopen] using h c'' hrest'' hcolumn''

end Layout

end StubManager.Yaml
