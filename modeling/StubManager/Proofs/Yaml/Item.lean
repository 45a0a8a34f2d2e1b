import StubManager.Proofs.Yaml.Flow
import StubManager.Quoted

/-!
# Items of lists between brackets

An item of a list is between quotes or a plain word (`Item`). It is read as one scalar, with the gap
behind it (`AtToken.step?_of_item`).
-/

namespace StubManager.Yaml

open Scalar

/-- Whether what is written for a name in a list of this style is read as one scalar on one line: a
single quote is told apart by being written twice, but not by a backslash before it. -/
def IsReadable (style : QuoteStyle) (name : List Char) : Prop :=
  (∀ ch ∈ name, isPrintable ch ∧ isBreak ch = false) ∧ (style = .single → '\'' ∉ name)

/-- A word that is a scalar between brackets without quotes. -/
structure IsWord (text : List Char) : Prop where
  inside : ∀ ch ∈ text, isSpacing ch = false ∧ isFlowSign ch = false ∧ ch ≠ ':'
  head : ∃ ch ∈ text.head?, Layout.isSign ch = false ∧ ch ≠ '.' ∧ ch ≠ '\ufeff'

/-- How an item of a list is written that is read as a scalar. -/
inductive Item : List Char → Prop where
  | literal {style : QuoteStyle} {name : List Char} (h : IsReadable style name) :
      Item (style.encode name)
  | word {text : List Char} (h : IsWord text) : Item text

/-! ### Literals -/

theorem escaped_of_line {ch : Char} (hprintable : isPrintable ch) (hline : isBreak ch = false) :
    escaped ch = if ch = '\\' ∨ ch = '"' then ['\\', ch] else [ch] := by
  by_cases hslash : ch = '\\'
  · rw [hslash]
    rfl
  by_cases hquote : ch = '"'
  · rw [hquote]
    rfl
  have hletter : escapeLetter? ch = none := by
    unfold escapeLetter?
    split <;> first
      | rfl
      | exact absurd hprintable (by decide)
      | exact absurd hline (by decide)
      | exact absurd rfl hslash
      | exact absurd rfl hquote
  simp [escaped, hletter, hprintable, hslash, hquote]

theorem singleBody_of_line {text : List Char} (h : ∀ ch ∈ text, isBreak ch = false ∧ ch ≠ '\'') :
    singleBody false text = text := by
  induction text with
  | nil => rfl
  | cons ch text ih =>
    rw [List.forall_mem_cons] at h
    simp [singleBody, h.1, ih h.2]

theorem hasPair_eq_false {p q : Char → Bool} {text : List Char}
    (h : ∀ a b, a ∈ text → b ∈ text → (p a && q b) = false) : hasPair p q text = false := by
  induction text with
  | nil => rfl
  | cons a text ih =>
    cases text with
    | nil => rfl
    | cons b text =>
      have htail : hasPair p q (b :: text) = false := ih fun x y hx hy =>
        h x y (List.mem_cons_of_mem _ hx) (List.mem_cons_of_mem _ hy)
      rw [hasPair, h a b (by simp) (by simp), htail]
      rfl

theorem escape_double {name : List Char} (h : ∀ ch ∈ name, isPrintable ch ∧ isBreak ch = false) :
    QuoteStyle.double.escape name = name.flatMap escaped := by
  induction name with
  | nil => rfl
  | cons ch name ih =>
    rw [List.forall_mem_cons] at h
    rw [QuoteStyle.escape, List.flatMap_cons, escaped_of_line h.1.1 h.1.2, ih h.2]
    by_cases hsign : ch = '\\' ∨ ch = '"'
    · rw [if_pos hsign]
      exact if_pos hsign
    · rw [if_neg hsign]
      exact if_neg hsign

/-- What is written between the quotes is read as a text. -/
theorem IsReadable.quoted {style : QuoteStyle} {name : List Char} (h : IsReadable style name) :
    ∃ text, Quoted (style = .double) text (style.escape name) ∧
      quote (style = .double) = style.mark := by
  obtain ⟨hline, hquote⟩ := h
  cases style with
  | double =>
    exact ⟨name, escape_double hline ▸ quoted_double name, rfl⟩
  | single =>
    have hescape : ∀ ch ∈ QuoteStyle.single.escape name,
        isPrintable ch ∧ isBreak ch = false ∧ ch ≠ '\'' := by
      intro ch hch
      rcases QuoteStyle.mem_escape hch with hmem | rfl
      · exact ⟨(hline ch hmem).1, (hline ch hmem).2, fun heq => hquote rfl (heq ▸ hmem)⟩
      · exact ⟨rfl, rfl, by decide⟩
    have hbody := singleBody_of_line fun ch hch => (hescape ch hch).2
    have hsame : Quoted false (QuoteStyle.single.escape name)
        (singleBody false (QuoteStyle.single.escape name)) := by
      refine quoted_single (fun ch hch => (hescape ch hch).1) ?_ ?_ ?_
      · exact fun hmem => absurd (hescape _ hmem).2.1 (by decide)
      · exact hasPair_eq_false fun a b _ hb => by simp [(hescape b hb).2.1]
      · exact hasPair_eq_false fun a b ha _ => by simp [(hescape a ha).2.1]
    exact ⟨_, hbody ▸ hsame, rfl⟩

/-! ### Words -/

/-- Spacing without tabs is read, and what follows it does not matter. -/
theorem Fold.read?_of_spacing {gap rest : List Char} (hgap : ∀ ch ∈ gap, isSpacing ch)
    (htab : '\t' ∉ gap) (hrest : Solid rest) {c : Cursor} (h : c.rest = gap ++ rest) {fuel : Nat}
    (hfuel : gap.length ≤ fuel) (fold : Fold) (indent : Nat) :
    ∃ fold' c', fold.read? indent fuel c = some (fold', c') ∧ c'.rest = rest := by
  induction fuel generalizing gap c fold with
  | zero =>
    obtain rfl := List.length_eq_zero_iff.1 (Nat.le_zero.1 hfuel)
    exact ⟨fold, c, rfl, h⟩
  | succ fuel ih =>
    cases gap with
    | nil => exact ⟨fold, c, read?_of_solid (by rwa [h]) fold indent _, h⟩
    | cons ch gap =>
      rw [List.forall_mem_cons] at hgap
      rw [List.mem_cons, not_or] at htab
      have hle : gap.length ≤ fuel := Nat.le_of_succ_le_succ hfuel
      by_cases hbreak : isBreak ch
      · obtain ⟨text, c', hread, -, hnext⟩ := Cursor.exists_of_break h hbreak
        obtain ⟨gap', hgap', htab', hrest', hle'⟩ : ∃ gap', (∀ ch ∈ gap', isSpacing ch) ∧
            '\t' ∉ gap' ∧ c'.rest = gap' ++ rest ∧ gap'.length ≤ fuel := by
          rcases hnext with hnext | hnext
          · exact ⟨gap, hgap.2, htab.2, hnext, hle⟩
          · cases gap with
            | nil => exact absurd (hrest '\n' (by rw [show rest = _ from hnext]; rfl)) (by decide)
            | cons x gap =>
              obtain ⟨rfl, hmore⟩ := List.cons.inj hnext
              rw [List.mem_cons, not_or] at htab
              exact ⟨gap, (List.forall_mem_cons.1 hgap.2).2, htab.2.2, hmore.symm,
                Nat.le_of_succ_le hle⟩
        rw [read?, hread]
        dsimp only
        split <;> exact ih hgap' htab' hrest' hle' _
      · have hspace : ch = ' ' := by
          have hch := hgap.1
          simp only [isSpacing, isGap, Bool.or_eq_true, decide_eq_true_eq] at hch
          exact (hch.resolve_right hbreak).resolve_right fun heq => htab.1 heq.symm
        subst hspace
        rw [read?_space h]
        exact ih hgap.2 htab.2 (by rw [Cursor.skip_rest, h]; rfl) hle _

theorem plainWord?_of_isWord {word rest : List Char}
    (hword : ∀ ch ∈ word, isSpacing ch = false ∧ isFlowSign ch = false ∧ ch ≠ ':')
    (hrest : ∃ ch ∈ rest.head?, ch ≠ ':' ∧ (isSpacing ch ∨ isFlowSign ch)) :
    plainWord? true (word ++ rest) = some word.length := by
  induction word with
  | nil =>
    obtain ⟨ch, hch, hcolon, hend⟩ := hrest
    obtain ⟨more, rfl⟩ := List.head?_eq_some_iff.1 hch
    rcases hend with hend | hend <;> simp [plainWord?, hend]
  | cons ch word ih =>
    rw [List.forall_mem_cons] at hword
    simp [plainWord?, hword.1, ih hword.2]

/-- A comment, a comma and the closing bracket end a plain scalar. -/
theorem plainText?_of_end {ch : Char} {rest : List Char} {c : Cursor} (h : c.rest = ch :: rest)
    (hch : ch = '#' ∨ ch = ',' ∨ ch = ']') (indent fuel : Nat) (fold : Fold) :
    plainText? true indent (fuel + 1) fold c = some ([], fold.broken, c) := by
  rcases hch with rfl | rfl | rfl
  · have hhash : c.next (· = '#') = true := Cursor.next_cons h _
    simp [plainText?, hhash]
  all_goals
    have hmark := Layout.atDocumentMark_of_sign h (by decide) (by decide)
    have hhash : c.next (· = '#') = false := Cursor.next_cons h _
    have hnext : c.next isSpacing = false := Cursor.next_cons h _
    simp [plainText?, hmark, hhash, h, plainWord?, isSpacing, isGap, isBreak, isFlowSign, hnext]

/-- A clean gap is spacing, and a comment behind it perhaps. -/
theorem CleanGap.exists_spacing {gap : List Char} (h : CleanGap gap) :
    ∃ spacing more, gap = spacing ++ more ∧ (∀ ch ∈ spacing, isSpacing ch) ∧ FlowGap more ∧
      (more = [] ∨ more.head? = some '#' ∧ spacing ≠ []) := by
  have hsplit := List.takeWhile_append_dropWhile (p := isSpacing) (l := gap)
  have hspacing : ∀ ch ∈ gap.takeWhile isSpacing, isSpacing ch :=
    fun ch hch => List.all_eq_true.1 List.all_takeWhile ch hch
  have hnot := List.head?_dropWhile_not isSpacing gap
  have hhead := h.head
  refine ⟨_, _, hsplit.symm, hspacing, ?_, ?_⟩
  · have hgap := h.isFlowGap
    rw [← hsplit, FlowGap, List.foldlM_append, FlowGap.of_spacing hspacing] at hgap
    exact hgap
  · have hgap := h.isFlowGap
    rw [← hsplit, FlowGap, List.foldlM_append, FlowGap.of_spacing hspacing] at hgap
    cases hmore : gap.dropWhile isSpacing with
    | nil => exact .inl rfl
    | cons ch more =>
      rw [hmore] at hgap hnot
      have hch : isSpacing ch = false := by simpa using hnot
      have hhash : ch = '#' := by
        by_contra hne
        simp [gapStep, hch, hne] at hgap
      refine .inr ⟨by rw [hhash]; rfl, fun hnil => h.head ?_⟩
      rw [← hsplit, hnil, hmore, hhash]
      rfl

/-- What is read of a word between brackets and of the spacing behind it. -/
theorem IsWord.plainText? {word rest : List Char} (h : IsWord word)
    (hend : ∃ ch ∈ rest.head?, ch ≠ ':' ∧ (isSpacing ch ∨ isFlowSign ch)) {c : Cursor}
    (hc : c.rest = word ++ rest) (indent fuel : Nat) :
    Yaml.plainText? true indent (fuel + 1) {} c
      = if (c.skip word.length).next isSpacing then
          (Fold.read? indent (rest.length + 1) {} (c.skip word.length)).bind fun (fold, c) =>
            (Yaml.plainText? true indent fuel fold c).map fun (more, broken, c) =>
              (word ++ more, broken, c)
        else some (word, false, c.skip word.length) := by
  obtain ⟨ch, hch, hstart, hdot, -⟩ := h.head
  obtain ⟨others, rfl⟩ := List.head?_eq_some_iff.1 hch
  have hfirst : c.rest = ch :: (others ++ rest) := hc
  have hsign : ∀ other, Layout.isSign other → ch ≠ other := by
    rintro other hother rfl
    rw [hother] at hstart
    cases hstart
  have hmark := Layout.atDocumentMark_of_sign hfirst (hsign '-' rfl) hdot
  have hhash : c.next (· = '#') = false := by
    rw [Cursor.next_cons hfirst, decide_eq_false_iff_not]
    exact hsign '#' rfl
  have hlength : plainWord? true c.rest = some (ch :: others).length :=
    hc ▸ plainWord?_of_isWord h.inside hend
  have hskip := Cursor.skip_rest_append hc
  have hne : (ch :: others).length ≠ 0 := Nat.succ_ne_zero _
  have htake : c.rest.take (ch :: others).length = ch :: others := by rw [hc, List.take_left]
  have htext : ({} : Fold).text = [] := rfl
  simp only [Yaml.plainText?, hmark, hhash, hlength, Bool.or_self, Bool.false_eq_true, if_false,
    Option.bind_eq_bind, Option.bind_some, Option.pure_def, hne, htake, htext, List.nil_append,
    hskip]
  generalize (ch :: others).length = n
  cases (c.skip n).next isSpacing with
  | false => rfl
  | true =>
    simp only [Bool.not_true, Bool.false_eq_true, if_false, if_true, false_and]
    cases Fold.read? indent (rest.length + 1) {} (c.skip n) with
    | none => rfl
    | some read =>
      simp only [Option.bind_some]
      cases Yaml.plainText? true indent fuel read.1 read.2 <;> rfl

/-- A word is read as a plain scalar, with the spacing behind it. -/
theorem IsWord.plainScalar? {word gap rest : List Char} (h : IsWord word) (hgap : CleanGap gap)
    (hrest : rest.head? = some ',' ∨ rest.head? = some ']') {c : Cursor}
    (hc : c.rest = word ++ (gap ++ rest)) (indent : Nat) :
    ∃ broken c' gap', Yaml.plainScalar? true indent c = some (.scalar word true, broken, c') ∧
      FlowGap gap' ∧ c'.rest = gap' ++ rest := by
  obtain ⟨spacing, more, rfl, hspacing, hmore, hcomment⟩ := hgap.exists_spacing
  rw [List.append_assoc] at hc
  -- Behind the spacing there is a sign that ends the scalar.
  obtain ⟨sign, tail, hlast, hsign⟩ : ∃ sign tail, more ++ rest = sign :: tail ∧
      (sign = '#' ∧ spacing ≠ [] ∨ sign = ',' ∨ sign = ']') := by
    rcases hcomment with rfl | ⟨hhash, hne⟩
    · rcases hrest with hrest | hrest
      · obtain ⟨tail, rfl⟩ := List.head?_eq_some_iff.1 hrest
        exact ⟨_, _, rfl, .inr (.inl rfl)⟩
      · obtain ⟨tail, rfl⟩ := List.head?_eq_some_iff.1 hrest
        exact ⟨_, _, rfl, .inr (.inr rfl)⟩
    · obtain ⟨words, rfl⟩ := List.head?_eq_some_iff.1 hhash
      exact ⟨_, _, rfl, .inl ⟨rfl, hne⟩⟩
  have hskip := Cursor.skip_rest_append hc
  cases hspaces : spacing with
  | nil =>
    obtain ⟨hflow, hcolon, hspace⟩ : isFlowSign sign ∧ sign ≠ ':' ∧ isSpacing sign = false := by
      rcases hsign with ⟨-, hne⟩ | rfl | rfl
      · exact absurd hspaces hne
      · exact ⟨rfl, by decide, rfl⟩
      · exact ⟨rfl, by decide, rfl⟩
    rw [hspaces, List.nil_append] at hc hskip
    have hnext : (c.skip word.length).next isSpacing = false := by
      rw [Cursor.next_cons (hskip.trans hlast), hspace]
    have hread := h.plainText? (by rw [hlast]; exact ⟨sign, rfl, hcolon, .inr hflow⟩) hc indent
      c.rest.length
    rw [hnext, if_neg Bool.false_ne_true] at hread
    refine ⟨false, _, more, ?_, hmore, hskip⟩
    rw [Yaml.plainScalar?, hread]
    rfl
  | cons first spaces =>
    have hspace : isSpacing first := hspacing first (by simp [hspaces])
    have hcolon : first ≠ ':' := by
      rintro rfl
      cases hspace
    have hfirst : spacing ++ (more ++ rest) = first :: (spaces ++ (more ++ rest)) := by
      rw [hspaces, List.cons_append]
    have hnext : (c.skip word.length).next isSpacing = true := by
      rw [Cursor.next_cons (hskip.trans hfirst), hspace]
    have htab : '\t' ∉ spacing := fun htab => hgap.tab (List.mem_append_left _ htab)
    have hend : sign = '#' ∨ sign = ',' ∨ sign = ']' := hsign.imp_left And.left
    have hsolid : Solid (more ++ rest) := by
      rw [hlast, solid_cons]
      rcases hend with rfl | rfl | rfl <;> rfl
    obtain ⟨fold, c', hfold, hrest'⟩ := Fold.read?_of_spacing hspacing htab hsolid hskip
      (show spacing.length ≤ (spacing ++ (more ++ rest)).length + 1 by simp; omega) {} indent
    obtain ⟨fuel, hfuel⟩ : ∃ fuel, c.rest.length = fuel + 1 :=
      Nat.exists_eq_add_one.2 (List.length_pos_iff.2 (by rw [hc, hfirst]; simp))
    have hread := h.plainText? (by rw [hfirst]; exact ⟨first, rfl, hcolon, .inl hspace⟩) hc indent
      (fuel + 1)
    rw [hnext, if_pos rfl, hfold, Option.bind_some] at hread
    dsimp only at hread
    rw [plainText?_of_end (hrest'.trans hlast) hend, Option.map_some, List.append_nil] at hread
    refine ⟨fold.broken, c', more, ?_, hmore, hrest'⟩
    rw [Yaml.plainScalar?, hfuel, hread]
    rfl

/-! ### Tokens of items -/

namespace Layout

variable {l : Layout} {rest : List Char}

/-- What is known of the place behind a scalar. -/
theorem InList.behind {c : Cursor} {key : Option KeyStart} {gap : List Char} (h : l.InList)
    (hkey : key.any (·.required) = false) (hindex : l.cursor.index ≤ c.index)
    (hgap : FlowGap gap) (hrest : c.rest = gap ++ rest) (keyAllowed : Bool) (token : Token) :
    Inside (push token { l with cursor := c, keyStart := key, keyAllowed }) rest where
  outer := h.outer
  optional := hkey
  count := congrArg (· + 1) h.count
  index := Nat.lt_of_lt_of_le h.index hindex
  gap := ⟨gap, hgap, hrest⟩

theorem AtToken.step?_of_literal {style : QuoteStyle} {name gap : List Char}
    (h : l.AtToken (style.encode name ++ (gap ++ rest))) (hname : IsReadable style name)
    (hgap : FlowGap gap) (hrest : rest.head? = some ',' ∨ rest.head? = some ']') :
    ∃ l' text, l.step? = some l' ∧ l'.Inside rest ∧ l'.tokens = .scalar text false :: l.tokens ∧
      l'.blocks = l.blocks := by
  obtain ⟨text, hquoted, hmark⟩ := hname.quoted
  have htext : l.cursor.rest = quote (style = .double) :: style.escape name
      ++ quote (style = .double) :: (gap ++ rest) := by
    rw [h.rest, hmark, QuoteStyle.encode]
    simp
  have hnext : (gap ++ rest).head? ≠ some '\'' := by
    intro hhead
    cases gap with
    | nil =>
      rw [List.nil_append] at hhead
      rcases hrest with hrest | hrest <;> simp [hhead] at hrest
    | cons ch gap =>
      obtain rfl : ch = '\'' := by simpa using hhead
      cases hgap
  obtain ⟨c, hread, hc⟩ := hquoted.quotedScalar? (fun _ => hnext) htext
  obtain ⟨key, hkey, hoptional⟩ := h.saveKey?
  have hindex : l.cursor.index ≤ c.index := Shifts.index_le (fun _ _ _ => quotedScalar?_shift _) hread
  have hmark' : l.cursor.atDocumentMark = false := by
    cases style <;> exact atDocumentMark_of_sign htext (by decide) (by decide)
  have hstep : l.step? = l.word? false (quotedScalar? (style = .double) l.cursor) := by
    cases style <;> simp [step?, htext, quote, hmark']
  refine ⟨_, text, ?_, h.behind hoptional hindex hgap hc false (.scalar text false), rfl, rfl⟩
  rw [hstep, word?, hkey, hread]
  rfl

theorem AtToken.step?_of_word {word gap : List Char} (h : l.AtToken (word ++ (gap ++ rest)))
    (hword : IsWord word) (hgap : CleanGap gap)
    (hrest : rest.head? = some ',' ∨ rest.head? = some ']') :
    ∃ l', l.step? = some l' ∧ l'.Inside rest ∧ l'.tokens = .scalar word true :: l.tokens ∧
      l'.blocks = l.blocks := by
  obtain ⟨broken, c, gap', hread, hgap', hc⟩ :=
    hword.plainScalar? hgap hrest h.rest l.contentColumn
  obtain ⟨key, hkey, hoptional⟩ := h.saveKey?
  have hindex : l.cursor.index ≤ c.index :=
    (shifts_plainScalar? true l.contentColumn).index_le (a := (.scalar word true, broken))
      (by rw [hread]; rfl)
  have hstep : l.step? = l.plain? := by
    obtain ⟨ch, hch, hstart, hdot, -⟩ := hword.head
    obtain ⟨others, rfl⟩ := List.head?_eq_some_iff.1 hch
    have hfirst : l.cursor.rest = ch :: (others ++ (gap ++ rest)) := h.rest
    have hspacing := (hword.inside ch (List.mem_cons_self ..)).1
    have hsign : ∀ other, isSign other → ch ≠ other := by
      rintro other hother rfl
      rw [hother] at hstart
      cases hstart
    have hmark := atDocumentMark_of_sign hfirst (hsign '-' rfl) hdot
    simp [step?, hfirst, hmark, hspacing, hstart, hsign '%' rfl, hsign '[' rfl, hsign '\x7b' rfl,
      hsign ']' rfl, hsign '\x7d' rfl, hsign ',' rfl, hsign '-' rfl, hsign '?' rfl, hsign ':' rfl,
      hsign '*' rfl, hsign '&' rfl, hsign '!' rfl, hsign '|' rfl, hsign '>' rfl, hsign '\'' rfl,
      hsign '"' rfl]
  have hflow : Layout.inFlow { l with keyStart := key } = true := h.inFlow
  have hcolumn : Layout.contentColumn { l with keyStart := key } = l.contentColumn := rfl
  refine ⟨_, ?_, h.behind hoptional hindex hgap' hc broken (.scalar word true), rfl, rfl⟩
  rw [hstep, plain?, hkey]
  simp only [Option.bind_eq_bind, Option.bind_some, hflow, hcolumn, hread]
  rfl

/-- An item of a list is read as one scalar. -/
theorem AtToken.step?_of_item {item gap : List Char} (h : l.AtToken (item ++ (gap ++ rest)))
    (hitem : Item item) (hgap : CleanGap gap)
    (hrest : rest.head? = some ',' ∨ rest.head? = some ']') :
    ∃ l', ∃ scalar : List Char × Bool, l.step? = some l' ∧ l'.Inside rest ∧
      l'.tokens = .scalar scalar.1 scalar.2 :: l.tokens ∧ l'.blocks = l.blocks := by
  cases hitem with
  | literal hname =>
    obtain ⟨l', text, hstep⟩ := h.step?_of_literal hname hgap.isFlowGap hrest
    exact ⟨l', (text, false), hstep⟩
  | word hword =>
    obtain ⟨l', hstep⟩ := h.step?_of_word hword hgap hrest
    exact ⟨l', (item, true), hstep⟩

end Layout

theorem IsReadable.begins {style : QuoteStyle} (name rest : List Char) :
    Layout.Begins (style.encode name ++ rest) := by
  cases style <;> simp [Layout.Begins, QuoteStyle.encode, QuoteStyle.mark, isSpacing, isGap, isBreak]

theorem Item.begins {item : List Char} (h : Item item) (rest : List Char) :
    Layout.Begins (item ++ rest) := by
  cases h with
  | literal => exact IsReadable.begins _ rest
  | word h =>
    obtain ⟨ch, hch, hstart, -, hmark⟩ := h.head
    obtain ⟨others, rfl⟩ := List.head?_eq_some_iff.1 hch
    rintro _ ⟨⟩
    refine ⟨(h.inside ch (List.mem_cons_self ..)).1, ?_, hmark⟩
    rintro rfl
    cases hstart

end StubManager.Yaml
