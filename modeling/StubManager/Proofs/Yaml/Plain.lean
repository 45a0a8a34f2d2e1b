import Mathlib.Data.List.Basic
import StubManager.Proofs.Yaml.Cursor
import StubManager.Yaml.Scalar

/-!
# Plain scalars

`PlainText` says what the plain style asks of a text. Such a text is read up to the end of its line
and on to what follows in a lesser column (`PlainText.plainScalar?`); a key is read up to its colon
(`plainScalar?_of_key`).
-/

namespace StubManager.Yaml

open Scalar

/-! ## Signs inside of a text -/

theorem hasInnerSign_append {xs ys : List Char} {spaced : Bool}
    (h : hasInnerSign spaced (xs ++ ys) = false) :
    hasInnerSign (xs.getLast?.elim spaced isSpacing) ys = false := by
  induction xs generalizing spaced with
  | nil => exact h
  | cons c xs ih =>
    rw [List.cons_append, hasInnerSign, Bool.or_eq_false_iff] at h
    cases xs with
    | nil => exact h.2
    | cons d xs =>
      have hlast := ih h.2
      rw [List.getLast?_cons_cons]
      rwa [List.getLast?_eq_some_getLast (List.cons_ne_nil d xs)] at hlast ⊢

theorem getLast?_ne_colon {xs ys : List Char} {spaced : Bool}
    (h : hasInnerSign spaced (xs ++ ys) = false) (hys : ys.head?.all isSpacing) :
    xs.getLast? ≠ some ':' := by
  induction xs generalizing spaced with
  | nil => simp
  | cons c xs ih =>
    rw [List.cons_append, hasInnerSign, Bool.or_eq_false_iff, Bool.or_eq_false_iff] at h
    cases xs with
    | nil =>
      rintro hc
      simp only [List.getLast?_singleton, Option.some.injEq] at hc
      simp [hc, hys] at h
    | cons d xs => simpa using ih h.2

/-! ## Words -/

/-- A word of a plain scalar: spacing and a colon end it, the colon before spacing. -/
structure PlainWord (word : List Char) : Prop where
  ne_nil : word ≠ []
  solid : ∀ ch ∈ word, isSpacing ch = false
  colon : word.getLast? ≠ some ':'
  hash : word.head? ≠ some '#'

/-- Where a word of a plain scalar ends. -/
def EndsPlainWord (rest : List Char) : Prop :=
  rest.head?.all isSpacing ∨ ∃ tail, rest = ':' :: tail ∧ tail.head?.all isSpacing

theorem plainWord?_cons {ch : Char} (hcolon : ch ≠ ':') (rest : List Char) :
    plainWord? false (ch :: rest)
      = if isSpacing ch then some 0 else (plainWord? false rest).map (· + 1) := by
  simp [plainWord?]

theorem plainWord?_of_word {word rest : List Char} (hsolid : ∀ ch ∈ word, isSpacing ch = false)
    (hcolon : word.getLast? ≠ some ':') (hrest : EndsPlainWord rest) :
    plainWord? false (word ++ rest) = some word.length := by
  induction word with
  | nil =>
    rcases hrest with hspacing | ⟨tail, rfl, hspacing⟩
    · cases rest with
      | nil => rfl
      | cons ch rest =>
        have hch : isSpacing ch := by simpa using hspacing
        have hcolon : ch ≠ ':' := by rintro rfl; cases hch
        rw [List.nil_append, plainWord?_cons hcolon, if_pos hch, List.length_nil]
    · simp [plainWord?, hspacing]
  | cons ch word ih =>
    obtain ⟨hch, hword⟩ := List.forall_mem_cons.1 hsolid
    have hlast : word.getLast? ≠ some ':' := by
      cases word with
      | nil => simp
      | cons d word => rwa [List.getLast?_cons_cons] at hcolon
    by_cases hsign : ch = ':'
    · obtain ⟨d, more, rfl⟩ : ∃ d more, word = d :: more := by
        cases word with
        | nil => exact absurd (by simp [hsign]) hcolon
        | cons d more => exact ⟨d, more, rfl⟩
      have hd : isSpacing d = false := (List.forall_mem_cons.1 hword).1
      have hmore := ih hword hlast
      subst hsign
      rw [List.cons_append] at hmore ⊢
      simp [plainWord?, hd, hmore]
    · rw [List.cons_append, plainWord?_cons hsign, hch, if_neg Bool.false_ne_true,
        ih hword hlast, Option.map_some, List.length_cons]

/-- What is read of a word and of the gap behind it. -/
theorem plainText?_of_word {word rest : List Char} (h : PlainWord word) (hend : EndsPlainWord rest)
    {c : Cursor} (hrest : c.rest = word ++ rest) (hmark : c.atDocumentMark = false)
    (fold : Fold) (indent fuel : Nat) :
    plainText? false indent (fuel + 1) fold c
      = if (c.skip word.length).next isSpacing then
          (Fold.read? indent (rest.length + 1) {} (c.skip word.length)).bind fun (fold', c) =>
            if c.column < indent then some (fold.text ++ word, fold'.broken, c)
            else (plainText? false indent fuel fold' c).map fun (more, broken, c) =>
              (fold.text ++ word ++ more, broken, c)
        else some (fold.text ++ word, false, c.skip word.length) := by
  obtain ⟨ch, more, rfl⟩ := List.exists_cons_of_ne_nil h.ne_nil
  have hhash : c.next (· = '#') = false := by
    rw [Cursor.next_cons hrest, decide_eq_false_iff_not]
    exact fun hch => h.hash (by simp [hch])
  have hlength := plainWord?_of_word h.solid h.colon hend
  have hskip := Cursor.skip_rest_append hrest
  have hne : (ch :: more).length ≠ 0 := Nat.succ_ne_zero _
  have htake : (ch :: more ++ rest).take (ch :: more).length = ch :: more := List.take_left
  have hfresh : ({} : Fold).broken = false := rfl
  simp only [plainText?, hmark, hhash, hrest, hlength, Bool.or_self, Bool.false_eq_true, if_false,
    Option.bind_eq_bind, Option.bind_some, Option.pure_def, hne, htake, hskip, hfresh]
  generalize (ch :: more).length = n
  cases hnext : (c.skip n).next isSpacing with
  | false => simp
  | true =>
    simp only [Bool.not_true, Bool.false_eq_true, if_false, if_true, Bool.not_false, true_and]
    cases (Fold.read? indent (rest.length + 1) {} (c.skip n)) with
    | none => rfl
    | some read =>
      simp only [Option.bind_some]
      split
      · rfl
      · cases plainText? false indent fuel read.1 read.2 <;> rfl

/-- A key is read up to its colon. -/
theorem plainScalar?_of_key {key rest : List Char} (hkey : PlainWord key)
    (hrest : rest.head?.all isSpacing) {c : Cursor} (h : c.rest = key ++ ':' :: rest)
    (hmark : c.atDocumentMark = false) (indent : Nat) :
    plainScalar? false indent c = some (.scalar key true, false, c.skip key.length) := by
  have hnext : (c.skip key.length).next isSpacing = false :=
    Cursor.next_cons (Cursor.skip_rest_append h) isSpacing
  have hread := plainText?_of_word hkey (.inr ⟨rest, rfl, hrest⟩) h hmark {} indent c.rest.length
  rw [hnext, if_neg Bool.false_ne_true] at hread
  simp [plainScalar?, hread, Fold.text]

/-! ## Texts -/

/-- What the plain style asks of a text: it has no spacing but spaces between words, and no sign that
would end it. -/
structure PlainText (text : List Char) : Prop where
  ne_nil : text ≠ []
  spaces : ∀ ch ∈ text, isSpacing ch → ch = ' '
  solid : Solid text
  last : text.getLast? ≠ some ' '
  signs : hasInnerSign true text = false

theorem PlainText.word_of_append {word rest : List Char} (h : PlainText (word ++ rest))
    (hne : word ≠ []) (hword : ∀ ch ∈ word, isSpacing ch = false)
    (hrest : rest.head?.all isSpacing) : PlainWord word where
  ne_nil := hne
  solid := hword
  colon := getLast?_ne_colon h.signs hrest
  hash := by
    have hsigns := h.signs
    cases word with
    | nil => simp
    | cons ch word =>
      rw [List.cons_append, hasInnerSign, Bool.or_eq_false_iff, Bool.or_eq_false_iff] at hsigns
      simpa using hsigns.1.2

/-- The rest of such a text behind a gap is one. -/
theorem PlainText.of_gap {word gap text : List Char} (h : PlainText (word ++ gap ++ text))
    (hgap : ∀ ch ∈ gap, ch = ' ') (hne : gap ≠ []) (htext : Solid text) : PlainText text where
  ne_nil := by
    rintro rfl
    refine h.last ?_
    rw [List.append_nil, List.getLast?_append, List.getLast?_eq_some_getLast hne, Option.some_or,
      hgap _ (List.getLast_mem hne)]
  spaces ch hch := h.spaces ch (List.mem_append_right _ hch)
  solid := htext
  last := by
    intro hlast
    exact h.last (by rw [List.getLast?_append, hlast, Option.some_or])
  signs := by
    have hsigns := hasInnerSign_append h.signs
    rw [List.getLast?_append, List.getLast?_eq_some_getLast hne, Option.some_or,
      hgap _ (List.getLast_mem hne)] at hsigns
    exact hsigns

/-- Such a text is read up to the end of its line, and on to what follows in a lesser column. -/
theorem PlainText.reads {text rest : List Char} (h : PlainText text) {column indent : Nat}
    (hrest : Solid rest) (hcolumn : column < indent) (fold : Fold) {fuel : Nat} {c : Cursor}
    (hc : c.rest = text ++ '\n' :: (List.replicate column ' ' ++ rest)) (hstart : indent ≤ c.column)
    (hfuel : text.length ≤ fuel) :
    ∃ c', plainText? false indent fuel fold c = some (fold.text ++ text, true, c') ∧
      c'.rest = rest ∧ c'.column = column := by
  have hmark : c.atDocumentMark = false := Cursor.atDocumentMark_eq_false (by omega)
  induction text using runs_induction (!isSpacing ·) generalizing fold fuel c with
  | run word hword =>
    have hsolid : ∀ ch ∈ word, isSpacing ch = false := fun ch hch => by simpa using hword ch hch
    have hend : EndsPlainWord ('\n' :: (List.replicate column ' ' ++ rest)) := .inl rfl
    have hplain : PlainWord word := (word.append_nil.symm ▸ h).word_of_append h.ne_nil hsolid rfl
    obtain ⟨fuel, rfl⟩ := Nat.exists_eq_add_one.2
      (Nat.lt_of_lt_of_le (List.length_pos_iff.2 h.ne_nil) hfuel)
    have hskip := Cursor.skip_rest_append hc
    have hline : (c.skip word.length).rest = '\n' :: [] ++ (List.replicate column ' ' ++ rest) := hskip
    obtain ⟨c', hread, hrest', hcolumn'⟩ : ∃ c', Fold.read? indent
        (('\n' :: (List.replicate column ' ' ++ rest)).length + 1) {} (c.skip word.length)
          = some ({ broken := true, first := ['\n'] }, c') ∧ c'.rest = rest ∧ c'.column = column :=
      Fold.read?_breaks rfl hline rfl (by simp) hrest (by simp; omega)
    refine ⟨c', ?_, hrest', hcolumn'⟩
    have hnext : (c.skip word.length).next isSpacing = true := Cursor.next_cons hskip isSpacing
    rw [plainText?_of_word hplain hend hc hmark, if_pos hnext, hread]
    simp [hcolumn', hcolumn]
  | gap word gap text hword hgap hne hhead ih =>
    have hsolid : ∀ ch ∈ word, isSpacing ch = false := fun ch hch => by simpa using hword ch hch
    have hspaces : ∀ ch ∈ gap, ch = ' ' := fun ch hch =>
      h.spaces ch (by simp [hch]) (by simpa using hgap ch hch)
    have htext : Solid text := fun ch hch => by simpa using hhead ch hch
    have hmore := h.of_gap hspaces hne htext
    obtain ⟨first, others, rfl⟩ := List.exists_cons_of_ne_nil hne
    have hfirst : isSpacing first := by simpa using hgap first (List.mem_cons_self ..)
    have hword' : word ≠ [] := by
      rintro rfl
      have hstart := h.solid first (by simp)
      rw [hfirst] at hstart
      cases hstart
    have hplain : PlainWord word :=
      (List.append_assoc word (first :: others) text ▸ h).word_of_append hword' hsolid (by simpa)
    rw [List.length_append, List.length_append, List.length_cons] at hfuel
    obtain ⟨fuel, rfl⟩ := Nat.exists_eq_add_one.2 (show 0 < fuel by omega)
    rw [List.append_assoc, List.append_assoc] at hc
    have hend : EndsPlainWord (first :: others ++
        (text ++ '\n' :: (List.replicate column ' ' ++ rest))) := .inl (by simpa)
    have hskip := Cursor.skip_rest_append hc
    have hnext : (c.skip word.length).next isSpacing = true := by
      rw [Cursor.next_cons hskip, hfirst]
    have hsolidRest : Solid (text ++ '\n' :: (List.replicate column ' ' ++ rest)) := by
      obtain ⟨ch, more, rfl⟩ := List.exists_cons_of_ne_nil hmore.ne_nil
      exact htext
    have hread : Fold.read? indent ((first :: others ++
          (text ++ '\n' :: (List.replicate column ' ' ++ rest))).length + 1) {} (c.skip word.length)
        = some ({ gaps := first :: others },
            (c.skip word.length).skip (first :: others).length) := by
      refine Fold.read?_gaps rfl hskip hspaces hsolidRest ?_
      simp only [List.length_append]
      omega
    have hbehind : ¬ c.column + word.length + (first :: others).length < indent := by omega
    obtain ⟨c', hmoreRead, hrest', hcolumn'⟩ := ih hmore ({ gaps := first :: others } : Fold)
      (Cursor.skip_rest_append hskip) (by simp only [Cursor.skip_column]; omega)
      (show text.length ≤ fuel by omega)
      (Cursor.atDocumentMark_eq_false (by simp only [Cursor.skip_column]; omega))
    refine ⟨c', ?_, hrest', hcolumn'⟩
    rw [plainText?_of_word hplain hend hc hmark, if_pos hnext, hread, Option.bind_some]
    change (if c.column + word.length + (first :: others).length < indent then _ else _) = _
    rw [if_neg hbehind, hmoreRead]
    simp [Fold.text]

theorem PlainText.plainScalar? {text rest : List Char} (h : PlainText text) {column indent : Nat}
    (hrest : Solid rest) (hcolumn : column < indent) {c : Cursor}
    (hc : c.rest = text ++ '\n' :: (List.replicate column ' ' ++ rest)) (hstart : indent ≤ c.column) :
    ∃ c', Yaml.plainScalar? false indent c = some (.scalar text true, true, c') ∧ c'.rest = rest ∧
      c'.column = column := by
  have hlength : text.length ≤ c.rest.length + 1 := by
    rw [hc, List.length_append]
    omega
  obtain ⟨c', hread, hend⟩ := h.reads hrest hcolumn {} hc hstart hlength
  refine ⟨c', ?_, hend⟩
  rw [Yaml.plainScalar?, hread]
  simp [Fold.text]

end StubManager.Yaml
