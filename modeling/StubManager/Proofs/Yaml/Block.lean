import StubManager.Proofs.Yaml.Cursor
import StubManager.Yaml.Scalar

/-!
# Literal blocks

A literal block below a mapping in the column 2 has its lines in the column 4. It is read line by
line (`blockText?_of_line`), and the sign behind its mark tells what the line breaks at its end mean
(`chompOf`). Main statement: `blockScalar?_of_literal`, a text is read as it was written.
-/

namespace StubManager.Yaml

open Scalar

/-! ## What the literal style writes -/

theorem literalBody_run {run : List Char} (hrun : ∀ ch ∈ run, isBreak ch = false) (hne : run ≠ [])
    (broken : Bool) (rest : List Char) :
    literalBody broken (run ++ rest)
      = (if broken then List.replicate 4 ' ' else []) ++ (run ++ literalBody false rest) := by
  induction run generalizing broken with
  | nil => exact absurd rfl hne
  | cons ch run ih =>
    obtain ⟨hch, hrun⟩ := List.forall_mem_cons.1 hrun
    cases run with
    | nil => simp [literalBody, hch, indent]
    | cons next run =>
      have hmore := ih hrun (List.cons_ne_nil _ _) false
      rw [List.cons_append, literalBody, hch, if_neg Bool.false_ne_true, hmore]
      simp [indent]

theorem literalBody_breaks {gap : List Char} (hgap : ∀ ch ∈ gap, isBreak ch) (hne : gap ≠ [])
    (broken : Bool) (rest : List Char) :
    literalBody broken (gap ++ rest) = gap ++ literalBody true rest := by
  induction gap generalizing broken with
  | nil => exact absurd rfl hne
  | cons ch gap ih =>
    obtain ⟨hch, hgap⟩ := List.forall_mem_cons.1 hgap
    cases gap with
    | nil => simp [literalBody, hch]
    | cons next gap => simp [literalBody, hch, ← ih hgap (List.cons_ne_nil _ _) true]

theorem literalBody_indent {ch : Char} (hch : isBreak ch = false) (rest : List Char) :
    literalBody true (ch :: rest) = List.replicate 4 ' ' ++ literalBody false (ch :: rest) := by
  simp [literalBody, hch, indent]

theorem getLast?_literalBody (front : List Char) (last : Char) (broken : Bool) :
    (literalBody broken (front ++ [last])).getLast? = some last := by
  induction front generalizing broken with
  | nil => by_cases hlast : isBreak last <;> cases broken <;> simp [literalBody, hlast, indent]
  | cons ch front ih =>
    rw [List.cons_append, literalBody]
    split
    · rw [List.getLast?_cons, ih, Option.getD_some]
    · rw [List.getLast?_append, List.getLast?_cons, ih, Option.getD_some, Option.some_or]

/-- What the line breaks at the end of a text ask for. -/
def chompOf (text : List Char) : Chomp :=
  match text.reverse with
  | [] => .strip
  | last :: before =>
    if !isBreak last then .strip else if before.head?.all isBreak then .keep else .clip

/-- The sign behind the mark of a block. -/
def Chomp.sign : Chomp → List Char
  | strip => ['-']
  | clip => []
  | keep => ['+']

theorem literalHeader_eq (text : List Char) :
    literalHeader text
      = (if text.head?.any fun c => c = ' ' || isBreak c then ['2'] else []) ++ (chompOf text).sign := by
  rw [literalHeader, chompOf]
  cases text.reverse with
  | nil => rfl
  | cons last before =>
    by_cases hlast : isBreak last
    · by_cases hbefore : before.head?.all isBreak <;> simp [hlast, hbefore, Chomp.sign]
    · simp [hlast, Chomp.sign]

theorem chompOf_line {line : List Char} (hline : ∀ ch ∈ line, isBreak ch = false) :
    chompOf line = .strip := by
  rw [chompOf]
  split
  · rfl
  · next last before heq =>
    have hmem : last ∈ line := by
      rw [← List.mem_reverse, heq]
      exact List.mem_cons_self
    simp [hline last hmem]

theorem chompOf_keep (front : List Char) {a b : Char} (ha : isBreak a) (hb : isBreak b) :
    chompOf (front ++ [a, b]) = .keep := by
  simp [chompOf, ha, hb]

theorem chompOf_breaks {gap : List Char} (hgap : ∀ ch ∈ gap, isBreak ch) (hne : gap ≠ []) :
    chompOf gap = .keep := by
  rcases List.eq_nil_or_concat gap with rfl | ⟨gap, last, rfl⟩
  · exact absurd rfl hne
  have hlast := hgap last (by simp)
  rcases List.eq_nil_or_concat gap with rfl | ⟨gap, previous, rfl⟩
  · simp [chompOf, hlast]
  · simpa using chompOf_keep gap (hgap previous (by simp)) hlast

theorem chompOf_gap {line breaks : List Char} {ch : Char} (hline : ∀ ch ∈ line, isBreak ch = false)
    (hne : line ≠ []) (hgap : ∀ x ∈ ch :: breaks, isBreak x) :
    chompOf (line ++ ch :: breaks) = if breaks.isEmpty then .clip else .keep := by
  have hch := hgap ch (List.mem_cons_self ..)
  rcases List.eq_nil_or_concat breaks with rfl | ⟨breaks, last, rfl⟩
  · obtain ⟨front, last, rfl⟩ : ∃ front last, line = front ++ [last] :=
      ⟨_, _, (List.dropLast_concat_getLast hne).symm⟩
    simp [chompOf, hch, hline last (by simp)]
  have hlast := hgap last (by simp)
  rcases List.eq_nil_or_concat breaks with rfl | ⟨breaks, previous, rfl⟩
  · exact chompOf_keep line hch hlast
  · have hkeep := chompOf_keep (line ++ ch :: breaks) (hgap previous (by simp)) hlast
    simpa using hkeep

theorem chompOf_append {front : List Char} {ch : Char} {text : List Char}
    (hch : isBreak ch = false) : chompOf (front ++ ch :: text) = chompOf (ch :: text) := by
  rcases List.eq_nil_or_concat text with rfl | ⟨text, last, rfl⟩
  · simp [chompOf, hch]
  rcases List.eq_nil_or_concat text with rfl | ⟨text, previous, rfl⟩
  · simp [chompOf, hch]
  · simp [chompOf]
    rfl

/-! ## Empty lines -/

/-- A text that does not go on with a break, nor with a tab. -/
def Stands (text : List Char) : Prop := ∀ ch ∈ text.head?, isBreak ch = false ∧ ch ≠ '\t'

theorem Solid.stands {text : List Char} (h : Solid text) : Stands text := by
  intro ch hch
  refine ⟨isBreak_eq_false (h ch hch), ?_⟩
  rintro rfl
  cases h _ hch

theorem Solid.head?_ne_space {text : List Char} (h : Solid text) : text.head? ≠ some ' ' :=
  fun hspace => by cases h ' ' hspace

theorem blockBreaks?_of_breaks {breaks rest : List Char} {width : Nat} (hrest : Stands rest)
    (hwidth : width = 4 ∨ width < 4 ∧ rest.head? ≠ some ' ') (hbreaks : ∀ ch ∈ breaks, isPlainBreak ch)
    {c : Cursor} (hcolumn : c.column = 0)
    (h : c.rest = breaks ++ (List.replicate width ' ' ++ rest)) {fuel : Nat}
    (hfuel : breaks.length < fuel) :
    ∃ widest c', blockBreaks? (some 4) fuel c = some (breaks, widest, c') ∧ c'.rest = rest ∧
      c'.column = width := by
  induction breaks generalizing c fuel with
  | nil =>
    obtain ⟨fuel, rfl⟩ := Nat.exists_eq_add_one.2 hfuel
    have hspaces : min (c.rest.takeWhile (· = ' ')).length (4 - c.column) = width := by
      rw [h, hcolumn, List.nil_append, List.takeWhile_append_of_pos (by simp), List.length_append,
        List.length_replicate]
      rcases hwidth with rfl | ⟨hwidth, hspace⟩
      · omega
      · have hnone : rest.takeWhile (· = ' ') = [] := by
          cases rest with
          | nil => rfl
          | cons ch rest => simp [show ch ≠ ' ' by simpa using hspace]
        rw [hnone, List.length_nil]
        omega
    have hskip : (c.skip width).rest = rest := by simp [h]
    have hbreak : (c.skip width).break? = none :=
      Cursor.break?_eq_none fun ch hch => (hrest ch (hskip ▸ hch)).1
    have htab : (c.skip width).next (· = '\t') = false := by
      rw [Cursor.next, hskip]
      cases rest with
      | nil => rfl
      | cons ch rest => simpa using (hrest ch rfl).2
    refine ⟨(c.skip width).column, c.skip width, ?_, hskip, by simp [hcolumn]⟩
    simp [blockBreaks?, hspaces, hbreak, htab]
  | cons ch breaks ih =>
    obtain ⟨fuel, rfl⟩ := Nat.exists_eq_add_one.2 (Nat.zero_lt_of_lt hfuel)
    obtain ⟨hch, hbreaks⟩ := List.forall_mem_cons.1 hbreaks
    have hspace : ch ≠ ' ' := by rintro rfl; cases hch
    have htab : c.next (· = '\t') = false := by
      rw [Cursor.next_cons h, decide_eq_false_iff_not]
      rintro rfl
      cases hch
    obtain ⟨widest, c', hread, hrest', hcolumn'⟩ := ih hbreaks (c := c.nextLine 1) rfl (by simp [h])
      (Nat.lt_of_succ_lt_succ hfuel)
    refine ⟨max c.column widest, c', ?_, hrest', hcolumn'⟩
    have hspaces : c.rest.takeWhile (· = ' ') = [] := by simp [h, hspace]
    simp [blockBreaks?, hspaces, htab, Cursor.break?_of_isPlainBreak h hch, hread]

/-- The first line of a block shows how deep the block is. -/
theorem blockBreaks?_of_first {rest : List Char} (hrest : Solid rest) {c : Cursor}
    (hcolumn : c.column = 0) (h : c.rest = List.replicate 4 ' ' ++ rest) (fuel : Nat) :
    blockBreaks? none (fuel + 1) c = some ([], 4, c.skip 4) := by
  have hskip : (c.skip 4).rest = rest := by simp [h]
  have hspaces : (c.rest.takeWhile (· = ' ')).length = 4 := by
    have hnone : rest.takeWhile (· = ' ') = [] := by
      cases rest with
      | nil => rfl
      | cons ch rest =>
        have hspace : ch ≠ ' ' := by rintro rfl; cases hrest _ rfl
        simp [hspace]
    rw [h, List.takeWhile_append_of_pos (by simp), hnone, List.append_nil, List.length_replicate]
  have htab : (c.skip 4).next (· = '\t') = false := by
    rw [Cursor.next, hskip]
    cases rest with
    | nil => rfl
    | cons ch rest =>
      have htab : ch ≠ '\t' := by rintro rfl; cases hrest _ rfl
      simpa using htab
  have hbreak : (c.skip 4).break? = none := Cursor.break?_of_solid (hskip ▸ hrest)
  simp [blockBreaks?, hspaces, htab, hbreak, hcolumn]

/-! ## Lines -/

/-- What is read of a line with the breaks and the indentation behind it. -/
theorem blockText?_of_line {line breaks rest : List Char} {ch : Char} {width : Nat}
    (hline : ∀ ch ∈ line, isBreak ch = false) (hne : line ≠ []) (hch : isPlainBreak ch)
    (hbreaks : ∀ ch ∈ breaks, isPlainBreak ch) (hrest : Stands rest)
    (hwidth : width = 4 ∨ width < 4 ∧ rest.head? ≠ some ' ') {c : Cursor} (hcolumn : c.column = 4)
    (h : c.rest = line ++ (ch :: (breaks ++ (List.replicate width ' ' ++ rest)))) :
    ∃ c', c'.rest = rest ∧ c'.column = width ∧ ∀ chomp fuel held before deeper,
      blockText? true chomp 4 (fuel + 1) held before deeper c
        = (blockText? true chomp 4 fuel [ch] breaks (c.next isGap) c').map fun (more, c) =>
            (held ++ before ++ line ++ more, c) := by
  have htake : c.rest.takeWhile (!isBreak ·) = line := by
    rw [h, List.takeWhile_append_of_pos (by simpa using hline),
      List.takeWhile_cons_of_neg (by simp [isBreak_of_isPlainBreak hch]), List.append_nil]
  have hskip := Cursor.skip_rest_append h
  have hbreak := Cursor.break?_of_isPlainBreak hskip hch
  have hafter : ((c.skip line.length).nextLine 1).rest
      = breaks ++ (List.replicate width ' ' ++ rest) := by
    rw [Cursor.nextLine_rest, hskip, List.drop_succ_cons, List.drop_zero]
  have hlength : breaks.length < ((c.skip line.length).nextLine 1).rest.length + 1 := by
    rw [hafter, List.length_append]
    omega
  obtain ⟨widest, c', hread, hrest', hcolumn'⟩ := blockBreaks?_of_breaks hrest hwidth hbreaks
    rfl hafter hlength
  refine ⟨c', hrest', hcolumn', fun chomp fuel held before deeper => ?_⟩
  have hend : c.atEnd = false := by
    obtain ⟨first, more, rfl⟩ := List.exists_cons_of_ne_nil hne
    simp [Cursor.atEnd, h]
  simp only [blockText?, hcolumn, hend, Cursor.takeWhile, htake, hbreak, Option.getD_some, hread]
  simp

/-- A block ends where a line starts in another column. -/
theorem blockText?_of_end {c : Cursor} (hcolumn : c.column ≠ 4) (chomp : Chomp) (fuel : Nat)
    (held before : List Char) (deeper : Bool) :
    blockText? true chomp 4 (fuel + 1) held before deeper c
      = some (match chomp with
          | .strip => []
          | .clip => held
          | .keep => held ++ before, c) := by
  cases chomp <;> simp [blockText?, hcolumn]

/-- What is written behind a block: a break if its text does not end with one. -/
def ending (text : List Char) : List Char := if text.getLast?.any isBreak then [] else ['\n']

theorem ending_append (front : List Char) (ch : Char) (text : List Char) :
    ending (front ++ ch :: text) = ending (ch :: text) := by
  rw [ending, ending, List.getLast?_append, List.getLast?_eq_some_getLast (List.cons_ne_nil ch text),
    Option.some_or]

/-- What the literal style asks of a text: the only breaks are those that stand for themselves, and
there is no tab. -/
structure LiteralText (text : List Char) : Prop where
  breaks : ∀ ch ∈ text, isBreak ch → isPlainBreak ch
  tabs : '\t' ∉ text

/-- The lines of a text are read as they were written. -/
theorem LiteralText.blockText? {text rest : List Char} (h : LiteralText text) (hne : text ≠ [])
    (hhead : ∀ ch ∈ text.head?, isBreak ch = false) {width : Nat} (hwidth : width < 4)
    (hrest : Solid rest) {c : Cursor} (hcolumn : c.column = 4)
    (hc : c.rest = literalBody false text ++ (ending text ++ (List.replicate width ' ' ++ rest)))
    {held before : List Char} {deeper : Bool} {fuel : Nat} (hfuel : text.length < fuel) :
    ∃ c', Yaml.blockText? true (chompOf text) 4 fuel held before deeper c
        = some (held ++ before ++ text, c') ∧ c'.rest = rest ∧ c'.column = width := by
  have hstands := hrest.stands
  have hspace := hrest.head?_ne_space
  induction text using runs_induction (!isBreak ·) generalizing held before deeper fuel c with
  | run line hline =>
    have hline : ∀ ch ∈ line, isBreak ch = false := fun ch hch => by simpa using hline ch hch
    have hending : ending line = ['\n'] := by
      rw [ending, List.getLast?_eq_some_getLast hne]
      simp [hline _ (List.getLast_mem hne)]
    have hbody : literalBody false line = line := by
      have hrun := literalBody_run hline hne false []
      simpa [literalBody] using hrun
    rw [hbody, hending] at hc
    obtain ⟨c', hrest', hcolumn', hread⟩ := blockText?_of_line hline hne rfl (by simp) hstands
      (.inr ⟨hwidth, hspace⟩) hcolumn (show c.rest = line ++ '\n' :: ([] ++ _) from hc)
    obtain ⟨fuel, rfl⟩ := Nat.exists_eq_add_of_le' (show 2 ≤ fuel by
      have hpos := List.length_pos_iff.2 hne
      omega)
    refine ⟨c', ?_, hrest', hcolumn'⟩
    rw [chompOf_line hline, hread, blockText?_of_end (by omega)]
    simp
  | gap line gap text hline hgap hgapne htext ih =>
    have hline : ∀ ch ∈ line, isBreak ch = false := fun ch hch => by simpa using hline ch hch
    have hgap : ∀ ch ∈ gap, isBreak ch := fun ch hch => by simpa using hgap ch hch
    have hplain : ∀ ch ∈ gap, isPlainBreak ch := fun ch hch => h.breaks ch (by simp [hch]) (hgap ch hch)
    have htext : ∀ ch ∈ text.head?, isBreak ch = false := fun ch hch => by simpa using htext ch hch
    have hlinene : line ≠ [] := by
      rintro rfl
      obtain ⟨ch, more, rfl⟩ := List.exists_cons_of_ne_nil hgapne
      have hfirst := hhead ch rfl
      rw [hgap ch (List.mem_cons_self ..)] at hfirst
      cases hfirst
    obtain ⟨ch, breaks, rfl⟩ := List.exists_cons_of_ne_nil hgapne
    obtain ⟨hch, hbreaks⟩ := List.forall_mem_cons.1 hplain
    have hbody : literalBody false (line ++ ch :: breaks ++ text)
        = line ++ (ch :: breaks ++ literalBody true text) := by
      rw [List.append_assoc, literalBody_run hline hlinene, literalBody_breaks hgap hgapne]
      rfl
    rw [hbody] at hc
    rw [List.length_append, List.length_append, List.length_cons] at hfuel
    cases text with
    | nil =>
      have hending : ending (line ++ ch :: breaks ++ []) = [] := by
        rw [ending, List.append_nil, List.getLast?_append, List.getLast?_eq_some_getLast hgapne]
        simp [hgap _ (List.getLast_mem hgapne)]
      obtain ⟨c', hrest', hcolumn', hread⟩ := blockText?_of_line hline hlinene hch hbreaks hstands
        (.inr ⟨hwidth, hspace⟩) hcolumn (by rw [hc, hending]; simp [literalBody])
      obtain ⟨fuel, rfl⟩ := Nat.exists_eq_add_of_le' (show 2 ≤ fuel by omega)
      refine ⟨c', ?_, hrest', hcolumn'⟩
      rw [List.append_nil, hread, blockText?_of_end (by omega), chompOf_gap hline hlinene hgap]
      cases breaks <;> simp
    | cons first more =>
      have hfirst : isBreak first = false := htext first rfl
      have htab : first ≠ '\t' := by
        rintro rfl
        exact h.tabs (by simp)
      have hmore : LiteralText (first :: more) :=
        ⟨fun ch hch => h.breaks ch (List.mem_append_right _ hch),
          fun hmem => h.tabs (List.mem_append_right _ hmem)⟩
      have hmoreBody : literalBody false (first :: more) = first :: literalBody false more := by
        simp [literalBody, hfirst]
      have hstands : Stands (literalBody false (first :: more)
          ++ (ending (first :: more) ++ (List.replicate width ' ' ++ rest))) := by
        simpa [hmoreBody, Stands] using ⟨hfirst, htab⟩
      rw [ending_append, literalBody_indent hfirst] at hc
      obtain ⟨c', hrest', hcolumn', hread⟩ := blockText?_of_line hline hlinene hch hbreaks hstands
        (.inl rfl) hcolumn (by simpa using hc)
      obtain ⟨fuel, rfl⟩ := Nat.exists_eq_add_one.2 (show 0 < fuel by omega)
      obtain ⟨last, hlast, hend⟩ := ih hmore (List.cons_ne_nil _ _) htext hcolumn' hrest'
        (show (first :: more).length < fuel by omega)
      refine ⟨last, ?_, hend⟩
      rw [hread, chompOf_append hfirst, hlast]
      simp

theorem length_le_literalBody (text : List Char) (broken : Bool) :
    text.length ≤ (literalBody broken text).length := by
  induction text generalizing broken with
  | nil => exact Nat.le_refl _
  | cons ch text ih =>
    have htrue := ih true
    have hfalse := ih false
    rw [literalBody]
    split <;> simp <;> omega

/-- All lines of a block behind the empty ones in front. -/
theorem LiteralText.blockText?_behind {text rest : List Char} (h : LiteralText text)
    (hne : text ≠ []) (hhead : ∀ ch ∈ text.head?, isBreak ch = false) {width : Nat}
    (hwidth : width < 4) (hrest : Solid rest) {c : Cursor} (hcolumn : c.column = 4)
    (hc : c.rest = literalBody false text ++ (ending text ++ (List.replicate width ' ' ++ rest)))
    (before : List Char) :
    ∃ c', Yaml.blockText? true (chompOf text) 4 (c.rest.length + 2) [] before false c
        = some (before ++ text, c') ∧ c'.rest = rest ∧ c'.column = width := by
  have hlength : text.length < c.rest.length + 2 := by
    have hle := length_le_literalBody text false
    rw [hc, List.length_append]
    omega
  exact h.blockText? hne hhead hwidth hrest hcolumn hc hlength

/-! ## The header -/

theorem blockHeader?_of_signs {deep : Bool} {chomp : Chomp} {rest : List Char} {c : Cursor}
    (h : c.rest = (if deep then ['2'] else []) ++ (chomp.sign ++ '\n' :: rest)) :
    ∃ c', blockHeader? c = some (chomp, if deep then some 2 else none, c') ∧
      c'.rest = '\n' :: rest := by
  cases deep <;> cases chomp <;>
    simp [blockHeader?, Cursor.next, h, Chomp.sign]

theorem endLine?_of_break {rest : List Char} {c : Cursor} (h : c.rest = '\n' :: rest) :
    c.endLine? = some (c.nextLine 1) := by
  have hgaps : c.skipWhile isGap = c := by simp [Cursor.skipWhile, Cursor.takeWhile, h, isGap]
  have hbreak := Cursor.break?_of_isPlainBreak h rfl
  simp [Cursor.endLine?, hgaps, Cursor.next_cons h, Cursor.atEnd, h, hbreak]

theorem blockScalar?_of_header {deep : Bool} {chomp : Chomp} {rest : List Char} {c : Cursor}
    (h : c.rest = '|' :: ((if deep then ['2'] else []) ++ (chomp.sign ++ '\n' :: rest))) :
    ∃ c', c'.rest = rest ∧ c'.column = 0 ∧ blockScalar? true (some 2) c
      = (blockBreaks? (if deep then some 4 else none) (rest.length + 1) c').bind
          fun (breaks, widest, c) =>
            (blockText? true chomp (if deep then 4 else max widest 3) (c.rest.length + 2) [] breaks
              false c).bind fun (text, c) => some (.scalar text false, c) := by
  have hskip : (c.skip 1).rest = (if deep then ['2'] else []) ++ (chomp.sign ++ '\n' :: rest) := by
    simp [h]
  obtain ⟨c', hread, hrest⟩ := blockHeader?_of_signs hskip
  refine ⟨c'.nextLine 1, by simp [hrest], rfl, ?_⟩
  rw [blockScalar?, hread]
  cases deep <;> simp [endLine?_of_break hrest, hrest]

/-- A block whose depth is given is read as its text. -/
theorem LiteralText.blockText?_of_deep {text rest : List Char} (h : LiteralText text) (hne : text ≠ [])
    {width : Nat} (hwidth : width < 4) (hrest : Solid rest) {c : Cursor} (hcolumn : c.column = 0)
    (hc : c.rest = literalBody true text ++ (ending text ++ (List.replicate width ' ' ++ rest))) :
    ∃ breaks widest c' c'', blockBreaks? (some 4) (c.rest.length + 1) c = some (breaks, widest, c') ∧
      Yaml.blockText? true (chompOf text) 4 (c'.rest.length + 2) [] breaks false c'
        = some (text, c'') ∧ c''.rest = rest ∧ c''.column = width := by
  have hsplit := List.takeWhile_append_dropWhile (p := isBreak) (l := text)
  have hgap : ∀ ch ∈ text.takeWhile isBreak, isBreak ch := fun ch hch =>
    List.all_eq_true.1 List.all_takeWhile ch hch
  have hhead := List.head?_dropWhile_not isBreak text
  generalize text.takeWhile isBreak = gap at hsplit hgap
  generalize text.dropWhile isBreak = body at hsplit hhead
  subst hsplit
  have hplain : ∀ ch ∈ gap, isPlainBreak ch := fun ch hch => h.breaks ch (by simp [hch]) (hgap ch hch)
  have hwhole : literalBody true (gap ++ body) = gap ++ literalBody true body := by
    cases gap with
    | nil => rfl
    | cons ch gap => exact literalBody_breaks hgap (List.cons_ne_nil _ _) true body
  rw [hwhole, List.append_assoc] at hc
  have hlength : gap.length < c.rest.length + 1 := by
    rw [hc, List.length_append]
    omega
  cases body with
  | nil =>
    have hne : gap ≠ [] := by simpa using hne
    have hlast := hgap _ (List.getLast_mem hne)
    have hending : ending (gap ++ []) = [] := by
      rw [ending, List.append_nil, List.getLast?_eq_some_getLast hne]
      simp [hlast]
    have hstands : Stands rest := hrest.stands
    obtain ⟨widest, c', hread, hrest', hcolumn'⟩ := blockBreaks?_of_breaks hstands
      (.inr ⟨hwidth, hrest.head?_ne_space⟩) hplain hcolumn (by rw [hc, hending]; rfl) hlength
    refine ⟨gap, widest, c', c', hread, ?_, hrest', hcolumn'⟩
    rw [List.append_nil, chompOf_breaks hgap hne, blockText?_of_end (by omega), List.nil_append]
  | cons ch body =>
    have hch : isBreak ch = false := by simpa using hhead
    have htab : ch ≠ '\t' := by
      rintro rfl
      exact h.tabs (by simp)
    have hmore : LiteralText (ch :: body) :=
      ⟨fun x hx => h.breaks x (List.mem_append_right _ hx),
        fun hmem => h.tabs (List.mem_append_right _ hmem)⟩
    have hstands : Stands (literalBody false (ch :: body)
        ++ (ending (ch :: body) ++ (List.replicate width ' ' ++ rest))) := by
      simpa [literalBody, hch, Stands] using htab
    rw [ending_append, literalBody_indent hch, List.append_assoc] at hc
    obtain ⟨widest, c', hread, hrest', hcolumn'⟩ := blockBreaks?_of_breaks hstands (.inl rfl) hplain
      hcolumn hc hlength
    obtain ⟨last, htext, hlast⟩ := hmore.blockText?_behind (List.cons_ne_nil _ _)
      (by simpa using hch) hwidth hrest hcolumn' hrest' gap
    exact ⟨gap, widest, c', last, hread, by rw [chompOf_append hch, htext], hlast⟩

/-- A literal block is read as its text. -/
theorem LiteralText.blockScalar? {text rest : List Char} (h : LiteralText text) (hne : text ≠ [])
    {width : Nat} (hwidth : width < 4) (hrest : Solid rest) {c : Cursor}
    (hc : c.rest = '|' :: (literalHeader text ++ '\n' :: (literalBody true text
      ++ (ending text ++ (List.replicate width ' ' ++ rest))))) :
    ∃ c', Yaml.blockScalar? true (some 2) c = some (.scalar text false, c') ∧ c'.rest = rest ∧
      c'.column = width := by
  rw [literalHeader_eq, List.append_assoc] at hc
  obtain ⟨c', hrest', hcolumn', hread⟩ := blockScalar?_of_header hc
  rw [hread, ← hrest']
  by_cases hdeep : text.head?.any fun c => c = ' ' || isBreak c
  · obtain ⟨breaks, widest, c'', last, hbreaks, htext, hlast⟩ :=
      h.blockText?_of_deep hne hwidth hrest hcolumn' hrest'
    refine ⟨last, ?_, hlast⟩
    simp only [hdeep, if_true, hbreaks, Option.bind_some, htext]
  · obtain ⟨ch, more, rfl⟩ := List.exists_cons_of_ne_nil hne
    simp only [List.head?_cons, Option.any_some, Bool.or_eq_true, decide_eq_true_eq, not_or,
      Bool.not_eq_true] at hdeep
    have hch : isSpacing ch = false := by
      have htab : ch ≠ '\t' := by
        rintro rfl
        exact h.tabs (by simp)
      simp [isSpacing, isGap, hdeep, htab]
    have hbody : literalBody false (ch :: more) = ch :: literalBody false more := by
      simp [literalBody, hdeep.2]
    rw [literalBody_indent hdeep.2, List.append_assoc] at hrest'
    have hsolid : Solid (literalBody false (ch :: more)
        ++ (ending (ch :: more) ++ (List.replicate width ' ' ++ rest))) := by
      simpa [hbody] using hch
    have hbreaks := blockBreaks?_of_first hsolid hcolumn' hrest' c'.rest.length
    obtain ⟨last, htext, hlast⟩ := h.blockText?_behind hne (by simpa using hdeep.2) hwidth hrest
      (show (c'.skip 4).column = 4 by simp [hcolumn']) (by simp [hrest']) []
    refine ⟨last, ?_, hlast⟩
    generalize c'.skip 4 = c'' at htext hbreaks
    simp [hdeep, hbreaks, htext]

end StubManager.Yaml
