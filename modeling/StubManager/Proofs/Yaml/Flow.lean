import StubManager.Proofs.Yaml.Quoted
import StubManager.Proofs.Yaml.Raising

/-!
# Lists between brackets

A list of scalars between brackets is read item by item. Between its tokens there are gaps
(`FlowGap`), which are passed over whatever lines they take.
-/

namespace StubManager.Yaml

/-! ## Gaps -/

/-- Whether a comment is open behind one character more of a gap. -/
def gapStep (comment : Bool) (ch : Char) : Option Bool :=
  if comment then some (!isBreak ch)
  else if isSpacing ch then some false
  else if ch = '#' then some true
  else none

/-- Spacing, and comments up to the ends of their lines. -/
def FlowGap (gap : List Char) : Prop := gap.foldlM gapStep false = some false

instance : DecidablePred FlowGap := fun gap =>
  inferInstanceAs (Decidable (gap.foldlM gapStep false = some false))

/-- A gap that can stand behind a plain scalar. -/
structure CleanGap (gap : List Char) : Prop where
  isFlowGap : FlowGap gap
  tab : '\t' ∉ gap
  head : gap.head? ≠ some '#'

namespace FlowGap

variable {gap front back : List Char} {ch : Char}

theorem nil : FlowGap [] := rfl

theorem append (h : FlowGap front) (h' : FlowGap back) : FlowGap (front ++ back) := by
  rw [FlowGap, List.foldlM_append, h]
  exact h'

theorem cons_iff (hch : isSpacing ch) : FlowGap (ch :: gap) ↔ FlowGap gap := by
  simp [FlowGap, gapStep, hch]

theorem of_spacing (h : ∀ ch ∈ gap, isSpacing ch) : FlowGap gap := by
  induction gap with
  | nil => exact nil
  | cons ch gap ih =>
    rw [List.forall_mem_cons] at h
    exact (cons_iff h.1).2 (ih h.2)

/-- Behind a line feed no comment is open. -/
theorem of_append_break (h : FlowGap (front ++ '\n' :: back)) :
    FlowGap (front ++ ['\n']) ∧ FlowGap back := by
  rw [FlowGap, List.foldlM_append] at h
  rw [FlowGap, FlowGap, List.foldlM_append]
  cases hfront : front.foldlM gapStep false with
  | none => simp [hfront] at h
  | some comment =>
    rw [hfront] at h
    have hbreak : gapStep comment '\n' = some false := by cases comment <;> rfl
    simpa [hbreak] using h

/-- A comment goes on to the end of its line. -/
theorem exists_break (h : gap.foldlM gapStep true = some false) :
    ∃ words ch more, gap = words ++ ch :: more ∧ (∀ x ∈ words, isBreak x = false) ∧ isBreak ch ∧
      FlowGap more := by
  induction gap with
  | nil => cases h
  | cons ch gap ih =>
    cases hbreak : isBreak ch with
    | true =>
      refine ⟨[], ch, gap, rfl, by simp, hbreak, ?_⟩
      simpa [gapStep, hbreak, FlowGap] using h
    | false =>
      obtain ⟨words, last, more, rfl, hwords, hlast⟩ := ih (by simpa [gapStep, hbreak] using h)
      exact ⟨ch :: words, last, more, rfl, List.forall_mem_cons.2 ⟨hbreak, hwords⟩, hlast⟩

/-- A gap lies on one line, or has a line in front that ends with a break. -/
theorem cases_line (h : FlowGap gap) :
    (∀ x ∈ gap, isGap x) ∨ ∃ blanks words ch more, gap = blanks ++ (words ++ ch :: more) ∧
      (∀ x ∈ blanks, isGap x) ∧ (words = [] ∨ words.head? = some '#') ∧
      (∀ x ∈ words, isBreak x = false) ∧ isBreak ch ∧ FlowGap more := by
  induction gap with
  | nil => exact .inl (by simp)
  | cons ch gap ih =>
    by_cases hgap : isGap ch
    · have hspacing : isSpacing ch := by simp [isSpacing, hgap]
      obtain hblank | ⟨blanks, words, last, more, rfl, hblanks, hmore⟩ := ih ((cons_iff hspacing).1 h)
      · exact .inl (List.forall_mem_cons.2 ⟨hgap, hblank⟩)
      · exact .inr ⟨ch :: blanks, words, last, more, rfl, List.forall_mem_cons.2 ⟨hgap, hblanks⟩,
          hmore⟩
    · refine .inr ?_
      by_cases hbreak : isBreak ch
      · refine ⟨[], [], ch, gap, rfl, by simp, .inl rfl, by simp, hbreak, ?_⟩
        exact (cons_iff (isSpacing_of_isBreak hbreak)).1 h
      · have hspacing : isSpacing ch = false := by simp [isSpacing, hgap, hbreak]
        have hhash : ch = '#' := by
          by_contra hne
          simp [FlowGap, gapStep, hspacing, hne] at h
        subst hhash
        have hopen : gap.foldlM gapStep true = some false := h
        obtain ⟨words, last, more, rfl, hwords, hlast⟩ := exists_break hopen
        exact ⟨[], '#' :: words, last, more, rfl, by simp, .inr rfl,
          List.forall_mem_cons.2 ⟨by simpa using hbreak, hwords⟩, hlast⟩

end FlowGap

theorem isGap_of_isBreak {ch : Char} (h : isBreak ch) : isGap ch = false ∧ ch ≠ '#' := by
  simp only [isBreak, Bool.or_eq_true, decide_eq_true_eq] at h
  rcases h with (((rfl | rfl) | rfl) | rfl) | rfl <;> exact ⟨rfl, by decide⟩

namespace Cursor

variable {c : Cursor} {run rest : List Char}

theorem skipWhile_of_run {p : Char → Bool} (h : c.rest = run ++ rest) (hrun : ∀ x ∈ run, p x)
    (hrest : ∀ x ∈ rest.head?, p x = false) : c.skipWhile p = c.skip run.length := by
  have hnone : rest.takeWhile p = [] := by
    cases rest with
    | nil => rfl
    | cons x rest => exact List.takeWhile_cons_of_neg (by simp [hrest x rfl])
  rw [skipWhile, takeWhile, h, List.takeWhile_append_of_pos hrun, hnone, List.append_nil]

/-- Behind a line break. A carriage return takes a line feed behind it along. -/
theorem exists_of_break {ch : Char} (h : c.rest = ch :: rest) (hbreak : isBreak ch) :
    ∃ text c', c.break? = some (text, c') ∧ c'.column = 0 ∧
      (c'.rest = rest ∨ rest = '\n' :: c'.rest) := by
  rw [break?]
  split
  · next more hrest =>
    rw [h] at hrest
    obtain ⟨-, rfl⟩ := List.cons.inj hrest
    exact ⟨_, _, rfl, rfl, .inr (by rw [nextLine_rest, h]; rfl)⟩
  · next first more _ hrest =>
    rw [h] at hrest
    obtain ⟨rfl, rfl⟩ := List.cons.inj hrest
    have hone : (c.nextLine 1).rest = rest := by rw [nextLine_rest, h]; rfl
    split
    · exact ⟨_, _, rfl, rfl, .inl hone⟩
    · exact ⟨_, _, rfl, rfl, .inl hone⟩
  · next hrest =>
    rw [h] at hrest
    cases hrest

end Cursor

namespace Layout

variable {l : Layout} {c : Cursor} {rest : List Char}

/-- The cursor behind the gaps and the comment at the end of a line. -/
theorem skipComment_of_line {blanks words : List Char} (h : c.rest = blanks ++ (words ++ rest))
    (hblanks : ∀ x ∈ blanks, isGap x) (hwords : words = [] ∨ words.head? = some '#')
    (hline : ∀ x ∈ words, isBreak x = false) (hrest : ∀ x ∈ rest.head?, isGap x = false ∧ x ≠ '#')
    (hbreak : words ≠ [] → ∀ x ∈ rest.head?, isBreak x) :
    skipComment true c = c.skip (blanks ++ words).length := by
  have hskip := Cursor.skip_rest_append h
  have hgap : ∀ x ∈ (words ++ rest).head?, isGap x = false := by
    rcases hwords with rfl | hhash
    · exact fun x hx => (hrest x hx).1
    · intro x hx
      rw [List.head?_append, hhash, Option.some_or, Option.mem_some_iff] at hx
      exact hx ▸ rfl
  have hblank : c.skipWhile (fun ch => ch = ' ' || (true && ch = '\t')) = c.skip blanks.length :=
    Cursor.skipWhile_of_run h hblanks hgap
  rw [skipComment, hblank, List.length_append, ← Cursor.skip_skip]
  rcases hwords with rfl | hhash
  · have hnext : (c.skip blanks.length).next (· = '#') = false := by
      rw [Cursor.next, hskip, List.nil_append]
      cases rest with
      | nil => rfl
      | cons x rest => simpa using (hrest x rfl).2
    simp [hnext]
  · obtain ⟨more, rfl⟩ := List.head?_eq_some_iff.1 hhash
    have hnext : (c.skip blanks.length).next (· = '#') = true := Cursor.next_cons hskip _
    rw [if_pos hnext]
    refine Cursor.skipWhile_of_run hskip (by simpa using hline) fun x hx => ?_
    simpa using hbreak (List.cons_ne_nil _ _) x hx

/-- Between brackets a gap is passed over. -/
theorem skipSpacing_of_flowGap {gap : List Char} (hflow : l.inFlow) (hindex : 0 < l.cursor.index)
    (hgap : FlowGap gap) (hrest : Begins rest) (h : l.cursor.rest = gap ++ rest) {fuel : Nat}
    (hfuel : gap.length < fuel) :
    ∃ c, l.skipSpacing fuel = { l with cursor := c } ∧ c.rest = rest ∧ 0 < c.index := by
  induction fuel generalizing l gap with
  | zero => cases hfuel
  | succ fuel ih =>
    have htabs : (l.inFlow || !l.keyAllowed) = true := by rw [hflow, Bool.true_or]
    rw [skipSpacing_succ (.inl hindex), htabs]
    obtain hblank | ⟨blanks, words, ch, more, rfl, hblanks, hwords, hline, hch, hmore⟩ := hgap.cases_line
    · have hskip : skipComment true l.cursor = l.cursor.skip gap.length := by
        have hline : l.cursor.rest = gap ++ ([] ++ rest) := h
        rw [skipComment_of_line hline hblank (.inl rfl) (by simp) ?_ (by simp), List.append_nil]
        exact fun x hx => ⟨isGap_eq_false (hrest x hx).1, (hrest x hx).2.1⟩
      have hend : (l.cursor.skip gap.length).rest = rest := Cursor.skip_rest_append h
      have hbreak : (l.cursor.skip gap.length).break? = none :=
        Cursor.break?_of_solid (hend ▸ hrest.solid)
      rw [hskip, hbreak]
      exact ⟨_, rfl, hend, Nat.lt_add_right _ hindex⟩
    · rw [List.append_assoc, List.append_assoc, List.cons_append] at h
      have hskip : skipComment true l.cursor = l.cursor.skip (blanks ++ words).length := by
        refine skipComment_of_line h hblanks hwords hline ?_ ?_
        · rintro _ ⟨⟩
          exact isGap_of_isBreak hch
        · rintro - _ ⟨⟩
          exact hch
      have hend : (l.cursor.skip (blanks ++ words).length).rest = ch :: (more ++ rest) :=
        Cursor.skip_rest_append (by rw [h, List.append_assoc])
      obtain ⟨text, c, hbreak, -, hnext⟩ := Cursor.exists_of_break hend hch
      have hlength : more.length < fuel := by
        simp only [List.length_append, List.length_cons] at hfuel
        omega
      obtain ⟨gap, hgap, hrest', hle⟩ : ∃ gap, FlowGap gap ∧ c.rest = gap ++ rest ∧
          gap.length ≤ more.length := by
        rcases hnext with hnext | hnext
        · exact ⟨more, hmore, hnext, Nat.le_refl _⟩
        · cases more with
          | nil => exact absurd (hrest '\n' (by rw [show rest = _ from hnext]; rfl)).1 (by decide)
          | cons x more =>
            obtain ⟨rfl, hmore'⟩ := List.cons.inj hnext
            exact ⟨more, (FlowGap.cons_iff rfl).1 hmore, hmore'.symm, Nat.le_succ _⟩
      have hindex' : 0 < c.index := by
        refine Nat.lt_of_lt_of_le ?_ (index_le_of_break? hbreak)
        exact Nat.lt_add_right _ hindex
      rw [hskip, hbreak]
      obtain ⟨c', hmoreSkip, hend'⟩ := ih
        (l := { l with cursor := c, keyAllowed := l.keyAllowed || !l.inFlow }) hflow hindex' hgap
        hrest' (Nat.lt_of_le_of_lt hle hlength)
      refine ⟨c', hmoreSkip.trans ?_, hend'⟩
      rw [hflow, Bool.not_true, Bool.or_false]

/-! ## One token after another -/

/-- The place of the next token. -/
def token? (l : Layout) : Option Layout := l.spaced.dropStale?.map outdented

/-- The place behind the next token, if there is one. -/
def next? (l : Layout) : Option Layout :=
  l.token?.bind fun l => if l.cursor.atEnd then none else l.step?

/-- The place behind `n` tokens. -/
def run? : (n : Nat) → Layout → Option Layout
  | 0, l => some l
  | n + 1, l => l.next?.bind (run? n)

theorem finish?_eq_token? (l : Layout) (fuel : Nat) :
    l.finish? (fuel + 1) = l.token?.bind (proceed? fuel) := by
  rw [finish?_eq_resume?, resume?, token?, Option.bind_map]
  rfl

theorem finish?_of_next? {l l' : Layout} (h : l.next? = some l') (fuel : Nat) :
    l.finish? (fuel + 1) = l'.finish? fuel := by
  obtain ⟨place, hplace, hstep⟩ := Option.bind_eq_some_iff.1 h
  have hmore : place.cursor.atEnd = false := by
    by_contra hend
    simp [hend] at hstep
  rw [hmore, if_neg Bool.false_ne_true] at hstep
  rw [finish?_eq_token?, hplace, Option.bind_some, proceed?, hmore, if_neg Bool.false_ne_true,
    hstep, Option.bind_some]

theorem run?_add (m n : Nat) (l : Layout) : run? (m + n) l = (run? m l).bind (run? n) := by
  induction m generalizing l with
  | zero => rw [Nat.zero_add, run?, Option.bind_some]
  | succ m ih =>
    rw [Nat.succ_add, run?, run?, Option.bind_assoc]
    exact congrArg _ (funext ih)

theorem finish?_of_run? {n : Nat} {l l' : Layout} (h : run? n l = some l') (fuel : Nat) :
    l.finish? (n + fuel) = l'.finish? fuel := by
  induction n generalizing l with
  | zero =>
    cases h
    rw [Nat.zero_add]
  | succ n ih =>
    obtain ⟨l₁, hnext, hrun⟩ := Option.bind_eq_some_iff.1 h
    rw [Nat.succ_add, finish?_of_next? hnext, ih hrun]

/-- A text that is read through is read from each place on its way. -/
theorem exists_of_run? {n fuel : Nat} {l l' : Layout} {tokens : List Token}
    (h : run? n l = some l') (hfinish : l.finish? fuel = some tokens) :
    ∃ more, fuel = n + more ∧ l'.finish? more = some tokens := by
  induction n generalizing l fuel with
  | zero =>
    cases h
    exact ⟨fuel, (Nat.zero_add fuel).symm, hfinish⟩
  | succ n ih =>
    obtain ⟨l₁, hnext, hrun⟩ := Option.bind_eq_some_iff.1 h
    cases fuel with
    | zero => cases hfinish
    | succ fuel =>
      rw [finish?_of_next? hnext] at hfinish
      obtain ⟨more, rfl, hmore⟩ := ih hrun hfinish
      exact ⟨more, (Nat.succ_add n more).symm, hmore⟩

/-! ## Inside of a list -/

/-- A place in a list between brackets that are not between others. -/
structure InList (l : Layout) : Prop where
  outer : l.outer = [none]
  /-- No key has to be there. -/
  optional : l.keyStart.any (·.required) = false
  count : l.count = l.tokens.length
  index : 0 < l.cursor.index

/-- Such a place with a gap before what is left of the text. -/
structure Inside (l : Layout) (rest : List Char) : Prop extends l.InList where
  gap : ∃ gap, FlowGap gap ∧ l.cursor.rest = gap ++ rest

/-- Such a place at its next token. -/
structure AtToken (l : Layout) (rest : List Char) : Prop extends l.InList where
  rest : l.cursor.rest = rest

theorem InList.inFlow (h : l.InList) : l.inFlow := by
  rw [Layout.inFlow, h.outer]
  rfl

theorem AtToken.inside (h : l.AtToken rest) : l.Inside rest :=
  ⟨h.toInList, [], .nil, h.rest⟩

theorem Inside.of_gap {gap : List Char} (h : l.Inside (gap ++ rest)) (hgap : FlowGap gap) :
    l.Inside rest := by
  obtain ⟨hlist, front, hfront, hrest⟩ := h
  exact ⟨hlist, front ++ gap, hfront.append hgap, by rw [hrest, List.append_assoc]⟩

/-- A key that need not be there is given up or stays. -/
theorem freshKey?_of_optional {key : Option KeyStart} (h : key.any (·.required) = false) (c : Cursor) :
    ∃ key', freshKey? c key = some key' ∧ key'.any (·.required) = false := by
  cases key with
  | none => exact ⟨none, rfl, rfl⟩
  | some key =>
    have hoptional : key.required = false := h
    rw [freshKey?]
    split
    · exact ⟨none, by rw [hoptional, if_neg Bool.false_ne_true], rfl⟩
    · exact ⟨some key, rfl, h⟩

/-- Behind the gap in a list there is its next token. -/
theorem Inside.token? (h : l.Inside rest) (hrest : Begins rest) :
    ∃ place, l.token? = some place ∧ place.AtToken rest ∧ place.tokens = l.tokens ∧
      place.blocks = l.blocks := by
  obtain ⟨hlist, gap, hgap, htext⟩ := h
  have hfuel : gap.length < l.cursor.rest.length + 1 := by
    rw [htext, List.length_append]
    omega
  obtain ⟨c, hspaced, hc, hindex⟩ :=
    skipSpacing_of_flowGap hlist.inFlow hlist.index hgap hrest htext hfuel
  obtain ⟨key, hkey, hoptional⟩ := freshKey?_of_optional hlist.optional c
  have hfresh : l.spaced.dropStale? = some { l with cursor := c, keyStart := key } := by
    rw [spaced, hspaced, dropStale?_eq]
    simp only [hkey, hlist.outer, Option.bind_some]
    cases l
    cases hlist.outer
    rfl
  have hinner : Layout.inFlow { l with cursor := c, keyStart := key } := hlist.inFlow
  refine ⟨{ l with cursor := c, keyStart := key }, ?_,
    ⟨⟨hlist.outer, hoptional, hlist.count, hindex⟩, hc⟩, rfl, rfl⟩
  rw [Layout.token?, hfresh, Option.map_some, outdented, closeBlocks, if_pos hinner]

/-! ### Signs -/

theorem dropKey?_of_optional (h : l.keyStart.any (·.required) = false) :
    l.dropKey? = some { l with keyStart := none } := by
  rw [dropKey?, h, if_neg Bool.false_ne_true]

theorem InList.saveKey? (h : l.InList) :
    ∃ key, l.saveKey? = some { l with keyStart := key } ∧ key.any (·.required) = false := by
  rw [Layout.saveKey?]
  split
  · rw [dropKey?_of_optional h.optional]
    have hflow : Layout.inFlow { l with keyStart := none } := h.inFlow
    exact ⟨_, rfl, by simp [hflow]⟩
  · exact ⟨l.keyStart, rfl, h.optional⟩

theorem atDocumentMark_of_sign {ch : Char} (h : c.rest = ch :: rest) (hhyphen : ch ≠ '-')
    (hdot : ch ≠ '.') : c.atDocumentMark = false := by
  simp [Cursor.atDocumentMark, h, hhyphen, hdot]

theorem AtToken.step?_of_comma (h : l.AtToken (',' :: rest)) :
    ∃ l', l.step? = some l' ∧ l'.AtToken rest ∧ l'.tokens = .flowEntry :: l.tokens ∧
      l'.blocks = l.blocks := by
  have hmark := atDocumentMark_of_sign h.rest (by decide) (by decide)
  refine ⟨({ l with keyStart := none, keyAllowed := true } : Layout).sign .flowEntry 1, ?_,
    ⟨⟨h.outer, rfl, congrArg (· + 1) h.count, Nat.lt_add_right 1 h.index⟩, ?_⟩, rfl, rfl⟩
  · simp [step?, h.rest, hmark, dropKey?_of_optional h.optional]
  · change (l.cursor.skip 1).rest = rest
    rw [Cursor.skip_rest, h.rest]
    rfl

theorem AtToken.step?_of_close (h : l.AtToken (']' :: rest)) :
    l.step? = some (between (l.cursor.skip 1) (.flowSequenceEnd :: l.tokens) l.blocks false) := by
  have hmark := atDocumentMark_of_sign h.rest (by decide) (by decide)
  simp [step?, h.rest, hmark, closeBracket?, dropKey?_of_optional h.optional, h.outer, between,
    sign, push, h.count]

/-- A list begins where a value of a key is expected. -/
theorem step?_of_open {tokens : List Token} {blocks : List Nat} (h : c.rest = '[' :: rest) :
    ∃ l', (between c tokens blocks false).step? = some l' ∧ l'.AtToken rest ∧
      l'.tokens = .flowSequenceStart :: tokens ∧ l'.blocks = blocks := by
  have hmark := atDocumentMark_of_sign h (by decide) (by decide)
  refine ⟨({ between c tokens blocks false with outer := [none], keyAllowed := true } : Layout).sign
    .flowSequenceStart 1, ?_, ⟨⟨rfl, rfl, rfl, Nat.succ_pos _⟩, ?_⟩, rfl, rfl⟩
  · simp [step?, between, h, hmark, openBracket?, saveKey?]
  · change (c.skip 1).rest = rest
    rw [Cursor.skip_rest, h]
    rfl

end Layout

end StubManager.Yaml
