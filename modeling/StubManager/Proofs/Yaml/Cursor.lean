import StubManager.Yaml.Token

/-!
# Moving a cursor

What single steps of a cursor come to when the characters before it are known, and what a fold reads
of gaps (`Fold.read?_gaps`) and of line breaks with the indentation behind them
(`Fold.read?_breaks`).
-/

namespace StubManager.Yaml

/-- The line breaks that stand for themselves in every scalar, where they count at all. -/
def isPlainBreak (c : Char) : Bool := c = '\n' || c = '\u2028' || c = '\u2029'

theorem isBreak_of_isPlainBreak {c : Char} (h : isPlainBreak c) : isBreak c := by
  simp only [isPlainBreak, Bool.or_eq_true, decide_eq_true_eq] at h
  rcases h with (rfl | rfl) | rfl <;> rfl

theorem isSpacing_of_isBreak {c : Char} (h : isBreak c) : isSpacing c := by
  simp [isSpacing, h]

@[simp] theorem isSpacing_space : isSpacing ' ' := rfl

theorem isGap_eq_false {c : Char} (h : isSpacing c = false) : isGap c = false :=
  (Bool.or_eq_false_iff.1 h).1

theorem isBreak_eq_false {c : Char} (h : isSpacing c = false) : isBreak c = false :=
  (Bool.or_eq_false_iff.1 h).2

/-- A text that goes on with something else than spacing, if it goes on. -/
def Solid (text : List Char) : Prop := ∀ c ∈ text.head?, isSpacing c = false

@[simp] theorem solid_nil : Solid [] := by simp [Solid]

@[simp] theorem solid_cons {c : Char} {text : List Char} :
    Solid (c :: text) ↔ isSpacing c = false := by simp [Solid]

/-- A text is a run of characters of one kind, or such a run, others behind it and the rest, which
does not start with one of the others. -/
theorem runs_induction (p : Char → Bool) {motive : List Char → Prop}
    (run : ∀ run, (∀ ch ∈ run, p ch) → motive run)
    (gap : ∀ run gap text, (∀ ch ∈ run, p ch) → (∀ ch ∈ gap, p ch = false) → gap ≠ [] →
      (∀ ch ∈ text.head?, p ch) → motive text → motive (run ++ gap ++ text))
    (text : List Char) : motive text := by
  have hsplit := List.takeWhile_append_dropWhile (p := p) (l := text)
  cases hrest : text.dropWhile p with
  | nil =>
    rw [hrest, List.append_nil] at hsplit
    exact run text fun ch hch => List.all_eq_true.1 List.all_takeWhile ch (hsplit.symm ▸ hch)
  | cons first rest =>
    have hfirst : p first = false := by
      have h := List.head?_dropWhile_not p text
      simpa [hrest] using h
    have hother : (first :: rest).takeWhile (!p ·) ++ (first :: rest).dropWhile (!p ·)
        = first :: rest := List.takeWhile_append_dropWhile
    have hshorter : ((first :: rest).dropWhile (!p ·)).length < text.length := by
      have hdrop := (List.dropWhile_suffix (!p ·) (l := rest)).length_le
      have htext := (List.dropWhile_suffix p (l := text)).length_le
      rw [hrest, List.length_cons] at htext
      rw [List.dropWhile_cons_of_pos (by simp [hfirst])]
      omega
    have hwhole := gap (text.takeWhile p) ((first :: rest).takeWhile (!p ·))
      ((first :: rest).dropWhile (!p ·)) (fun ch hch => List.all_eq_true.1 List.all_takeWhile ch hch)
      (fun ch hch => by simpa using List.all_eq_true.1 List.all_takeWhile ch hch)
      (by simp [hfirst]) (fun ch hch => by
        have h := List.head?_dropWhile_not (!p ·) (first :: rest)
        rw [hch] at h
        simpa using h) (runs_induction p run gap _)
    rwa [List.append_assoc, hother, ← hrest, hsplit] at hwhole
termination_by text.length

namespace Cursor

variable {c : Cursor} {ch : Char} {text rest : List Char}

@[simp] theorem skip_rest (n : Nat) : (c.skip n).rest = c.rest.drop n := rfl

@[simp] theorem skip_column (n : Nat) : (c.skip n).column = c.column + n := rfl

@[simp] theorem skip_line (n : Nat) : (c.skip n).line = c.line := rfl

@[simp] theorem skip_index (n : Nat) : (c.skip n).index = c.index + n := rfl

@[simp] theorem skip_skip (m n : Nat) : (c.skip m).skip n = c.skip (m + n) := by
  simp [skip, Nat.add_assoc]

@[simp] theorem skip_zero : c.skip 0 = c := rfl

@[simp] theorem nextLine_rest (n : Nat) : (c.nextLine n).rest = c.rest.drop n := rfl

@[simp] theorem nextLine_column (n : Nat) : (c.nextLine n).column = 0 := rfl

theorem skip_rest_append (h : c.rest = text ++ rest) : (c.skip text.length).rest = rest := by
  rw [skip_rest, h, List.drop_left]

theorem next_cons (h : c.rest = ch :: rest) (p : Char → Bool) : c.next p = p ch := by
  simp [next, h]

theorem next_isGap (h : Solid c.rest) : c.next isGap = false := by
  rw [next]
  cases hrest : c.rest.head? with
  | none => rfl
  | some ch => exact isGap_eq_false (h ch hrest)

theorem break?_of_isPlainBreak (h : c.rest = ch :: rest) (hbreak : isPlainBreak ch) :
    c.break? = some ([ch], c.nextLine 1) := by
  simp only [isPlainBreak, Bool.or_eq_true, decide_eq_true_eq] at hbreak
  rcases hbreak with (rfl | rfl) | rfl <;> simp [break?, h, isBreak]

theorem break?_eq_none (h : ∀ ch ∈ c.rest.head?, isBreak ch = false) : c.break? = none := by
  rw [break?]
  split
  · next hrest =>
    rw [hrest] at h
    exact absurd (h _ rfl) (by decide)
  · next ch rest _ hrest =>
    rw [hrest] at h
    have hbreak := h ch rfl
    simp only [hbreak]
    simp only [isBreak, Bool.or_eq_false_iff, decide_eq_false_iff_not] at hbreak
    simp [hbreak]
  · rfl

theorem break?_of_solid (h : Solid c.rest) : c.break? = none :=
  break?_eq_none fun ch hch => isBreak_eq_false (h ch hch)

theorem atDocumentMark_eq_false (h : 0 < c.column) : c.atDocumentMark = false := by
  have hne : (c.column == 0) = false := by simpa using Nat.ne_of_gt h
  simp [atDocumentMark, hne]

end Cursor

namespace Fold

variable {c : Cursor} {fold : Fold} {gaps breaks rest : List Char} {indent fuel : Nat}

/-- Nothing is read of a text that goes on. -/
theorem read?_of_solid (h : Solid c.rest) (fold : Fold) (indent fuel : Nat) :
    fold.read? indent fuel c = some (fold, c) := by
  cases fuel with
  | zero => rfl
  | succ fuel => simp [read?, Cursor.break?_of_solid h, Cursor.next_isGap h]

/-- What a space comes to. -/
theorem read?_space (h : c.rest = ' ' :: rest) (fold : Fold) (indent fuel : Nat) :
    fold.read? indent (fuel + 1) c
      = (if fold.broken then fold else { fold with gaps := fold.gaps ++ [' '] }).read? indent fuel
          (c.skip 1) := by
  have hbreak : c.break? = none := Cursor.break?_eq_none (by simp [h, isBreak])
  have hgap : c.next isGap = true := by rw [Cursor.next_cons h]; rfl
  have htab : c.next (· = '\t') = false := by rw [Cursor.next_cons h]; rfl
  simp only [read?, hbreak, hgap, htab, h, if_true, Bool.false_eq_true, and_false, if_false,
    List.take_succ_cons, List.take_zero]
  split <;> rfl

/-- Spaces before any break count as they are. -/
theorem read?_gaps (hfold : fold.broken = false) (h : c.rest = gaps ++ rest)
    (hgaps : ∀ ch ∈ gaps, ch = ' ') (hrest : Solid rest) (hfuel : gaps.length ≤ fuel) :
    fold.read? indent fuel c
      = some ({ fold with gaps := fold.gaps ++ gaps }, c.skip gaps.length) := by
  induction gaps generalizing fold c fuel with
  | nil =>
    rw [List.nil_append] at h
    simp [read?_of_solid (h ▸ hrest)]
  | cons ch gaps ih =>
    obtain ⟨rfl, htail⟩ := List.forall_mem_cons.1 hgaps
    cases fuel with
    | zero => simp at hfuel
    | succ fuel =>
      have hgap : ({ fold with gaps := fold.gaps ++ [' '] } : Fold).broken = false := hfold
      rw [read?_space h, if_neg (by simp [hfold]), ih hgap (by simp [h]) htail
        (Nat.le_of_succ_le_succ hfuel)]
      simp [Nat.add_comm]

/-- Spaces behind a break do not count. -/
theorem read?_indentation {width : Nat} (hfold : fold.broken)
    (h : c.rest = List.replicate width ' ' ++ rest) (hrest : Solid rest) (hfuel : width ≤ fuel) :
    fold.read? indent fuel c = some (fold, c.skip width) := by
  induction width generalizing c fuel with
  | zero => exact read?_of_solid (by simpa [h] using hrest) fold indent fuel
  | succ width ih =>
    cases fuel with
    | zero => simp at hfuel
    | succ fuel =>
      rw [read?_space h, if_pos hfold, ih (by simp [h, List.replicate_succ])
        (Nat.le_of_succ_le_succ hfuel), Cursor.skip_skip, Nat.add_comm]

/-- What a line break comes to. -/
theorem read?_break {ch : Char} (h : c.rest = ch :: rest) (hbreak : isPlainBreak ch) (fold : Fold)
    (indent fuel : Nat) :
    fold.read? indent (fuel + 1) c
      = (if fold.broken then { fold with later := fold.later ++ [ch] }
          else { fold with broken := true, first := [ch] }).read? indent fuel (c.nextLine 1) := by
  simp only [read?, Cursor.break?_of_isPlainBreak h hbreak]
  split <;> rfl

/-- Line breaks behind the first one count as they are, and the indentation behind them does not. -/
theorem read?_later {width : Nat} (hfold : fold.broken)
    (h : c.rest = breaks ++ (List.replicate width ' ' ++ rest))
    (hbreaks : ∀ ch ∈ breaks, isPlainBreak ch) (hrest : Solid rest)
    (hfuel : breaks.length + width ≤ fuel) :
    ∃ c' : Cursor, fold.read? indent fuel c = some ({ fold with later := fold.later ++ breaks }, c') ∧
      c'.rest = rest ∧ (c.column = 0 ∨ breaks ≠ [] → c'.column = width) := by
  induction breaks generalizing fold c fuel with
  | nil =>
    rw [List.nil_append] at h
    refine ⟨c.skip width, by simpa using read?_indentation hfold h hrest (by simpa using hfuel),
      by simp [h], ?_⟩
    rintro (hcolumn | hne)
    · simp [hcolumn]
    · exact absurd rfl hne
  | cons ch breaks ih =>
    obtain ⟨hch, hbreaks⟩ := List.forall_mem_cons.1 hbreaks
    cases fuel with
    | zero => simp at hfuel
    | succ fuel =>
      have hbroken : ({ fold with later := fold.later ++ [ch] } : Fold).broken := hfold
      have hfuel : breaks.length + width ≤ fuel := by simpa [Nat.succ_add] using hfuel
      obtain ⟨c', hread, hrest', hcolumn⟩ := ih (c := c.nextLine 1) hbroken (by simp [h]) hbreaks
        hfuel
      refine ⟨c', ?_, hrest', fun _ => hcolumn (.inl rfl)⟩
      rw [read?_break h hch, if_pos hfold, hread]
      simp

/-- Line breaks with the indentation behind them. -/
theorem read?_breaks {width : Nat} {ch : Char} (hfold : fold.broken = false)
    (h : c.rest = ch :: breaks ++ (List.replicate width ' ' ++ rest)) (hch : isPlainBreak ch)
    (hbreaks : ∀ ch ∈ breaks, isPlainBreak ch) (hrest : Solid rest)
    (hfuel : breaks.length + width < fuel) :
    ∃ c' : Cursor, fold.read? indent fuel c
        = some ({ fold with broken := true, first := [ch], later := fold.later ++ breaks }, c') ∧
      c'.rest = rest ∧ c'.column = width := by
  cases fuel with
  | zero => simp at hfuel
  | succ fuel =>
    have hbroken : ({ fold with broken := true, first := [ch] } : Fold).broken := rfl
    have hline : (c.nextLine 1).rest = breaks ++ (List.replicate width ' ' ++ rest) := by simp [h]
    obtain ⟨c', hread, hrest', hcolumn⟩ :=
      read?_later hbroken hline hbreaks hrest (Nat.le_of_lt_succ hfuel)
    refine ⟨c', ?_, hrest', hcolumn (.inl rfl)⟩
    rw [read?_break h hch, if_neg (by simp [hfold]), hread]

end Fold

end StubManager.Yaml
