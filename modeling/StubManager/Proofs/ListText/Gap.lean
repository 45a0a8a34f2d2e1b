import StubManager.ListText.Edit

/-!
# Gaps

`IsGap` is the text between the elements of a list: blanks, and comments that end with their line.
Gaps can be put together (`IsGap.append`) and cut behind any line feed (`IsGap.of_append_break`),
which is all that an edit does to them.
-/

namespace StubManager

open Text

/-- Blanks and comments; every comment ends with a line feed of the gap. -/
inductive IsGap : List Char → Prop where
  | nil : IsGap []
  | blank {c : Char} {gap : List Char} : isListBlank c → IsGap gap → IsGap (c :: gap)
  | comment {words gap : List Char} :
      '\n' ∉ words → IsGap gap → IsGap ('#' :: (words ++ '\n' :: gap))

namespace IsGap

theorem append {front back : List Char} (h : IsGap front) (h' : IsGap back) :
    IsGap (front ++ back) := by
  induction h with
  | nil => exact h'
  | blank hc _ ih => exact .blank hc ih
  | comment hwords _ ih =>
    rw [List.cons_append, List.append_assoc, List.cons_append]
    exact .comment hwords ih

theorem of_forall_blank {gap : List Char} (h : ∀ c ∈ gap, isListBlank c) : IsGap gap := by
  induction gap with
  | nil => exact .nil
  | cons c gap ih =>
    rw [List.forall_mem_cons] at h
    exact .blank h.1 (ih h.2)

/-- Behind a line feed no comment is open, so a gap can be cut there. -/
theorem of_append_break {front back : List Char} (h : IsGap (front ++ '\n' :: back)) :
    IsGap (front ++ ['\n']) ∧ IsGap back := by
  generalize htext : front ++ '\n' :: back = text at h
  induction h generalizing front with
  | nil => simp at htext
  | @blank c gap hc hgap ih =>
    cases front with
    | nil =>
      obtain ⟨rfl, rfl⟩ := List.cons.inj htext
      exact ⟨.blank rfl .nil, hgap⟩
    | cons c' front =>
      obtain ⟨rfl, htail⟩ := List.cons.inj htext
      obtain ⟨hfront, hback⟩ := ih htail
      exact ⟨.blank hc hfront, hback⟩
  | @comment words gap hwords hgap ih =>
    cases front with
    | nil => simp at htext
    | cons c front =>
      obtain ⟨rfl, htail⟩ := List.cons.inj htext
      -- The cut falls on the end of the comment's line or behind it.
      rcases List.append_eq_append_iff.1 htail with ⟨more, hw, hb⟩ | ⟨more, hf, hg⟩
      · cases more with
        | nil =>
          obtain ⟨-, rfl⟩ := List.cons.inj hb
          rw [List.append_nil] at hw
          subst hw
          exact ⟨.comment hwords .nil, hgap⟩
        | cons c more =>
          obtain ⟨rfl, -⟩ := List.cons.inj hb
          exact absurd (by simp [hw]) hwords
      · cases more with
        | nil =>
          obtain ⟨-, rfl⟩ := List.cons.inj hg
          rw [List.append_nil] at hf
          subst hf
          exact ⟨.comment hwords .nil, hgap⟩
        | cons c more =>
          obtain ⟨rfl, hmore⟩ := List.cons.inj hg
          obtain ⟨hfront, hback⟩ := ih hmore.symm
          rw [hf, List.cons_append, List.append_assoc, List.cons_append]
          exact ⟨.comment hwords hfront, hback⟩

end IsGap

/-! ## Cutting a text at its first and at its last line feed -/

theorem fromFirstBreak_eq_cons {text : List Char} (h : '\n' ∈ text) :
    fromFirstBreak text = '\n' :: (fromFirstBreak text).drop 1 := by
  induction text with
  | nil => cases h
  | cons c text ih =>
    by_cases hc : c = '\n'
    · simp [fromFirstBreak, hc]
    · have hrest := ih ((List.mem_cons.1 h).resolve_left (Ne.symm hc))
      simpa [fromFirstBreak, hc] using hrest

theorem firstLine_append_break {text : List Char} (h : '\n' ∈ text) :
    firstLine text ++ '\n' :: (fromFirstBreak text).drop 1 = text := by
  rw [← fromFirstBreak_eq_cons h, firstLine_append_fromFirstBreak]

theorem throughLastBreak_eq_append {text : List Char} (h : '\n' ∈ text) :
    throughLastBreak text = (throughLastBreak text).dropLast ++ ['\n'] := by
  have hreverse := fromFirstBreak_eq_cons (List.mem_reverse.2 h)
  unfold fromFirstBreak at hreverse
  unfold throughLastBreak
  rw [hreverse]
  simp

/-- A text whose last line feed is known falls into its last line and what comes before. -/
theorem lastLine_append_break (front : List Char) {line : List Char} (h : '\n' ∉ line) :
    lastLine (front ++ '\n' :: line) = line ∧
      throughLastBreak (front ++ '\n' :: line) = front ++ ['\n'] := by
  have hline : ∀ c ∈ line.reverse, decide (c ≠ '\n') := by
    intro c hc
    exact decide_eq_true fun heq => h (heq ▸ List.mem_reverse.1 hc)
  have hreverse : (front ++ '\n' :: line).reverse = line.reverse ++ '\n' :: front.reverse := by
    simp
  constructor
  · rw [lastLine, hreverse, List.takeWhile_append_of_pos hline]
    simp
  · rw [throughLastBreak, hreverse, List.dropWhile_append_of_pos hline]
    simp

theorem not_mem_lastLine (text : List Char) : '\n' ∉ lastLine text := by
  intro h
  simpa using List.all_eq_true.1 List.all_takeWhile _ (List.mem_reverse.1 h)

theorem lastLine_append_of_not_mem (front : List Char) {line : List Char} (h : '\n' ∉ line) :
    lastLine (front ++ line) = lastLine front ++ line := by
  have hline : ∀ c ∈ line.reverse, decide (c ≠ '\n') := fun c hc =>
    decide_eq_true fun heq => h (heq ▸ List.mem_reverse.1 hc)
  rw [lastLine, List.reverse_append, List.takeWhile_append_of_pos hline, List.reverse_append,
    List.reverse_reverse, lastLine]

/-! ## Blank texts -/

theorem isBlankText_indentation (line : List Char) : isBlankText (indentation line) :=
  List.all_takeWhile

theorem isBlankText_append {front back : List Char} (hfront : isBlankText front)
    (hback : isBlankText back) : isBlankText (front ++ back) := by
  rw [isBlankText, List.all_append, Bool.and_eq_true]
  exact ⟨hfront, hback⟩

theorem not_mem_of_isBlankText {text : List Char} (h : isBlankText text) : '\n' ∉ text :=
  fun hmem => absurd (List.all_eq_true.1 h _ hmem) (by decide)

namespace IsGap

variable {gap : List Char}

theorem firstLine_break (h : IsGap gap) (hbreak : '\n' ∈ gap) :
    IsGap (firstLine gap ++ ['\n']) := by
  rw [← firstLine_append_break hbreak] at h
  exact h.of_append_break.1

theorem behindFirstBreak (h : IsGap gap) (hbreak : '\n' ∈ gap) :
    IsGap ((fromFirstBreak gap).drop 1) := by
  rw [← firstLine_append_break hbreak] at h
  exact h.of_append_break.2

theorem fromFirstBreak (h : IsGap gap) (hbreak : '\n' ∈ gap) : IsGap (fromFirstBreak gap) := by
  rw [fromFirstBreak_eq_cons hbreak]
  exact .blank rfl (h.behindFirstBreak hbreak)

theorem throughLastBreak (h : IsGap gap) (hbreak : '\n' ∈ gap) :
    IsGap (throughLastBreak gap) := by
  have hcut := throughLastBreak_eq_append hbreak
  rw [← throughLastBreak_append_lastLine gap, hcut, List.append_assoc, List.cons_append] at h
  rw [hcut]
  exact h.of_append_break.1

/-- Spaces and tabs are a gap, such as an indentation. -/
theorem of_isBlankText (h : gap.all isSpaceOrTab) : IsGap gap := by
  refine of_forall_blank fun c hc => ?_
  have := List.all_eq_true.1 h c hc
  simp_all [isSpaceOrTab, isListBlank]

end IsGap

end StubManager
