/-!
# Cutting texts

Splitting a text at a separator, and at its first or last line feed. Main statements:
`intercalate_splitAt`, splitting loses nothing but the separators, and `not_mem_of_mem_splitAt`, no
part holds one.
-/

namespace StubManager.Text

/-- The parts of a text between the occurrences of a character; one part if there is none. -/
def splitAt (sep : Char) : List Char → List (List Char)
  | [] => [[]]
  | c :: text =>
    if c = sep then [] :: splitAt sep text
    else
      match splitAt sep text with
      | [] => [[c]]
      | part :: more => (c :: part) :: more

/-- The lines of a text, split at every line feed. -/
def lines (text : List Char) : List (List Char) := splitAt '\n' text

/-- The text up to the first line feed, which is left out. -/
def firstLine (text : List Char) : List Char := text.takeWhile (· ≠ '\n')

/-- The text from the first line feed on; empty if there is none. -/
def fromFirstBreak (text : List Char) : List Char := text.dropWhile (· ≠ '\n')

/-- The text behind the last line feed; the whole text if there is none. -/
def lastLine (text : List Char) : List Char := (text.reverse.takeWhile (· ≠ '\n')).reverse

/-- The text through the last line feed; empty if there is none. -/
def throughLastBreak (text : List Char) : List Char :=
  (text.reverse.dropWhile (· ≠ '\n')).reverse

theorem firstLine_append_fromFirstBreak (text : List Char) :
    firstLine text ++ fromFirstBreak text = text := List.takeWhile_append_dropWhile

theorem throughLastBreak_append_lastLine (text : List Char) :
    throughLastBreak text ++ lastLine text = text := by
  rw [throughLastBreak, lastLine, ← List.reverse_append, List.takeWhile_append_dropWhile,
    List.reverse_reverse]

theorem splitAt_ne_nil (sep : Char) (text : List Char) : splitAt sep text ≠ [] := by
  induction text with
  | nil => simp [splitAt]
  | cons c text ih => grind [splitAt]

/-- Splitting loses nothing but the separators. -/
theorem intercalate_splitAt (sep : Char) (text : List Char) :
    [sep].intercalate (splitAt sep text) = text := by
  induction text with
  | nil => rfl
  | cons c text ih =>
    rw [splitAt]
    split
    · next h =>
      cases hsplit : splitAt sep text with
      | nil => exact absurd hsplit (splitAt_ne_nil sep text)
      | cons part more => rw [hsplit] at ih; simp [List.intercalate, h, ← ih]
    · cases hsplit : splitAt sep text with
      | nil => exact absurd hsplit (splitAt_ne_nil sep text)
      | cons part more =>
        rw [hsplit] at ih
        cases more <;> simp_all [List.intercalate]

/-- No part of a split text holds the separator. -/
theorem not_mem_of_mem_splitAt {sep : Char} {text part : List Char}
    (h : part ∈ splitAt sep text) : sep ∉ part := by
  induction text generalizing part with
  | nil => simp_all [splitAt]
  | cons c text ih =>
    rw [splitAt] at h
    split at h
    · rcases List.mem_cons.1 h with rfl | h
      · simp
      · exact ih h
    · cases hsplit : splitAt sep text with
      | nil => exact absurd hsplit (splitAt_ne_nil sep text)
      | cons first more =>
        rw [hsplit] at h ih
        simp only [List.mem_cons] at h
        rcases h with rfl | h
        · have := ih (List.mem_cons_self (a := first) (l := more))
          grind
        · exact ih (List.mem_cons_of_mem _ h)

end StubManager.Text
