import StubManager.ListText.Anchor

/-!
# The anchor of an edited text

The search for an anchor stops at the opening bracket of the list it finds, so that nothing behind
that bracket matters to it. Main statement: `anchoredList?_congr`, a text that is the same up to
the bracket has its anchored list at the same place.
-/

namespace StubManager

/-- A reading of the text behind a place that cannot see past an opening bracket: `read more` stands
for the answer where `more` follows the bracket. -/
def StopsAtBracket (read : List Char → Option (List Char)) : Prop :=
  (∀ more, read more = none) ∨ ∃ front, ∀ more, read more = some (front ++ more)

private theorem dropWhile_append_bracket {p : Char → Bool} (h : p '[' = false)
    (front more : List Char) :
    (front ++ '[' :: more).dropWhile p = front.dropWhile p ++ '[' :: more := by
  induction front with
  | nil => simp [h]
  | cons c front ih =>
    rw [List.cons_append, List.dropWhile_cons, List.dropWhile_cons, ih]
    split <;> rfl

/-- Behind the sign of an assignment come blanks and the bracket. -/
private theorem stopsAtBracket_value (front : List Char) :
    StopsAtBracket fun more =>
      match some ((front ++ '[' :: more).dropWhile isListBlank) with
      | some ('[' :: list) => some list
      | _ => none := by
  simp only [dropWhile_append_bracket (p := isListBlank) rfl]
  cases front.dropWhile isListBlank with
  | nil => exact .inr ⟨[], fun _ => rfl⟩
  | cons c front =>
    by_cases hc : c = '['
    · subst hc
      exact .inr ⟨front ++ ['['], fun more => by simp⟩
    · exact .inl fun more => by simp [hc]

private theorem stopsAtBracket_assignedList? (front : List Char) :
    StopsAtBracket fun more => assignedList? (front ++ '[' :: more) := by
  simp only [assignedList?, dropWhile_append_bracket (p := isSpaceOrTab) rfl]
  cases front.dropWhile isSpaceOrTab with
  | nil => exact .inl fun _ => rfl
  | cons c front =>
    by_cases hcolon : c = ':'
    · subst hcolon
      simp only [List.cons_append, Option.map_some]
      exact stopsAtBracket_value front
    by_cases hequals : c = '='
    · subst hequals
      cases front with
      | nil => exact stopsAtBracket_value []
      | cons c front =>
        by_cases hc : c = '='
        · subst hc
          exact .inl fun _ => rfl
        · simp only [List.cons_append, List.cons.injEq, hc, false_and, imp_false,
            not_false_eq_true, implies_true, Option.map_some]
          exact stopsAtBracket_value (c :: front)
    · exact .inl fun more => by simp [hcolon, hequals]

/-- An occurrence of the anchor that ends before the bracket. -/
private theorem stopsAtBracket_listOfAnchor? (before : List Char) {anchor front : List Char}
    (hle : anchor.length ≤ front.length) :
    StopsAtBracket fun more => listOfAnchor? anchor before (front ++ '[' :: more) := by
  simp only [listOfAnchor?, List.drop_append_of_le_length hle]
  generalize front.drop anchor.length = front
  have hbare : ∀ before,
      StopsAtBracket fun more => listOfAnchor?.bare before (front ++ '[' :: more) := by
    intro before
    have hhead : ∀ more, (front ++ '[' :: more).head? = (front ++ ['[']).head? := by
      cases front <;> simp
    simp only [listOfAnchor?.bare, hhead]
    by_cases hname : (front ++ ['[']).head?.any isNameChar ∨ LineState.atEnd before ≠ .code
    · simp only [if_pos hname]
      exact .inl fun _ => rfl
    · simp only [if_neg hname]
      exact stopsAtBracket_assignedList? front
  cases before with
  | nil => exact hbare []
  | cons c rest =>
    cases hmark : QuoteStyle.ofMark? c with
    | some style =>
      cases front with
      | nil =>
        have hc : '[' ≠ c := by
          rintro rfl
          cases hmark
        simp only [hmark, List.nil_append, hc, false_and, if_false]
        exact .inl fun _ => rfl
      | cons c' front =>
        by_cases hquote : c' = c ∧ LineState.atEnd rest = .code
        · simp only [hmark, List.cons_append, if_pos hquote]
          exact stopsAtBracket_assignedList? front
        · simp only [hmark, List.cons_append, if_neg hquote]
          exact .inl fun _ => rfl
    | none =>
      by_cases hname : isNameChar c
      · simp only [hmark, if_pos hname]
        exact .inl fun _ => rfl
      · simp only [hmark, if_neg hname]
        exact hbare (c :: rest)

/-! ## The first place -/

/-- The anchor and the bracket stand before the list that is found. -/
private theorem length_of_anchoredListFrom? {anchor before text list : List Char} {skip : Nat}
    (h : anchoredListFrom? anchor before skip text = some list) :
    skip + anchor.length + list.length < text.length := by
  fun_induction anchoredListFrom? anchor before skip text with
  | case1 => cases h
  | case2 before skip c text ih =>
    have := ih h
    rw [List.length_cons]
    omega
  | case3 before c text _ ih =>
    cases hlist : listOfAnchor? anchor before (c :: text) with
    | some found =>
      simp only [hlist, Option.or, Option.some.injEq] at h
      have := (suffix_of_listOfAnchor? (h ▸ hlist)).length_le
      rw [List.length_drop, List.length_cons] at this
      omega
    | none =>
      simp only [hlist, Option.or] at h
      have := ih h
      rw [List.length_cons]
      omega
  | case4 before c text _ ih =>
    have := ih h
    rw [List.length_cons]
    omega

private theorem anchoredListFrom?_congr {anchor before front inside : List Char} {skip : Nat}
    (hanchor : anchor ≠ [])
    (h : anchoredListFrom? anchor before skip (front ++ '[' :: inside) = some inside)
    (inside' : List Char) :
    anchoredListFrom? anchor before skip (front ++ '[' :: inside') = some inside' := by
  induction front generalizing before skip with
  | nil =>
    have hlength := length_of_anchoredListFrom? h
    have := List.length_pos_iff.2 hanchor
    rw [List.nil_append, List.length_cons] at hlength
    omega
  | cons c front ih =>
    have hlength := length_of_anchoredListFrom? h
    simp only [List.length_append, List.length_cons] at hlength
    cases skip with
    | succ skip =>
      rw [List.cons_append, anchoredListFrom?] at h ⊢
      exact ih h
    | zero =>
      have hle : anchor.length ≤ (c :: front).length := by
        rw [List.length_cons]
        omega
      have hprefix : ∀ more, anchor.isPrefixOf (c :: (front ++ '[' :: more)) =
          anchor.isPrefixOf (c :: front) := by
        intro more
        rw [Bool.eq_iff_iff, List.isPrefixOf_iff_prefix, List.isPrefixOf_iff_prefix]
        exact ⟨fun h => List.prefix_of_prefix_length_le h (List.prefix_append (c :: front) _) hle,
          fun h => h.trans (List.prefix_append (c :: front) _)⟩
      rw [List.cons_append, anchoredListFrom?, hprefix] at h ⊢
      split at h
      · next hoccurs =>
        rw [if_pos hoccurs]
        have hstops := stopsAtBracket_listOfAnchor? before hle
        simp only [StopsAtBracket, List.cons_append] at hstops
        obtain hnone | ⟨front', hsome⟩ := hstops
        · rw [hnone, Option.none_or] at h ⊢
          exact ih h
        · rw [hsome, Option.some_or, Option.some.injEq] at h ⊢
          rw [List.append_left_eq_self.1 h, List.nil_append]
      · next hoccurs =>
        rw [if_neg hoccurs]
        exact ih h

/-- A text that is the same up to the bracket has its anchored list at the same place. -/
theorem anchoredList?_congr {anchor front inside : List Char}
    (h : anchoredList? anchor (front ++ '[' :: inside) = some inside) (inside' : List Char) :
    anchoredList? anchor (front ++ '[' :: inside') = some inside' := by
  unfold anchoredList? at h ⊢
  split at h
  · cases h
  · next hanchor =>
    rw [if_neg hanchor]
    exact anchoredListFrom?_congr (by simpa using hanchor) h inside'

end StubManager
