import StubManager.ListText.Piece
import StubManager.Text.Alphanumeric

/-!
# Finding the list

A list belongs to a name, its anchor: `anchor = [`, `anchor: [` or either with the anchor in
quotes. `anchoredList?` finds the first such place that is neither inside a string nor inside a
comment of its line. Main statement: `suffix_of_anchoredList?`, the answer is the end of the text.
-/

namespace StubManager

open Text

/-- The characters of names: letters, numbers, underscore, hyphen and full stop. -/
def isNameChar (c : Char) : Bool :=
  isAlphanumeric c || c = '_' || c = '-' || c = '.'

/-- What the end of a piece of a line is inside of. -/
inductive LineState where
  | code
  | comment
  | quoted (style : QuoteStyle) (escaped : Bool)
deriving DecidableEq, Repr

/-- One character more of a line. -/
def LineState.step : LineState → Char → LineState
  | .code, c =>
    match QuoteStyle.ofMark? c with
    | some style => .quoted style false
    | none => if c = '#' then .comment else .code
  | .comment, _ => .comment
  | .quoted style true, _ => .quoted style false
  | .quoted style false, c =>
    if c = '\\' then .quoted style true
    else if c = style.mark then .code else .quoted style false

/-- The state at the end of a text whose characters are given backwards, judged from the start of
its last line. -/
def LineState.atEnd (before : List Char) : LineState :=
  (before.takeWhile (· ≠ '\n')).reverse.foldl LineState.step .code

/-- Whether `c` is a space or a tab. -/
def isSpaceOrTab (c : Char) : Bool := c = ' ' || c = '\t'

/-- The text behind the opening bracket of a list that is assigned at the front of `text`. -/
def assignedList? (text : List Char) : Option (List Char) :=
  let value? : Option (List Char) :=
    match text.dropWhile isSpaceOrTab with
    | '=' :: '=' :: _ => none
    | '=' :: value => some value
    | ':' :: value => some value
    | _ => none
  match value?.map (·.dropWhile isListBlank) with
  | some ('[' :: list) => some list
  | _ => none

/-- The text behind the opening bracket if the anchor, which starts `text`, names a list there.
`before` is the text before the anchor, backwards. -/
def listOfAnchor? (anchor before text : List Char) : Option (List Char) :=
  let after := text.drop anchor.length
  match before with
  | [] => bare [] after
  | c :: rest =>
    match QuoteStyle.ofMark? c with
    | some _ =>
      match after with
      | c' :: after => if c' = c ∧ LineState.atEnd rest = .code then assignedList? after else none
      | [] => none
    | none => if isNameChar c then none else bare (c :: rest) after
where
  /-- An anchor without quotes may not continue in a longer name. -/
  bare (before after : List Char) : Option (List Char) :=
    if (after.head?.any isNameChar) ∨ LineState.atEnd before ≠ .code then none
    else assignedList? after

/-- The text behind the opening bracket of the first list that `anchor` names in `text`. After an
occurrence of the anchor the search goes on behind it, so `skip` characters are passed over first;
`before` is the text before `text`, backwards. -/
def anchoredListFrom? (anchor : List Char) : (before : List Char) → (skip : Nat) →
    (text : List Char) → Option (List Char)
  | _, _, [] => none
  | before, skip + 1, c :: text => anchoredListFrom? anchor (c :: before) skip text
  | before, 0, c :: text =>
    if anchor.isPrefixOf (c :: text) then
      (listOfAnchor? anchor before (c :: text)).or
        (anchoredListFrom? anchor (c :: before) (anchor.length - 1) text)
    else anchoredListFrom? anchor (c :: before) 0 text

/-- The text behind the opening bracket of the first list that `anchor` names. An empty anchor
names no list. -/
def anchoredList? (anchor text : List Char) : Option (List Char) :=
  if anchor.isEmpty then none else anchoredListFrom? anchor [] 0 text

private theorem suffix_of_assignedList? {text list : List Char}
    (h : assignedList? text = some list) : ('[' :: list) <:+ text := by
  have hdrop := List.dropWhile_suffix (l := text) isSpaceOrTab
  unfold assignedList? at h
  simp only at h
  split at h
  · next value? hvalue =>
    obtain ⟨value, hvalue', heq⟩ := Option.map_eq_some_iff.1 hvalue
    cases h
    have hblank : ('[' :: list) <:+ value := heq ▸ List.dropWhile_suffix _
    have hsome : value <:+ text := by
      split at hvalue'
      · cases hvalue'
      · next heq =>
        cases hvalue'
        exact (List.suffix_cons _ _).trans (heq ▸ hdrop)
      · next heq =>
        cases hvalue'
        exact (List.suffix_cons _ _).trans (heq ▸ hdrop)
      · cases hvalue'
    exact hblank.trans hsome
  · cases h

/-- The list that an anchor names is the end of the text behind the anchor. -/
theorem suffix_of_listOfAnchor? {anchor before text list : List Char}
    (h : listOfAnchor? anchor before text = some list) :
    ('[' :: list) <:+ text.drop anchor.length := by
  have hbare : ∀ before, listOfAnchor?.bare before (text.drop anchor.length) = some list →
      ('[' :: list) <:+ text.drop anchor.length := by
    intro before h
    unfold listOfAnchor?.bare at h
    split at h
    · cases h
    · exact suffix_of_assignedList? h
  unfold listOfAnchor? at h
  simp only at h
  split at h
  · exact hbare _ h
  · split at h
    · split at h
      · next after heq =>
        split at h
        · exact (suffix_of_assignedList? h).trans (heq ▸ List.suffix_cons _ _)
        · cases h
      · cases h
    · split at h
      · cases h
      · exact hbare _ h

theorem suffix_of_anchoredListFrom? {anchor before text list : List Char} {skip : Nat}
    (h : anchoredListFrom? anchor before skip text = some list) : ('[' :: list) <:+ text := by
  fun_induction anchoredListFrom? anchor before skip text with
  | case1 => cases h
  | case2 before skip c text ih => exact (ih h).trans (List.suffix_cons _ _)
  | case3 before c text _ ih =>
    cases hlist : listOfAnchor? anchor before (c :: text) with
    | some found =>
      simp only [hlist, Option.or, Option.some.injEq] at h
      exact (suffix_of_listOfAnchor? (h ▸ hlist)).trans (List.drop_suffix _ _)
    | none =>
      simp only [hlist, Option.or] at h
      exact (ih h).trans (List.suffix_cons _ _)
  | case4 before c text _ ih => exact (ih h).trans (List.suffix_cons _ _)

/-- The list that an anchor names is, from its opening bracket, the end of the text. -/
theorem suffix_of_anchoredList? {anchor text list : List Char}
    (h : anchoredList? anchor text = some list) : ('[' :: list) <:+ text := by
  unfold anchoredList? at h
  split at h
  · cases h
  · exact suffix_of_anchoredListFrom? h

end StubManager
