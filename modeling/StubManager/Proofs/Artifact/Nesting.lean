import StubManager.Proofs.Artifact.Location

/-!
# Nested brackets

The brackets in a list are counted, and only the one that brings their number back to zero has to
be of the right kind. `Piece.mend` puts every nested closing bracket in the kind of the bracket that
it closes. Main statement: `refused_iff`, a list is refused exactly if a bracket of another kind
stands where it closes, or if it would be refused with its nested brackets mended.
-/

namespace StubManager

namespace Piece

/-! ## Kinds of brackets -/

/-- Whether a bracket opens. -/
def opens (c : Char) : Bool := c = '[' || c = '(' || c = '\x7b'

/-- The bracket that closes an opening one. -/
def partner (c : Char) : Char := if c = '[' then ']' else if c = '(' then ')' else '\x7d'

/-- The open brackets, innermost first, after one piece more. None if the piece closes a bracket of
another kind. -/
def nest? (stack : List Char) : Piece → Option (List Char)
  | bracket c =>
    if opens c then some (c :: stack)
    else if stack.head?.map partner = some c then some stack.tail else none
  | _ => some stack

/-- The pieces with every closing bracket in the kind of the one that it closes, where those of
`stack` are open before. -/
def mend (stack : List Char) : List Piece → List Piece
  | [] => []
  | bracket c :: pieces =>
    if opens c then bracket c :: mend (c :: stack) pieces
    else bracket ((stack.head?.map partner).getD c) :: mend stack.tail pieces
  | piece :: pieces => piece :: mend stack pieces

theorem opens_iff {c : Char} : opens c = true ↔ c = '[' ∨ c = '(' ∨ c = '\x7b' := by
  simp [opens, or_assoc]

theorem closing_partner (c : Char) : partner c = ']' ∨ partner c = ')' ∨ partner c = '\x7d' := by
  grind [partner]

theorem not_opens_of_closing {c : Char} (h : c = ']' ∨ c = ')' ∨ c = '\x7d') : opens c = false := by
  rcases h with rfl | rfl | rfl <;> rfl

/-- A piece that is no bracket is kept, and leaves the brackets as they are. -/
theorem mend_cons_of_not_bracket {piece : Piece} (h : ∀ c, piece ≠ bracket c) (stack : List Char)
    (pieces : List Piece) :
    mend stack (piece :: pieces) = piece :: mend stack pieces ∧ nest? stack piece = some stack := by
  cases piece with
  | bracket c => exact absurd rfl (h c)
  | _ => exact ⟨rfl, rfl⟩

/-! ## Mended pieces -/

/-- What mending does to pieces that stand for themselves, above brackets that stay open. -/
structure Mends (depth : Nat) (stack : List Char) (pieces : List Piece) (depth' : Nat)
    (stack' : List Char) : Prop where
  lexed : Lexed depth (mend stack pieces) depth'
  /-- The brackets of the mended pieces are of the right kinds. -/
  nested : (mend stack pieces).foldlM nest? stack = some stack'
  /-- Only brackets of wrong kinds are mended. -/
  same : mend stack pieces = pieces ↔ pieces.foldlM nest? stack = some stack'
  badly : pieces.foldlM nest? stack = none ∨ pieces.foldlM nest? stack = some stack'

/-- A piece that is no bracket before mended ones. -/
theorem Mends.cons {depth depth' : Nat} {stack stack' : List Char} {piece : Piece}
    {pieces : List Piece} (h : Mends depth stack pieces depth' stack')
    (hpiece : ∀ c, piece ≠ bracket c) (hlexed : Lexed depth (piece :: mend stack pieces) depth') :
    Mends depth stack (piece :: pieces) depth' stack' := by
  obtain ⟨hmend, hnest⟩ := mend_cons_of_not_bracket hpiece stack pieces
  refine ⟨by rw [hmend]; exact hlexed, ?_, ?_, ?_⟩
  · rw [hmend, List.foldlM_cons, hnest]
    exact h.nested
  · rw [hmend, List.cons.injEq, List.foldlM_cons, hnest]
    exact (and_iff_right rfl).trans h.same
  · rw [List.foldlM_cons, hnest]
    exact h.badly

/-- Nested brackets are closed before those that were open around them. -/
theorem Lexed.mends {depth depth' : Nat} {pieces : List Piece} (h : Lexed depth pieces depth')
    {front : List Char} (hfront : front.length = depth) (bottom : List Char) :
    ∃ front' : List Char, front'.length = depth' ∧
      Mends depth (front ++ bottom) pieces depth' (front' ++ bottom) := by
  induction h generalizing front with
  | nil => exact ⟨front, hfront, .nil, rfl, by simp [mend], .inr rfl⟩
  | @cons depth middle depth' piece pieces hstep hrest ih =>
    cases hstep with
    | opening hc =>
      obtain ⟨front', hlength, hmends⟩ := @ih (_ :: front) (by simp [hfront])
      have hopens := opens_iff.2 hc
      refine ⟨front', hlength, ?_⟩
      constructor
      · rw [mend, if_pos hopens]
        exact .cons (.opening hc) hmends.lexed
      · rw [mend, if_pos hopens, List.foldlM_cons, nest?, if_pos hopens]
        exact hmends.nested
      · rw [mend, if_pos hopens, List.cons.injEq, List.foldlM_cons, nest?, if_pos hopens]
        exact (and_iff_right rfl).trans hmends.same
      · rw [List.foldlM_cons, nest?, if_pos hopens]
        exact hmends.badly
    | @closing _ c hc =>
      obtain ⟨opened, front, rfl⟩ : ∃ opened more, front = opened :: more :=
        List.exists_cons_of_length_eq_add_one hfront
      obtain ⟨front', hlength, hmends⟩ := @ih front (by simpa using hfront)
      have hmend : mend (opened :: front ++ bottom) (bracket c :: pieces)
          = bracket (partner opened) :: mend (front ++ bottom) pieces := by
        rw [mend, if_neg (by simp [not_opens_of_closing hc])]
        rfl
      have hnest : ∀ c, c = ']' ∨ c = ')' ∨ c = '\x7d' →
          nest? (opened :: front ++ bottom) (bracket c)
            = if partner opened = c then some (front ++ bottom) else none := by
        intro c hc
        rw [nest?, if_neg (by simp [not_opens_of_closing hc])]
        simp
      refine ⟨front', hlength, ?_⟩
      constructor
      · rw [hmend]
        exact .cons (.closing (closing_partner opened)) hmends.lexed
      · rw [hmend, List.foldlM_cons, hnest _ (closing_partner opened), if_pos rfl]
        exact hmends.nested
      · rw [hmend, List.cons.injEq, bracket.injEq, List.foldlM_cons, hnest c hc]
        by_cases heq : partner opened = c
        · rw [if_pos heq]
          exact (and_iff_right heq).trans hmends.same
        · rw [if_neg heq]
          exact iff_of_false (fun h => heq h.1) nofun
      · rw [List.foldlM_cons, hnest c hc]
        split
        · exact hmends.badly
        · exact .inl rfl
    | blank hc | literal hc | separator | plain =>
      obtain ⟨front', hlength, hmends⟩ := ih hfront
      exact ⟨front', hlength, hmends.cons nofun (.cons (by constructor <;> assumption) hmends.lexed)⟩
  | @comment depth depth' words pieces hwords _ ih =>
    obtain ⟨front', hlength, hmends⟩ := ih hfront
    exact ⟨front', hlength, hmends.cons nofun (.comment hwords hmends.lexed)⟩

/-! ## Segments of mended pieces -/

/-- A piece without the kind of its bracket. -/
def anonymous : Piece → Piece
  | bracket _ => bracket '['
  | piece => piece

theorem map_anonymous_mend (stack : List Char) (pieces : List Piece) :
    (mend stack pieces).map anonymous = pieces.map anonymous := by
  induction pieces generalizing stack with
  | nil => rfl
  | cons piece pieces ih =>
    cases piece with
    | bracket c =>
      rw [mend]
      split
      · rw [List.map_cons, ih, List.map_cons]
      · rw [List.map_cons, ih, List.map_cons]
        rfl
    | _ => exact congrArg (List.cons _) (ih stack)

theorem segments_map_anonymous (pieces : List Piece) :
    segments (pieces.map anonymous)
      = ((segments pieces).1.map (·.map anonymous), (segments pieces).2.map anonymous) := by
  induction pieces with
  | nil => rfl
  | cons piece pieces ih =>
    have hseparator : anonymous piece = separator ↔ piece = separator := by
      cases piece <;> simp [anonymous]
    rw [List.map_cons, segments, segments, ih]
    cases segments pieces with
    | mk closed last =>
      by_cases hpiece : piece = separator
      · simp only [if_pos hpiece, if_pos (hseparator.2 hpiece), List.map_cons, List.map_nil]
      · cases closed <;> simp [hseparator, hpiece]

/-- Whether a comma follows nothing but a gap. -/
def HasEmptySegment (pieces : List Piece) : Prop :=
  ∃ segment ∈ (segments pieces).1, ∀ piece ∈ segment, piece.isGap

theorem hasEmptySegment_anonymous (pieces : List Piece) :
    HasEmptySegment (pieces.map anonymous) ↔ HasEmptySegment pieces := by
  have hgap : ∀ piece, (anonymous piece).isGap = piece.isGap := by
    intro piece
    cases piece <;> rfl
  simp [HasEmptySegment, segments_map_anonymous, hgap]

/-- The kinds of brackets make no difference to the segments. -/
theorem hasEmptySegment_mend (stack : List Char) (pieces : List Piece) :
    HasEmptySegment (mend stack pieces) ↔ HasEmptySegment pieces := by
  rw [← hasEmptySegment_anonymous, map_anonymous_mend, hasEmptySegment_anonymous]

/-! ## The span of a list -/

/-- The pieces up to the bracket that brings the number of open ones back to zero, that bracket and
the text behind it. None if the text ends before. -/
def span? (text : List Char) : Option (List Piece × Char × List Char) :=
  match body 0 text with
  | (pieces, .closed (c :: after)) | (pieces, .unbalanced _ (c :: after)) => some (pieces, c, after)
  | _ => none

/-- Whether a closing bracket of the span, the last one included, is of another kind than the
innermost open one. -/
def BadlyNested (text : List Char) : Prop :=
  ∃ pieces c after, span? text = some (pieces, c, after) ∧
    (pieces ++ [bracket c]).foldlM nest? ['['] = none

/-- The text with the nested brackets of the span mended. -/
def mended (text : List Char) : List Char :=
  match span? text with
  | some (pieces, c, after) => textOf (mend ['['] pieces) ++ c :: after
  | none => text

variable {text after : List Char} {pieces : List Piece} {c : Char}

theorem body_bracket (hc : c = ']' ∨ c = ')' ∨ c = '\x7d') (after : List Char) :
    body 0 (c :: after)
      = ([], if c = ']' then .closed (c :: after) else .unbalanced c (c :: after)) := by
  rw [body.eq_def]
  rcases hc with rfl | rfl | rfl <;> rfl

theorem span?_eq_some_iff : span? text = some (pieces, c, after) ↔
    Lexed 0 pieces 0 ∧ (c = ']' ∨ c = ')' ∨ c = '\x7d') ∧ text = textOf pieces ++ c :: after := by
  constructor
  · intro h
    have htext := text_body 0 text
    have hlexed := @lexed_body_of_bracket 0 text
    rw [span?] at h
    cases hbody : body 0 text with
    | mk found ending =>
      rw [hbody] at h hlexed htext
      dsimp only at hlexed htext
      cases ending with
      | unterminated rest => cases h
      | unclosed => cases h
      | closed rest =>
        obtain ⟨hpieces, c', after', rfl, hc, -⟩ := hlexed (.inl rfl)
        cases h
        exact ⟨hpieces, hc, htext.symm⟩
      | unbalanced other rest =>
        obtain ⟨hpieces, c', after', rfl, hc, -⟩ := hlexed (.inr ⟨_, rfl⟩)
        cases h
        exact ⟨hpieces, hc, htext.symm⟩
  · rintro ⟨hlexed, hc, rfl⟩
    rw [span?, hlexed.body_append, body_bracket hc, List.append_nil]
    rcases hc with rfl | rfl | rfl <;> rfl

/-- The mended text has the mended span, with the same bracket at the end. -/
theorem span?_mended (h : span? text = some (pieces, c, after)) :
    span? (mended text) = some (mend ['['] pieces, c, after) := by
  obtain ⟨hlexed, hc, -⟩ := span?_eq_some_iff.1 h
  obtain ⟨_, -, hmends⟩ := hlexed.mends (List.length_eq_zero_iff.2 rfl) ['[']
  rw [mended, h]
  exact span?_eq_some_iff.2 ⟨hmends.lexed, hc, rfl⟩

/-- A list is nested badly exactly if its own bracket is closed by another, or if mending its nested
ones changes it. A mended one is not if its own bracket is right. -/
theorem badlyNested_iff (h : span? text = some (pieces, c, after)) :
    (BadlyNested text ↔ c ≠ ']' ∨ mended text ≠ text) ∧ (c = ']' → ¬ BadlyNested (mended text)) := by
  obtain ⟨hlexed, hc, htext⟩ := span?_eq_some_iff.1 h
  obtain ⟨front, hfront, hmends⟩ := hlexed.mends (List.length_eq_zero_iff.2 rfl) ['[']
  obtain rfl := List.length_eq_zero_iff.1 hfront
  simp only [List.nil_append] at hmends
  have hlast : nest? ['['] (bracket c) = if c = ']' then some [] else none := by
    rw [nest?, if_neg (by simp [not_opens_of_closing hc])]
    rcases hc with rfl | rfl | rfl <;> rfl
  have hbadly : ∀ {text pieces}, span? text = some (pieces, c, after) →
      (BadlyNested text ↔ (pieces ++ [bracket c]).foldlM nest? ['['] = none) := by
    intro text pieces h
    refine ⟨?_, fun hnone => ⟨_, _, _, h, hnone⟩⟩
    rintro ⟨_, _, _, h', hnone⟩
    rw [h] at h'
    cases h'
    exact hnone
  constructor
  · -- The pieces are mended only if the text is: the text tells its pieces.
    have hsame : mended text = text ↔ mend ['['] pieces = pieces := by
      constructor
      · intro heq
        have hmended := span?_mended h
        rw [heq, h] at hmended
        exact (congrArg Prod.fst (Option.some.inj hmended)).symm
      · intro heq
        rw [mended, h]
        dsimp only
        rw [heq, htext]
    rw [hbadly h, List.foldlM_append, ne_eq (mended text), hsame, hmends.same]
    obtain hnone | hsome := hmends.badly
    · simp [hnone]
    · simp [hsome, hlast]
  · intro hright
    rw [hbadly (span?_mended h), List.foldlM_append, hmends.nested]
    simp [hlast, if_pos hright]

end Piece

open Piece

/-! ## Lists that are refused -/

namespace ListText

theorem closedElements_error_iff {position : Nat} {segments : List (List Piece)} :
    (∃ fault, closedElements position segments = .error fault) ↔
      ∃ segment ∈ segments, ∀ piece ∈ segment, piece.isGap := by
  have hempty : ∀ segment, Element.ofSegment? segment = none ↔ ∀ piece ∈ segment, piece.isGap := by
    intro segment
    constructor
    · intro h
      have hcat := trim_append segment
      obtain ⟨hlead, htail⟩ := isGap_of_mem_trim segment
      rw [Element.ofSegment?] at h
      split at h
      · next lead tail heq =>
        rw [heq] at hcat hlead htail
        rw [← hcat, List.append_nil]
        exact List.forall_mem_append.2 ⟨hlead, htail⟩
      · cases h
    · intro h
      rw [Element.ofSegment?, trim_of_gaps h]
  induction segments generalizing position with
  | nil => simp [closedElements]
  | cons segment segments ih =>
    have hmore := @ih (position + byteLength (textOf segment) + 1)
    rw [closedElements, List.exists_mem_cons_iff, ← hempty]
    refine Iff.trans ?_ (or_congr_right hmore)
    cases he : Element.ofSegment? segment with
    | none => simp
    | some e =>
      dsimp only
      cases closedElements (position + byteLength (textOf segment) + 1) segments with
      | error fault => simp [bind, Except.bind]
      | ok elements => simp [bind, Except.bind, pure, Except.pure]

/-- A text with a span is refused as a list if the last bracket is of another kind, or if a comma
follows nothing. -/
theorem scan_error_iff {head text after : List Char} {pieces : List Piece} {c : Char}
    (h : span? text = some (pieces, c, after)) :
    (∃ fault, scan head text = .error fault) ↔ c ≠ ']' ∨ HasEmptySegment pieces := by
  obtain ⟨hlexed, hc, rfl⟩ := span?_eq_some_iff.1 h
  have hclosed := @closedElements_error_iff (byteLength head) (segments pieces).1
  rw [scan, hlexed.body_append, body_bracket hc, List.append_nil]
  rw [HasEmptySegment, ← hclosed]
  dsimp only
  cases closedElements (byteLength head) (segments pieces).1 with
  | error fault => simp [bind, Except.bind]
  | ok elements =>
    rcases hc with rfl | rfl | rfl <;> simp [bind, Except.bind, pure, Except.pure, throw, throwThe,
      MonadExceptOf.throw]

end ListText

namespace Artifact

variable {artifact : Artifact} {front inside after : List Char} {pieces : List Piece} {c : Char}

/-- Whether the list of an artifact is malformed, so that no valid change is applied to it. -/
def Refused (artifact : Artifact) : Prop :=
  ∃ reason, ∀ change : ChangeSet, change.validate = .ok () →
    artifact.apply change = .error (.listMalformed artifact.origin reason)

/-- The artifact with another text from the bracket of its list on. -/
def withInside (artifact : Artifact) (front inside : List Char) : Artifact :=
  { artifact with text := String.ofList (front ++ '[' :: inside) }

/-- A list is refused if it cannot be scanned from behind its bracket. -/
theorem refused_withInside_iff
    (hfound : anchoredList? artifact.anchor.toList (front ++ '[' :: inside) = some inside) :
    (artifact.withInside front inside).Refused ↔
      ∃ fault, ListText.scan (front ++ ['[']) inside = .error fault := by
  have hlocate : (artifact.withInside front inside).locate
      = (ListText.scan (front ++ ['[']) inside).mapError
          (.listMalformed artifact.origin ·.reason) := by
    have htake : (front ++ '[' :: inside).take ((front ++ '[' :: inside).length - inside.length)
        = front ++ ['['] := by
      rw [List.append_cons, List.length_append, Nat.add_sub_cancel, List.take_left]
    simp only [locate, withInside, String.toList_ofList, hfound, htake]
    cases ListText.scan (front ++ ['[']) inside <;> rfl
  cases hscan : ListText.scan (front ++ ['[']) inside with
  | error fault =>
    rw [hscan] at hlocate
    refine iff_of_true ⟨fault.reason, fun change hvalid => ?_⟩ ⟨fault, rfl⟩
    simp only [apply, hvalid, hlocate, Except.mapError, bind, Except.bind]
    rfl
  | ok list =>
    rw [hscan] at hlocate
    refine iff_of_false ?_ (fun ⟨_, h⟩ => nomatch h)
    rintro ⟨reason, hrefused⟩
    -- A list that was read takes the change that adds and removes nothing.
    have hnothing := hrefused (.ofNames [] []) rfl
    simp only [apply, hlocate, Except.mapError, bind, Except.bind] at hnothing
    cases hnothing

/-- A list is refused exactly if a bracket of another kind stands where it closes, or if it would be
refused with its nested brackets mended. Of a badly nested list one of them is wrong: its own
closing bracket, or nested ones, which mending then changes into well nested ones. -/
theorem refused_iff (hfound : anchoredList? artifact.anchor.toList artifact.text.toList = some inside)
    (htext : artifact.text.toList = front ++ '[' :: inside)
    (hspan : span? inside = some (pieces, c, after)) :
    (artifact.Refused ↔ c ≠ ']' ∨ (artifact.withInside front (mended inside)).Refused) ∧
      (BadlyNested inside ↔ c ≠ ']' ∨ mended inside ≠ inside) ∧
      (c = ']' → ¬ BadlyNested (mended inside)) := by
  rw [htext] at hfound
  have hself : artifact.withInside front inside = artifact := by
    rw [withInside, ← htext, String.ofList_toList]
  obtain ⟨hbadly, hmended⟩ := badlyNested_iff hspan
  refine ⟨?_, hbadly, hmended⟩
  rw [← hself, refused_withInside_iff hfound, ListText.scan_error_iff hspan, hself,
    refused_withInside_iff (anchoredList?_congr hfound (mended inside)),
    ListText.scan_error_iff (span?_mended hspan), hasEmptySegment_mend, or_self_left]

/-- A list with the given text inside, up to its closing bracket and behind it. -/
def artifactAround (inside : String) : Artifact :=
  { text := "x = [" ++ inside, anchor := "x", origin := "file" }

/-- The wrong bracket closes a nested one, or the list itself. -/
theorem refused_iff_of_wrong :
    (BadlyNested "\x7b1: (2]\x7d, 'a']\n".toList ∧
      ¬ (artifactAround "\x7b1: (2]\x7d, 'a']\n").Refused) ∧
    (artifactAround "'a')\n").Refused := by
  have hnested : span? "\x7b1: (2]\x7d, 'a']\n".toList = some
      ([bracket '\x7b', plain '1', plain ':', blank ' ', bracket '(', plain '2', bracket ']',
        bracket '\x7d', separator, blank ' ', literal .single ['a']], ']', ['\n']) := by
    decide +kernel
  have hown : span? "'a')\n".toList = some ([literal .single ['a']], ')', ['\n']) := by
    decide +kernel
  have hmended : mended "\x7b1: (2]\x7d, 'a']\n".toList = "\x7b1: (2)\x7d, 'a']\n".toList := by
    decide +kernel
  have htext : ∀ inside, (artifactAround inside).text.toList
      = "x = ".toList ++ '[' :: inside.toList := by
    simp [artifactAround]
  constructor
  · obtain ⟨hrefused, hbadly, -⟩ := refused_iff (by decide +kernel) (htext _) hnested
    refine ⟨hbadly.2 (.inr (by rw [hmended]; decide +kernel)), fun h => ?_⟩
    obtain hwrong | ⟨reason, hreason⟩ := hrefused.1 h
    · exact hwrong rfl
    · rw [hmended] at hreason
      have htaken : ((artifactAround "\x7b1: (2]\x7d, 'a']\n").withInside "x = ".toList
          "\x7b1: (2)\x7d, 'a']\n".toList).apply (.ofNames [] [])
            = .ok (artifactAround "\x7b1: (2)\x7d, 'a']\n") := by decide +kernel
      cases (hreason (.ofNames [] []) rfl).symm.trans htaken
  · exact (refused_iff (by decide +kernel) (htext _) hown).1.2 (.inl (by decide))

/-- A list with a nested bracket that is closed by another kind is taken, and edited. -/
theorem not_refused_of_badlyNested :
    anchoredList? "x".toList "x = [(], 'a']\n".toList = some "(], 'a']\n".toList ∧
      BadlyNested "(], 'a']\n".toList ∧
      apply { text := "x = [(], 'a']\n", anchor := "x", origin := "file" } (.ofNames ["b"] [])
        = .ok { text := "x = [(], 'a', 'b']\n", anchor := "x", origin := "file" } := by
  have hspan : span? "(], 'a']\n".toList = some
      ([bracket '(', bracket ']', separator, blank ' ', literal .single ['a']], ']', ['\n']) := by
    decide +kernel
  exact ⟨by decide +kernel, ⟨_, _, _, hspan, by decide +kernel⟩, by decide +kernel⟩

end Artifact

end StubManager
