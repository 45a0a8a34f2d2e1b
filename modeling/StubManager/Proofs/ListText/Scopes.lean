import StubManager.Proofs.ListText.Tiling

/-!
# What a place in a list is inside of

`Scope` goes over the text behind an opening bracket one character at a time and keeps what the
place is inside of: a comment, a string literal, or neither of them under so many open brackets.
`ListText.Tiles` says in these terms what the text of a list consists of. Main statement:
`scan_eq_ok_iff_tiles`, a text is read as a list exactly if it is the text of that list and the
list has these tiles.
-/

namespace StubManager

/-! ## Literals -/

/-- The text between the quotes of a literal: every backslash goes with the character behind it,
and no other character is the quote or a line feed. -/
inductive Literal.Inside (mark : Char) : List Char → Prop where
  | nil : Inside mark []
  | escape {c : Char} {text : List Char} : Inside mark text → Inside mark ('\\' :: c :: text)
  | plain {c : Char} {text : List Char} :
      c ≠ '\\' → c ≠ mark → c ≠ '\n' → Inside mark text → Inside mark (c :: text)

theorem Literal.Inside.scan? {mark : Char} {inside : List Char} (h : Inside mark inside)
    (hmark : mark ≠ '\\' ∧ mark ≠ '\n') (after : List Char) :
    scan? mark (inside ++ mark :: after) = some (inside, after) := by
  induction h with
  | nil =>
    rw [List.nil_append, Literal.scan?]
    · rw [if_neg hmark.2, if_pos rfl]
    · exact hmark.1
  | escape _ ih => simp [Literal.scan?, ih]
  | plain hescape hquote hbreak _ ih =>
    rw [List.cons_append, Literal.scan?]
    · simp [hbreak, hquote, ih]
    · exact hescape

theorem Literal.inside_of_scan? {mark : Char} {text inside after : List Char}
    (h : scan? mark text = some (inside, after)) : Inside mark inside := by
  fun_induction scan? mark text generalizing inside after with
  | case1 | case2 | case4 => simp at h
  | case3 c rest ih =>
    obtain ⟨⟨inside', after'⟩, hrest, heq⟩ := Option.map_eq_some_iff.1 h
    obtain ⟨rfl, rfl⟩ := Prod.mk.inj heq
    exact .escape (ih hrest)
  | case5 rest hescape hbreak =>
    obtain ⟨rfl, rfl⟩ := Prod.mk.inj (Option.some.inj h)
    exact .nil
  | case6 c rest hescape hbreak hmark ih =>
    obtain ⟨⟨inside', after'⟩, hrest, heq⟩ := Option.map_eq_some_iff.1 h
    obtain ⟨rfl, rfl⟩ := Prod.mk.inj heq
    exact .plain hescape hmark hbreak (ih hrest)

theorem QuoteStyle.mark_ne (style : QuoteStyle) : style.mark ≠ '\\' ∧ style.mark ≠ '\n' := by
  cases style <;> decide

/-- An element is a string literal if all of it is one. -/
theorem Element.literal?_eq_some_iff_inside {e : Element} {style : QuoteStyle}
    {inside : List Char} : e.literal? = some (style, inside) ↔
      e.raw = style.mark :: (inside ++ [style.mark]) ∧ Literal.Inside style.mark inside := by
  rw [literal?_eq_some_iff]
  refine and_congr_right fun _ => ⟨Literal.inside_of_scan?, fun h => ?_⟩
  exact h.scan? style.mark_ne []

/-! ## Scopes -/

/-- What a place inside a list stands in, under `depth` nested brackets that are open. -/
inductive Scope where
  | code (depth : Nat)
  | comment (depth : Nat)
  | quoted (depth : Nat) (style : QuoteStyle) (escaped : Bool)
deriving DecidableEq, Repr

namespace Scope

/-- One character further. There is no scope behind a bracket that closes more than was opened,
and none behind a line feed in a string literal. -/
def step? : Scope → Char → Option Scope
  | code depth, c =>
    match QuoteStyle.ofMark? c with
    | some style => some (quoted depth style false)
    | none =>
      if c = '#' then some (comment depth)
      else if c = '[' ∨ c = '(' ∨ c = '\x7b' then some (code (depth + 1))
      else if c = ']' ∨ c = ')' ∨ c = '\x7d' then
        match depth with
        | 0 => none
        | depth + 1 => some (code depth)
      else some (code depth)
  | comment depth, c => some (if c = '\n' then code depth else comment depth)
  | quoted depth style true, _ => some (quoted depth style false)
  | quoted depth style false, c =>
    if c = '\\' then some (quoted depth style true)
    else if c = '\n' then none
    else if c = style.mark then some (code depth)
    else some (quoted depth style false)

/-- The scope behind a text that starts in the given one. -/
def after? (scope : Scope) (text : List Char) : Option Scope := text.foldlM step? scope

@[simp] theorem after?_nil (scope : Scope) : scope.after? [] = some scope := rfl

theorem after?_cons (scope : Scope) (c : Char) (text : List Char) :
    scope.after? (c :: text) = (scope.step? c).bind (·.after? text) := rfl

theorem after?_append (scope : Scope) (front back : List Char) :
    scope.after? (front ++ back) = (scope.after? front).bind (·.after? back) :=
  List.foldlM_append ..

theorem after?_append_of_eq {scope middle : Scope} {front : List Char}
    (h : scope.after? front = some middle) (back : List Char) :
    scope.after? (front ++ back) = middle.after? back := by
  rw [after?_append, h, Option.bind_some]

/-! ### Literals and comments -/

theorem step?_mark (depth : Nat) (style : QuoteStyle) :
    (code depth).step? style.mark = some (quoted depth style false) := by
  simp only [step?, QuoteStyle.ofMark?_mark]

/-- Between its quotes a literal is not left. -/
theorem after?_inside {style : QuoteStyle} {inside front back : List Char} (depth : Nat)
    (h : Literal.Inside style.mark inside) (hcut : inside = front ++ back) :
    ∃ escaped, (quoted depth style false).after? front = some (quoted depth style escaped) ∧
      (back = [] → escaped = false) := by
  induction h generalizing front with
  | nil =>
    obtain ⟨rfl, rfl⟩ := List.append_eq_nil_iff.1 hcut.symm
    exact ⟨false, rfl, fun _ => rfl⟩
  | @escape c text _ ih =>
    match front with
    | [] => exact ⟨false, rfl, fun _ => rfl⟩
    | [c'] =>
      obtain ⟨rfl, rfl⟩ := List.cons.inj hcut
      exact ⟨true, rfl, nofun⟩
    | c' :: c'' :: front =>
      obtain ⟨hescape, htail⟩ := List.cons.inj hcut
      obtain ⟨-, htail⟩ := List.cons.inj htail
      obtain ⟨escaped, hquoted, hback⟩ := ih htail
      rw [← hescape]
      exact ⟨escaped, hquoted, hback⟩
  | @plain c text hescape hquote hbreak _ ih =>
    match front with
    | [] => exact ⟨false, rfl, fun _ => rfl⟩
    | c' :: front =>
      obtain ⟨rfl, htail⟩ := List.cons.inj hcut
      rw [after?_cons, step?, if_neg hescape, if_neg hbreak, if_neg hquote]
      exact ih htail

/-- Behind its closing quote a literal is left. -/
theorem after?_literal {style : QuoteStyle} {inside : List Char} (depth : Nat)
    (h : Literal.Inside style.mark inside) :
    (code depth).after? (style.mark :: (inside ++ [style.mark])) = some (code depth) := by
  obtain ⟨escaped, hinside, hback⟩ := after?_inside depth h (List.append_nil _).symm
  rw [hback rfl] at hinside
  rw [after?_cons, step?_mark, Option.bind_some, after?_append_of_eq hinside, after?_cons, step?,
    if_neg style.mark_ne.1, if_neg style.mark_ne.2, if_pos rfl]
  rfl

/-- A literal that is left was closed by its quote. -/
theorem exists_inside {depth depth' : Nat} {style : QuoteStyle} {text : List Char}
    (h : (quoted depth style false).after? text = some (code depth')) :
    ∃ inside more, text = inside ++ style.mark :: more ∧ Literal.Inside style.mark inside ∧
      (code depth).after? more = some (code depth') := by
  fun_induction Literal.scan? style.mark text with
  | case1 => cases h
  | case2 => cases h
  | case3 c rest ih =>
    obtain ⟨inside, more, rfl, hinside, hmore⟩ := ih h
    exact ⟨'\\' :: c :: inside, more, rfl, .escape hinside, hmore⟩
  | case4 rest hescape => cases h
  | case5 rest hescape hbreak =>
    rw [after?_cons, step?, if_neg style.mark_ne.1, if_neg hbreak, if_pos rfl] at h
    exact ⟨[], rest, rfl, .nil, h⟩
  | case6 c rest hescape hbreak hmark ih =>
    rw [after?_cons, step?, if_neg hescape, if_neg hbreak, if_neg hmark] at h
    obtain ⟨inside, more, rfl, hinside, hmore⟩ := ih h
    exact ⟨c :: inside, more, rfl, .plain hescape hmark hbreak hinside, hmore⟩

theorem after?_comment {words : List Char} (depth : Nat) (h : '\n' ∉ words) :
    (comment depth).after? words = some (comment depth) := by
  induction words with
  | nil => rfl
  | cons c words ih =>
    rw [List.mem_cons, not_or] at h
    rw [after?_cons, step?, if_neg (Ne.symm h.1)]
    exact ih h.2

/-- A comment that is left was ended by a line feed. -/
theorem exists_words {depth depth' : Nat} {text : List Char}
    (h : (comment depth).after? text = some (code depth')) :
    ∃ words more, text = words ++ '\n' :: more ∧ '\n' ∉ words ∧
      (code depth).after? more = some (code depth') := by
  induction text with
  | nil => cases h
  | cons c text ih =>
    rw [after?_cons, step?] at h
    by_cases hc : c = '\n'
    · rw [if_pos hc] at h
      exact ⟨[], text, by rw [hc]; rfl, by simp, h⟩
    · rw [if_neg hc] at h
      obtain ⟨words, more, rfl, hwords, hmore⟩ := ih h
      exact ⟨c :: words, more, rfl, by simp [Ne.symm hc, hwords], hmore⟩

/-! ### Pieces -/

open Piece

theorem after?_hash (depth : Nat) (text : List Char) :
    (code depth).after? ('#' :: text) = (comment depth).after? text := rfl

theorem step?_opening {c : Char} (hc : c = '[' ∨ c = '(' ∨ c = '\x7b') (depth : Nat) :
    (code depth).step? c = some (code (depth + 1)) := by
  rcases hc with rfl | rfl | rfl <;> rfl

theorem step?_closing {c : Char} (hc : c = ']' ∨ c = ')' ∨ c = '\x7d') (depth : Nat) :
    (code (depth + 1)).step? c = some (code depth) := by
  rcases hc with rfl | rfl | rfl <;> rfl

theorem step?_zero {c : Char} (hc : c = ']' ∨ c = ')' ∨ c = '\x7d') :
    (code 0).step? c = none := by
  rcases hc with rfl | rfl | rfl <;> rfl

theorem step?_other {c : Char} (hquote : QuoteStyle.ofMark? c = none) (hhash : c ≠ '#')
    (hopen : ¬ (c = '[' ∨ c = '(' ∨ c = '\x7b')) (hclose : ¬ (c = ']' ∨ c = ')' ∨ c = '\x7d'))
    (depth : Nat) : (code depth).step? c = some (code depth) := by
  simp only [step?, hquote, if_neg hhash, if_neg hopen, if_neg hclose]

end Scope

namespace Piece

open Scope

theorem Step.after? {depth depth' : Nat} {piece : Piece} (h : Step depth piece depth') :
    (code depth).after? piece.text = some (code depth') := by
  cases h with
  | blank hc =>
    simp only [isListBlank, Bool.or_eq_true, decide_eq_true_eq] at hc
    rcases hc with (((rfl | rfl) | rfl) | rfl) | rfl <;> rfl
  | literal hscan => exact after?_literal depth (Literal.inside_of_scan? hscan)
  | opening hc =>
    rw [text, after?_cons, step?_opening hc]
    rfl
  | closing hc =>
    rw [text, after?_cons, step?_closing hc]
    rfl
  | separator => rfl
  | plain hquote hhash hopen hclose =>
    rw [text, after?_cons, step?_other hquote hhash hopen hclose]
    rfl

/-- Pieces that are cut off their text lead from code to code. -/
theorem Lexed.after? {depth depth' : Nat} {pieces : List Piece} (h : Lexed depth pieces depth') :
    (code depth).after? (textOf pieces) = some (code depth') := by
  induction h with
  | nil => rfl
  | cons hstep _ ih => rw [textOf_cons, after?_append_of_eq hstep.after?, ih]
  | @comment depth _ words pieces hwords _ ih =>
    rw [textOf_cons]
    exact (after?_append_of_eq (after?_comment depth hwords) _).trans ih

/-- A text that leads from code to code can be cut into pieces. -/
theorem exists_lexed_of_after? {depth depth' : Nat} {text : List Char}
    (h : (code depth).after? text = some (code depth')) :
    ∃ pieces, Lexed depth pieces depth' ∧ textOf pieces = text := by
  cases text with
  | nil =>
    cases h
    exact ⟨[], .nil, rfl⟩
  | cons c text =>
    rw [after?_cons] at h
    cases hquote : QuoteStyle.ofMark? c with
    | some style =>
      obtain rfl := QuoteStyle.mark_of_ofMark? hquote
      rw [step?_mark, Option.bind_some] at h
      obtain ⟨inside, more, rfl, hinside, hmore⟩ := exists_inside h
      obtain ⟨pieces, hpieces, rfl⟩ := exists_lexed_of_after? hmore
      exact ⟨literal style inside :: pieces,
        .cons (.literal (hinside.scan? style.mark_ne [])) hpieces, by simp [Piece.text]⟩
    | none =>
      by_cases hhash : c = '#'
      · subst hhash
        obtain ⟨words, more, rfl, hwords, hmore⟩ := exists_words h
        obtain ⟨pieces, hpieces, rfl⟩ := exists_lexed_of_after? hmore
        exact ⟨comment words :: blank '\n' :: pieces,
          .comment hwords (.cons (.blank rfl) hpieces), by simp [Piece.text]⟩
      by_cases hopen : c = '[' ∨ c = '(' ∨ c = '\x7b'
      · rw [step?_opening hopen, Option.bind_some] at h
        obtain ⟨pieces, hpieces, rfl⟩ := exists_lexed_of_after? h
        exact ⟨bracket c :: pieces, .cons (.opening hopen) hpieces, rfl⟩
      by_cases hclose : c = ']' ∨ c = ')' ∨ c = '\x7d'
      · cases depth with
        | zero =>
          rw [step?_zero hclose] at h
          cases h
        | succ depth =>
          rw [step?_closing hclose, Option.bind_some] at h
          obtain ⟨pieces, hpieces, rfl⟩ := exists_lexed_of_after? h
          exact ⟨bracket c :: pieces, .cons (.closing hclose) hpieces, rfl⟩
      rw [step?_other hquote hhash hopen hclose, Option.bind_some] at h
      obtain ⟨pieces, hpieces, rfl⟩ := exists_lexed_of_after? h
      by_cases hcomma : c = ',' ∧ depth = 0
      · obtain ⟨rfl, rfl⟩ := hcomma
        exact ⟨separator :: pieces, .cons .separator hpieces, rfl⟩
      by_cases hblank : isListBlank c
      · exact ⟨blank c :: pieces, .cons (.blank hblank) hpieces, rfl⟩
      · exact ⟨plain c :: pieces,
          .cons (.plain hquote hhash hopen hclose hcomma hblank) hpieces, rfl⟩
termination_by text.length
decreasing_by all_goals simp_all <;> omega

/-! ### Commas -/

/-- Within a piece that is no separator no comma stands in code outside of brackets. -/
theorem Step.separator_of_comma {depth depth' : Nat} {piece : Piece}
    (h : Step depth piece depth') {front back : List Char} (htext : piece.text = front ++ ',' :: back)
    (hfront : (code depth).after? front = some (code 0)) : piece = .separator := by
  -- A piece of one character is the comma.
  have hsingle : ∀ {c : Char}, [c] = front ++ ',' :: back → c = ',' ∧ depth = 0 := by
    intro c heq
    cases front with
    | nil =>
      cases hfront
      exact ⟨(List.cons.inj heq).1, rfl⟩
    | cons c' front => simp at heq
  cases h with
  | blank hc =>
    obtain ⟨rfl, -⟩ := hsingle htext
    cases hc
  | @literal _ style inside hscan =>
    cases front with
    | nil =>
      have hmark := (List.cons.inj htext).1
      cases style <;> cases hmark
    | cons c front =>
      obtain ⟨rfl, htail⟩ := List.cons.inj htext
      -- What stands before the comma is the start of the inside.
      obtain ⟨more, hinside⟩ : ∃ more, inside = front ++ more := by
        rcases List.append_eq_append_iff.1 htail with ⟨more, hf, hm⟩ | ⟨more, hi, -⟩
        · cases more with
          | nil => exact ⟨[], by simpa using hf.symm⟩
          | cons c more =>
            obtain ⟨-, hnil⟩ := List.cons.inj hm
            simp at hnil
        · exact ⟨more, hi⟩
      obtain ⟨escaped, hquoted, -⟩ :=
        after?_inside depth (Literal.inside_of_scan? hscan) hinside
      rw [after?_cons, step?_mark, Option.bind_some, hquoted] at hfront
      cases hfront
  | opening hc =>
    obtain ⟨rfl, -⟩ := hsingle htext
    simp at hc
  | closing hc =>
    obtain ⟨rfl, -⟩ := hsingle htext
    simp at hc
  | separator => rfl
  | plain _ _ _ _ hcomma => exact absurd (hsingle htext) hcomma

/-- The commas that stand in code outside of brackets are the separators. -/
theorem Lexed.separator_mem_iff {depth depth' : Nat} {pieces : List Piece}
    (h : Lexed depth pieces depth') :
    separator ∈ pieces ↔ ∃ front back, textOf pieces = front ++ ',' :: back ∧
      (code depth).after? front = some (code 0) := by
  constructor
  · intro hmem
    obtain ⟨front, back, rfl⟩ := List.append_of_mem hmem
    obtain ⟨middle, hfront, hback⟩ := h.of_append (.inl (by simp))
    cases hback with
    | cons hstep _ =>
      cases hstep
      exact ⟨textOf front, textOf back, by simp [Piece.text], hfront.after?⟩
  rintro ⟨front, back, htext, hfront⟩
  induction h generalizing front with
  | nil => simp [textOf] at htext
  | @cons depth middle depth' piece pieces hstep _ ih =>
    rw [textOf_cons] at htext
    have hlater : ∀ more, front = piece.text ++ more → textOf pieces = more ++ ',' :: back →
        separator ∈ piece :: pieces := by
      rintro more rfl hmore
      rw [after?_append_of_eq hstep.after?] at hfront
      exact List.mem_cons_of_mem _ (ih more hmore hfront)
    rcases List.append_eq_append_iff.1 htext with ⟨more, hf, hmore⟩ | ⟨more, hp, hmore⟩
    · exact hlater more hf hmore
    · cases more with
      | nil => exact hlater [] (by simpa using hp.symm) hmore.symm
      | cons c more =>
        obtain ⟨rfl, -⟩ := List.cons.inj hmore
        rw [hstep.separator_of_comma hp hfront]
        exact List.mem_cons_self
  | @comment depth depth' words pieces hwords _ ih =>
    rw [textOf_cons] at htext
    -- Up to the end of its line the comment is not left.
    have hcomment : ∀ front back, '#' :: words = front ++ ',' :: back →
        (code depth).after? front ≠ some (code 0) := by
      intro front back heq hfront
      cases front with
      | nil => simp at heq
      | cons c front =>
        obtain ⟨rfl, rfl⟩ := List.cons.inj heq
        have hstays := after?_comment depth fun hmem => hwords (List.mem_append_left _ hmem)
        rw [after?_hash, hstays] at hfront
        cases hfront
    have hlater : ∀ more, front = '#' :: words ++ more →
        textOf (.blank '\n' :: pieces) = more ++ ',' :: back → separator ∈ pieces := by
      rintro more rfl hmore
      have hstays := (after?_hash depth words).trans (after?_comment depth hwords)
      rw [after?_append_of_eq hstays] at hfront
      cases more with
      | nil => cases hfront
      | cons c more =>
        obtain ⟨rfl, -⟩ := List.cons.inj hmore
        simpa using ih _ hmore hfront
    suffices separator ∈ pieces by simp [this]
    rcases List.append_eq_append_iff.1 htext with ⟨more, hf, hmore⟩ | ⟨more, hp, hmore⟩
    · exact hlater more hf hmore
    · cases more with
      | nil => exact hlater [] (by simpa [Piece.text] using hp.symm) hmore.symm
      | cons c more =>
        obtain ⟨rfl, -⟩ := List.cons.inj hmore
        exact absurd hfront (hcomment front more hp)

/-! ### Ends of pieces -/

theorem Step.first {depth depth' : Nat} {piece : Piece} (h : Step depth piece depth') :
    ∃ c more, piece.text = c :: more ∧ (piece.isGap ↔ isListBlank c ∨ c = '#') := by
  cases h with
  | @blank _ c hc => exact ⟨c, [], rfl, by simp [isGap, hc]⟩
  | @literal _ style inside _ =>
    exact ⟨_, _, rfl, by cases style <;> simp [isGap, QuoteStyle.mark, isListBlank]⟩
  | @opening _ c hc =>
    exact ⟨c, [], rfl, by rcases hc with rfl | rfl | rfl <;> simp [isGap, isListBlank]⟩
  | @closing _ c hc =>
    exact ⟨c, [], rfl, by rcases hc with rfl | rfl | rfl <;> simp [isGap, isListBlank]⟩
  | separator => exact ⟨',', [], rfl, by simp [isGap, isListBlank]⟩
  | @plain _ c _ hhash _ _ _ hblank => exact ⟨c, [], rfl, by simp [isGap, hblank, hhash]⟩

theorem Step.last {depth depth' : Nat} {piece : Piece} (h : Step depth piece depth') :
    ∃ front c, piece.text = front ++ [c] ∧ (piece.isGap ↔ isListBlank c) := by
  cases h with
  | @blank _ c hc => exact ⟨[], c, rfl, by simp [isGap, hc]⟩
  | @literal _ style inside _ =>
    exact ⟨style.mark :: inside, style.mark, rfl,
      by cases style <;> simp [isGap, QuoteStyle.mark, isListBlank]⟩
  | @opening _ c hc =>
    exact ⟨[], c, rfl, by rcases hc with rfl | rfl | rfl <;> simp [isGap, isListBlank]⟩
  | @closing _ c hc =>
    exact ⟨[], c, rfl, by rcases hc with rfl | rfl | rfl <;> simp [isGap, isListBlank]⟩
  | separator => exact ⟨[], ',', rfl, by simp [isGap, isListBlank]⟩
  | @plain _ c _ _ _ _ _ hblank => exact ⟨[], c, rfl, by simp [isGap, hblank]⟩

/-- The first character tells whether pieces start with a gap. -/
theorem Lexed.first {depth depth' : Nat} {pieces : List Piece} (h : Lexed depth pieces depth')
    (hne : pieces ≠ []) : ∃ piece ∈ pieces.head?, ∃ c more, textOf pieces = c :: more ∧
      (piece.isGap ↔ isListBlank c ∨ c = '#') := by
  cases h with
  | nil => exact absurd rfl hne
  | @cons _ _ _ piece pieces hstep _ =>
    obtain ⟨c, more, htext, hgap⟩ := hstep.first
    exact ⟨piece, rfl, c, more ++ textOf pieces, by rw [textOf_cons, htext]; rfl, hgap⟩
  | @comment _ _ words pieces _ _ =>
    exact ⟨Piece.comment words, rfl, '#', _, textOf_cons .., by simp [Piece.isGap]⟩

/-- The last character tells whether pieces end with a gap. -/
theorem Lexed.last {depth depth' : Nat} {pieces : List Piece} (h : Lexed depth pieces depth')
    (hne : pieces ≠ []) : ∃ piece ∈ pieces.getLast?, ∃ front c, textOf pieces = front ++ [c] ∧
      (piece.isGap ↔ isListBlank c) := by
  induction h with
  | nil => exact absurd rfl hne
  | @cons _ _ _ piece pieces hstep _ ih =>
    cases pieces with
    | nil =>
      obtain ⟨front, c, htext, hgap⟩ := hstep.last
      exact ⟨piece, rfl, front, c, by rw [textOf_cons, htext]; simp [textOf], hgap⟩
    | cons next pieces =>
      obtain ⟨piece', hlast, front, c, htext, hgap⟩ := ih (by simp)
      refine ⟨piece', ?_, piece.text ++ front, c, ?_, hgap⟩
      · rwa [List.getLast?_cons_cons]
      · rw [textOf_cons, htext, List.append_assoc]
  | @comment _ _ words pieces _ _ ih =>
    obtain ⟨piece', hlast, front, c, htext, hgap⟩ := ih (by simp)
    refine ⟨piece', ?_, '#' :: words ++ front, c, ?_, hgap⟩
    · rwa [List.getLast?_cons_cons]
    · rw [textOf_cons, htext, List.append_assoc]
      rfl

end Piece

open Piece

/-! ## Entries -/

/-- The text of an element. It leads from code outside of brackets back there, has no comma there,
and starts and ends outside of white space and comments. -/
structure IsEntry (text : List Char) : Prop where
  closed : (Scope.code 0).after? text = some (.code 0)
  comma : ∀ front back, text = front ++ ',' :: back →
    (Scope.code 0).after? front ≠ some (.code 0)
  first : ∃ c more, text = c :: more ∧ ¬ isListBlank c ∧ c ≠ '#'
  last : ∃ front c, text = front ++ [c] ∧ ¬ isListBlank c

theorem isItem_iff_isEntry {text : List Char} : IsItem text ↔ IsEntry text := by
  have hcomma : ∀ {pieces : List Piece}, Lexed 0 pieces 0 →
      (separator ∉ pieces ↔ ∀ front back, textOf pieces = front ++ ',' :: back →
        (Scope.code 0).after? front ≠ some (.code 0)) := by
    intro pieces h
    rw [h.separator_mem_iff]
    push Not
    rfl
  constructor
  · rintro ⟨pieces, hlexed, hsep, ⟨⟨first, hfirst, hstart⟩, last, hlast, hend⟩, rfl⟩
    have hne : pieces ≠ [] := by
      rintro rfl
      cases hfirst
    refine ⟨hlexed.after?, (hcomma hlexed).1 hsep, ?_, ?_⟩
    · obtain ⟨piece, hpiece, c, more, htext, hgap⟩ := hlexed.first hne
      obtain rfl := Option.mem_unique hfirst hpiece
      exact ⟨c, more, htext, not_or.1 (mt hgap.2 hstart)⟩
    · obtain ⟨piece, hpiece, front, c, htext, hgap⟩ := hlexed.last hne
      obtain rfl := Option.mem_unique hlast hpiece
      exact ⟨front, c, htext, mt hgap.2 hend⟩
  · rintro ⟨hclosed, hfree, ⟨c, more, hfirst, hstart⟩, front, d, hlast, hend⟩
    obtain ⟨pieces, hlexed, rfl⟩ := exists_lexed_of_after? hclosed
    have hne : pieces ≠ [] := by
      rintro rfl
      cases hfirst
    refine ⟨pieces, hlexed, (hcomma hlexed).2 hfree, ⟨?_, ?_⟩, rfl⟩
    · obtain ⟨piece, hpiece, c', more', htext, hgap⟩ := hlexed.first hne
      obtain ⟨rfl, -⟩ := List.cons.inj (htext.symm.trans hfirst)
      exact ⟨piece, hpiece, mt hgap.1 (not_or.2 hstart)⟩
    · obtain ⟨piece, hpiece, front', c', htext, hgap⟩ := hlexed.last hne
      obtain ⟨-, heq⟩ := List.append_inj' (htext.symm.trans hlast) rfl
      obtain ⟨rfl, -⟩ := List.cons.inj heq
      exact ⟨piece, hpiece, mt hgap.1 hend⟩

/-! ## Lists -/

theorem IsGap.after? {gap : List Char} (h : IsGap gap) (depth : Nat) :
    (Scope.code depth).after? gap = some (.code depth) := by
  obtain ⟨gaps, hlexed, -, rfl⟩ := h.exists_lexed depth
  exact hlexed.after?

/-- An element leads from code outside of brackets back there. -/
theorem Element.Tiled.after? {e : Element} (h : e.Tiled) :
    (Scope.code 0).after? e.render = some (.code 0) := by
  have hraw := (isItem_iff_isEntry.1 h.item).closed
  rw [Element.render, Element.closing, List.append_assoc,
    Scope.after?_append_of_eq (h.lead.after? 0), Scope.after?_append_of_eq hraw,
    Scope.after?_append_of_eq (h.tail.after? 0)]
  split <;> rfl

namespace ListText

theorem after?_renderElements {elements : List Element} (h : ∀ e ∈ elements, e.Tiled) :
    (Scope.code 0).after? (renderElements elements) = some (.code 0) := by
  induction elements with
  | nil => rfl
  | cons e elements ih =>
    rw [List.forall_mem_cons] at h
    rw [renderElements_cons, Scope.after?_append_of_eq h.1.after?, ih h.2]

/-- What the text of a list consists of, and what its elements stand for. -/
structure Tiles (list : ListText) : Prop where
  /-- White space and comments stand before an element and between it and its comma. -/
  gaps : ∀ e ∈ list.elements, IsGap e.lead ∧ IsGap e.tail
  entry : ∀ e ∈ list.elements, IsEntry e.raw
  /-- A comma stands between two elements. -/
  comma : ∀ e ∈ list.elements.dropLast, e.comma
  /-- Behind an element without a comma is the gap of the list. -/
  bare : ∀ e ∈ list.elements, e.comma = false → e.tail = []
  trail : IsGap list.trail
  /-- Every element starts outside of comments, literals and brackets. -/
  start : ∀ before e after, list.elements = before ++ e :: after →
    (Scope.code 0).after? (renderElements before ++ e.lead) = some (.code 0)
  /-- The list is closed by a bracket there. -/
  closed : (Scope.code 0).after? list.inner = some (.code 0) ∧ ∃ after, list.rest = ']' :: after
  /-- No bracket before that could close it. -/
  leftmost : ∀ front back, list.inner = front ++ ']' :: back →
    (Scope.code 0).after? front ≠ some (.code 0)
  /-- An element that is one string literal has its quotes and stands for its inside. -/
  literal : ∀ e ∈ list.elements, ∀ (style : QuoteStyle) inside, Literal.Inside style.mark inside →
    e.raw = style.mark :: (inside ++ [style.mark]) →
      e.style? = some style ∧ e.value = String.ofList (Literal.unescape inside)
  /-- Any other element has no quotes and stands for itself. -/
  plain : ∀ e ∈ list.elements,
    (∀ (style : QuoteStyle) inside, Literal.Inside style.mark inside →
      e.raw ≠ style.mark :: (inside ++ [style.mark])) →
    e.style? = none ∧ e.value = String.ofList e.raw

theorem Tiles.tiled {list : ListText} (h : list.Tiles) : list.Tiled where
  elements e he :=
    ⟨(h.gaps e he).1, isItem_iff_isEntry.2 (h.entry e he), (h.gaps e he).2, h.bare e he⟩
  comma := h.comma
  trail := h.trail
  rest := h.closed.2

theorem Tiled.tiles {list : ListText} (h : list.Tiled) : list.Tiles := by
  have hinner : (Scope.code 0).after? list.inner = some (.code 0) := by
    rw [inner, Scope.after?_append_of_eq (after?_renderElements h.elements), h.trail.after?]
  exact {
    gaps := fun e he => ⟨(h.elements e he).lead, (h.elements e he).tail⟩
    entry := fun e he => isItem_iff_isEntry.1 (h.elements e he).item
    comma := h.comma
    bare := fun e he => (h.elements e he).bare
    trail := h.trail
    start := by
      intro before e after helements
      have htiled := h.elements
      rw [helements, List.forall_mem_append, List.forall_mem_cons] at htiled
      rw [Scope.after?_append_of_eq (after?_renderElements htiled.1), htiled.2.1.lead.after?]
    closed := ⟨hinner, h.rest⟩
    leftmost := by
      intro front back heq hfront
      rw [heq, Scope.after?_append_of_eq hfront] at hinner
      cases hinner
    literal := by
      intro e _ style inside hinside hraw
      have hliteral := Element.literal?_eq_some_iff_inside.2 ⟨hraw, hinside⟩
      rw [Element.style?, Element.value, hliteral]
      exact ⟨rfl, rfl⟩
    plain := by
      intro e _ hnone
      have hliteral : e.literal? = none := by
        refine Option.eq_none_iff_forall_not_mem.2 fun pair hmem => ?_
        obtain ⟨style, inside⟩ := pair
        obtain ⟨hraw, hinside⟩ := Element.literal?_eq_some_iff_inside.1 hmem
        exact hnone style inside hinside hraw
      rw [Element.style?, Element.value, hliteral]
      exact ⟨rfl, rfl⟩ }

/-- The list that is read behind an opening bracket is the one whose tiles make up the text. -/
theorem scan_eq_ok_iff_tiles {head text : List Char} {list : ListText} :
    ListText.scan head text = .ok list ↔
      list.head = head ∧ list.inner ++ list.rest = text ∧ list.Tiles := by
  rw [scan_eq_ok_iff]
  exact and_congr_right fun _ => and_congr_right fun _ => ⟨Tiled.tiles, Tiles.tiled⟩

end ListText

end StubManager
