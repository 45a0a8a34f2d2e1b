import Mathlib.Data.List.TakeWhile
import StubManager.ListText.Scan
import StubManager.Proofs.ListText.Gap

/-!
# Lexing in context

`Lexed depth pieces depth'` says that `pieces` are what their own text is cut into, wherever it
stands: cutting goes from `depth` open brackets to `depth'` and is ready for any text behind. Main
statements: `Lexed.body_append`, the pieces are cut off whatever follows, `Lexed.of_append`, they
can be parted, and `lexed_body`, all pieces of a list that is closed are of this kind.
-/

namespace StubManager

/-! ## Literals -/

namespace Literal

/-- Where a literal ends does not depend on the text behind it. -/
theorem scan?_inside {mark : Char} {text inside after : List Char}
    (h : scan? mark text = some (inside, after)) (more : List Char) :
    scan? mark (inside ++ mark :: more) = some (inside, more) := by
  fun_induction scan? mark text generalizing inside after with
  | case1 | case2 | case4 => simp at h
  | case3 c rest ih =>
    obtain ⟨⟨inside', after'⟩, hrest, heq⟩ := Option.map_eq_some_iff.1 h
    obtain ⟨rfl, rfl⟩ := Prod.mk.inj heq
    simp [scan?, ih hrest]
  | case5 rest hescape hbreak =>
    obtain ⟨rfl, rfl⟩ := Prod.mk.inj (Option.some.inj h)
    rw [List.nil_append, scan?]
    · simp [hbreak]
    · exact hescape
  | case6 c rest hescape hbreak hmark ih =>
    obtain ⟨⟨inside', after'⟩, hrest, heq⟩ := Option.map_eq_some_iff.1 h
    obtain ⟨rfl, rfl⟩ := Prod.mk.inj heq
    rw [List.cons_append, scan?]
    · simp [hbreak, hmark, ih hrest]
    · exact hescape

/-- A value with a line feed cannot be written: its literal does not end. -/
theorem scan?_encode_eq_none (style : QuoteStyle) {value : List Char} (h : '\n' ∈ value)
    (after : List Char) : scan? style.mark (style.escape value ++ style.mark :: after) = none := by
  induction value with
  | nil => cases h
  | cons c rest ih =>
    unfold QuoteStyle.escape
    split
    · next hesc =>
      have hc : c ≠ '\n' := by rintro rfl; cases style <;> simp [QuoteStyle.mark] at hesc
      simp [scan?, ih ((List.mem_cons.1 h).resolve_left (Ne.symm hc))]
    · next hesc =>
      rw [List.cons_append, scan?]
      · by_cases hc : c = '\n'
        · simp [hc]
        · simp only [not_or] at hesc
          simp [hc, hesc.2, ih ((List.mem_cons.1 h).resolve_left (Ne.symm hc))]
      · simp_all

end Literal

/-- The text of a literal, from its quotes and its inside. -/
theorem literal?_eq_some_iff {e : Element} {style : QuoteStyle} {inside : List Char} :
    e.literal? = some (style, inside) ↔ e.raw = style.mark :: (inside ++ [style.mark]) ∧
      Literal.scan? style.mark (inside ++ [style.mark]) = some (inside, []) := by
  rw [Element.literal?]
  cases hraw : e.raw with
  | nil => simp
  | cons c text =>
    dsimp only
    constructor
    · intro h
      split at h
      · next hstyle hscan =>
        cases h
        obtain rfl := QuoteStyle.mark_of_ofMark? hstyle
        have htext := Literal.eq_of_scan? hscan
        rw [htext] at hscan
        exact ⟨by rw [htext], hscan⟩
      · cases h
    · rintro ⟨heq, hscan⟩
      cases heq
      rw [QuoteStyle.ofMark?_mark, hscan]

namespace Piece

/-! ## One step of cutting -/

theorem body_literal {depth : Nat} {c : Char} {style : QuoteStyle} {text inside after : List Char}
    (hquote : QuoteStyle.ofMark? c = some style)
    (hscan : Literal.scan? c text = some (inside, after)) :
    body depth (c :: text)
      = (literal style inside :: (body depth after).1, (body depth after).2) := by
  rw [body.eq_def]
  simp only [hquote]
  split
  · next h => rw [hscan] at h; cases h
  · next h => rw [hscan] at h; cases h; rfl

theorem body_unterminated {depth : Nat} {c : Char} {style : QuoteStyle} {text : List Char}
    (hquote : QuoteStyle.ofMark? c = some style) (hscan : Literal.scan? c text = none) :
    body depth (c :: text) = ([], .unterminated (c :: text)) := by
  rw [body.eq_def]
  simp only [hquote]
  split
  · rfl
  · next h => rw [hscan] at h; cases h

theorem body_comment (depth : Nat) (text : List Char) :
    body depth ('#' :: text)
      = (comment (text.takeWhile (· ≠ '\n')) :: (body depth (text.dropWhile (· ≠ '\n'))).1,
        (body depth (text.dropWhile (· ≠ '\n'))).2) := by
  rw [body.eq_def]
  rfl

theorem body_opening {c : Char} (hc : c = '[' ∨ c = '(' ∨ c = '\x7b') (depth : Nat)
    (text : List Char) :
    body depth (c :: text)
      = (bracket c :: (body (depth + 1) text).1, (body (depth + 1) text).2) := by
  rw [body.eq_def]
  rcases hc with rfl | rfl | rfl <;> rfl

theorem body_closing {c : Char} (hc : c = ']' ∨ c = ')' ∨ c = '\x7d') (depth : Nat)
    (text : List Char) :
    body (depth + 1) (c :: text) = (bracket c :: (body depth text).1, (body depth text).2) := by
  rw [body.eq_def]
  rcases hc with rfl | rfl | rfl <;> rfl

theorem body_closed (text : List Char) : body 0 (']' :: text) = ([], .closed (']' :: text)) := by
  rw [body.eq_def]
  rfl

theorem body_other {depth : Nat} {c : Char} (hquote : QuoteStyle.ofMark? c = none) (hhash : c ≠ '#')
    (hopen : ¬ (c = '[' ∨ c = '(' ∨ c = '\x7b')) (hclose : ¬ (c = ']' ∨ c = ')' ∨ c = '\x7d'))
    (text : List Char) :
    body depth (c :: text)
      = ((if c = ',' ∧ depth = 0 then separator
          else if isListBlank c then blank c else plain c) :: (body depth text).1,
        (body depth text).2) := by
  rw [body.eq_def]
  simp only [hquote, if_neg hhash, if_neg hopen, if_neg hclose]

/-! ## Pieces that stand for themselves -/

/-- A piece that is cut off whatever text follows, from `depth` open brackets to `depth'`. Of a
comment the end depends on what follows. -/
inductive Step : Nat → Piece → Nat → Prop where
  | blank {depth : Nat} {c : Char} : isListBlank c → Step depth (blank c) depth
  | literal {depth : Nat} {style : QuoteStyle} {inside : List Char} :
      Literal.scan? style.mark (inside ++ [style.mark]) = some (inside, []) →
      Step depth (literal style inside) depth
  | opening {depth : Nat} {c : Char} :
      c = '[' ∨ c = '(' ∨ c = '\x7b' → Step depth (bracket c) (depth + 1)
  | closing {depth : Nat} {c : Char} :
      c = ']' ∨ c = ')' ∨ c = '\x7d' → Step (depth + 1) (bracket c) depth
  | separator : Step 0 separator 0
  | plain {depth : Nat} {c : Char} :
      QuoteStyle.ofMark? c = none → c ≠ '#' → ¬ (c = '[' ∨ c = '(' ∨ c = '\x7b') →
      ¬ (c = ']' ∨ c = ')' ∨ c = '\x7d') → ¬ (c = ',' ∧ depth = 0) → ¬ isListBlank c →
      Step depth (plain c) depth

/-- Pieces that are cut off their text in any context, from `depth` open brackets to `depth'`. A
comment ends with its line. -/
inductive Lexed : Nat → List Piece → Nat → Prop where
  | nil {depth : Nat} : Lexed depth [] depth
  | cons {depth middle depth' : Nat} {piece : Piece} {pieces : List Piece} :
      Step depth piece middle → Lexed middle pieces depth' → Lexed depth (piece :: pieces) depth'
  | comment {depth depth' : Nat} {words : List Char} {pieces : List Piece} :
      '\n' ∉ words → Lexed depth (.blank '\n' :: pieces) depth' →
      Lexed depth (comment words :: .blank '\n' :: pieces) depth'

private theorem special_of_isListBlank {c : Char} (h : isListBlank c) :
    QuoteStyle.ofMark? c = none ∧ c ≠ '#' ∧ ¬ (c = '[' ∨ c = '(' ∨ c = '\x7b') ∧
      ¬ (c = ']' ∨ c = ')' ∨ c = '\x7d') ∧ c ≠ ',' := by
  simp only [isListBlank, Bool.or_eq_true, decide_eq_true_eq] at h
  rcases h with (((rfl | rfl) | rfl) | rfl) | rfl <;> simp [QuoteStyle.ofMark?]

theorem Step.body_append {depth depth' : Nat} {piece : Piece} (h : Step depth piece depth')
    (rest : List Char) :
    body depth (piece.text ++ rest) = (piece :: (body depth' rest).1, (body depth' rest).2) := by
  cases h with
  | blank hc =>
    obtain ⟨hquote, hhash, hopen, hclose, hcomma⟩ := special_of_isListBlank hc
    simp only [text, List.cons_append, List.nil_append]
    simp [body_other hquote hhash hopen hclose, hcomma, hc]
  | literal hscan =>
    simp only [text, List.cons_append, List.nil_append, List.append_assoc]
    rw [body_literal (QuoteStyle.ofMark?_mark _) (Literal.scan?_inside hscan _)]
  | opening hc => exact body_opening hc ..
  | closing hc => exact body_closing hc ..
  | separator =>
    simp only [text, List.cons_append, List.nil_append]
    rw [body_other rfl (by simp) (by simp) (by simp), if_pos ⟨rfl, rfl⟩]
  | plain hquote hhash hopen hclose hcomma hblank =>
    simp only [text, List.cons_append, List.nil_append]
    rw [body_other hquote hhash hopen hclose, if_neg hcomma, if_neg hblank]

namespace Lexed

theorem append {depth middle depth' : Nat} {front back : List Piece}
    (h : Lexed depth front middle) (h' : Lexed middle back depth') :
    Lexed depth (front ++ back) depth' := by
  induction h with
  | nil => exact h'
  | cons hstep _ ih => exact .cons hstep (ih h')
  | comment hwords _ ih => exact .comment hwords (ih h')

/-- The pieces are cut off, whatever text follows. -/
theorem body_append {depth depth' : Nat} {pieces : List Piece} (h : Lexed depth pieces depth')
    (rest : List Char) :
    body depth (textOf pieces ++ rest)
      = (pieces ++ (body depth' rest).1, (body depth' rest).2) := by
  induction h with
  | nil => rfl
  | cons hstep _ ih =>
    rw [textOf_cons, List.append_assoc, hstep.body_append, ih]
    rfl
  | @comment depth depth' words pieces hwords _ ih =>
    have hwords' : ∀ c ∈ words, (decide (c ≠ '\n')) = true := fun c hc => by
      simpa using fun h : c = '\n' => hwords (h ▸ hc)
    simp only [textOf_cons, text, List.cons_append, List.nil_append, List.append_assoc] at ih ⊢
    rw [body_comment, List.takeWhile_append_of_pos hwords', List.dropWhile_append_of_pos hwords']
    simp [ih]

/-- Pieces that are cut off anywhere can be parted, except between a comment and its line feed. -/
theorem of_append {depth depth' : Nat} {front back : List Piece}
    (h : Lexed depth (front ++ back) depth')
    (hcut : back.head? ≠ some (.blank '\n') ∨ ∀ words, front.getLast? ≠ some (.comment words)) :
    ∃ middle, Lexed depth front middle ∧ Lexed middle back depth' := by
  generalize hcat : front ++ back = pieces at h
  induction h generalizing front with
  | nil =>
    obtain ⟨rfl, rfl⟩ := List.append_eq_nil_iff.1 hcat
    exact ⟨_, .nil, .nil⟩
  | cons hstep h ih =>
    cases front with
    | nil =>
      obtain rfl : back = _ := hcat
      exact ⟨_, .nil, .cons hstep h⟩
    | cons piece front =>
      obtain ⟨rfl, htail⟩ := List.cons.inj hcat
      refine (ih (hcut.imp_right fun hlast words heq => hlast words ?_) htail).imp
        fun _ h => ⟨.cons hstep h.1, h.2⟩
      rw [List.getLast?_cons, heq]
      rfl
  | comment hwords h ih =>
    cases front with
    | nil =>
      obtain rfl : back = _ := hcat
      exact ⟨_, .nil, .comment hwords h⟩
    | cons piece front =>
      obtain ⟨rfl, htail⟩ := List.cons.inj hcat
      cases front with
      | nil =>
        obtain rfl : back = _ := htail
        simp at hcut
      | cons piece front =>
        obtain ⟨rfl, -⟩ := List.cons.inj htail
        refine (ih (hcut.imp_right fun hlast words heq => hlast words ?_) htail).imp
          fun _ h => ⟨.comment hwords h.1, h.2⟩
        rw [List.getLast?_cons, heq]
        rfl

end Lexed

/-- All pieces up to a bracket that ends them stand for themselves. -/
theorem lexed_body_of_bracket {depth : Nat} {text rest : List Char}
    (h : (body depth text).2 = .closed rest ∨ ∃ c, (body depth text).2 = .unbalanced c rest) :
    Lexed depth (body depth text).1 0 ∧ ∃ c after, rest = c :: after ∧
      (c = ']' ∨ c = ')' ∨ c = '\x7d') ∧ (body depth text).2
        = if c = ']' then .closed (c :: after) else .unbalanced c (c :: after) := by
  fun_induction body depth text with
  | case1 => simp at h
  | case2 => simp at h
  | case3 depth c text style hstyle inside after hscan pieces ending heq ih =>
    rw [heq] at ih
    obtain ⟨hpieces, hrest⟩ := ih h
    rw [← QuoteStyle.mark_of_ofMark? hstyle] at hscan
    exact ⟨.cons (.literal (Literal.scan?_inside hscan [])) hpieces, hrest⟩
  | case4 depth text pieces ending heq _ ih =>
    rw [heq] at ih
    obtain ⟨hpieces, hrest⟩ := ih h
    refine ⟨?_, hrest⟩
    -- A bracket ends the pieces behind the comment, so a line feed ends the comment.
    cases hdrop : text.dropWhile (· ≠ '\n') with
    | nil =>
      rw [hdrop, body] at heq
      obtain ⟨-, rfl⟩ := Prod.mk.inj heq
      simp at h
    | cons c more =>
      have hc : c = '\n' := by
        have := List.head?_dropWhile_not (· ≠ '\n') text
        rw [hdrop] at this
        simpa using this
      subst hc
      rw [hdrop, body_other rfl (by simp) (by simp) (by simp)] at heq
      obtain ⟨rfl, -⟩ := Prod.mk.inj heq
      refine .comment (fun hmem => ?_) hpieces
      simpa using List.mem_takeWhile_imp hmem
  | case5 depth c text _ _ hopen pieces ending heq ih =>
    rw [heq] at ih
    obtain ⟨hpieces, hrest⟩ := ih h
    exact ⟨.cons (.opening hopen) hpieces, hrest⟩
  | case6 c text _ _ _ hclose =>
    refine ⟨.nil, c, text, ?_, hclose, rfl⟩
    by_cases hc : c = ']'
    · rw [if_pos hc] at h
      exact (Ending.closed.inj (h.resolve_right nofun)).symm
    · rw [if_neg hc] at h
      obtain ⟨_, h⟩ := h.resolve_left nofun
      exact (Ending.unbalanced.inj h).2.symm
  | case7 c text _ _ _ hclose depth pieces ending heq ih =>
    rw [heq] at ih
    obtain ⟨hpieces, hrest⟩ := ih h
    exact ⟨.cons (.closing hclose) hpieces, hrest⟩
  | case8 depth c text hquote hhash hopen hclose pieces ending heq piece ih =>
    rw [heq] at ih
    obtain ⟨hpieces, hrest⟩ := ih h
    refine ⟨?_, hrest⟩
    by_cases hcomma : c = ',' ∧ depth = 0
    · obtain ⟨rfl, rfl⟩ := hcomma
      exact .cons .separator hpieces
    · by_cases hblank : isListBlank c
      · simp only [piece, dif_neg hcomma, dif_pos hblank]
        exact .cons (.blank hblank) hpieces
      · simp only [piece, dif_neg hcomma, dif_neg hblank]
        exact .cons (.plain hquote hhash hopen hclose hcomma hblank) hpieces

/-- All pieces of a list that is closed stand for themselves. -/
theorem lexed_body {depth : Nat} {text rest : List Char}
    (h : (body depth text).2 = .closed rest) :
    Lexed depth (body depth text).1 0 ∧ ∃ after, rest = ']' :: after := by
  obtain ⟨hpieces, c, after, rfl, -, hending⟩ := lexed_body_of_bracket (.inl h)
  refine ⟨hpieces, after, ?_⟩
  by_cases hc : c = ']'
  · rw [hc]
  · rw [h, if_neg hc] at hending
    cases hending

end Piece

end StubManager
