import Mathlib.Data.Option.Basic
import StubManager.Proofs.Yaml.Layout
import StubManager.Proofs.Yaml.Shifting

/-!
# Layouts further on

What is read of a place does not depend on the tokens before it nor on where in the text it is: the
rest of a text is read the same above any `Ground` (`finish?_above`). Only a byte order mark at the
very start of a text is told apart, so the place must not be the start (`Raised`).
-/

namespace StubManager.Yaml

/-- What lies before a place. -/
structure Ground where
  tokens : List Token
  /-- How many tokens lie before. -/
  count : Nat
  /-- How many characters lie before. -/
  index : Nat
  /-- How many lines lie before. -/
  line : Nat

variable {α : Type} {g : Ground}

/-- A key behind the ground. -/
def KeyStart.above (g : Ground) (key : KeyStart) : KeyStart :=
  { key with
    count := key.count + g.count, index := key.index + g.index, line := key.line + g.line }

namespace Layout

/-- A place behind the ground. -/
def above (g : Ground) (l : Layout) : Layout where
  cursor := l.cursor.shift g.index g.line
  tokens := l.tokens ++ g.tokens
  count := l.count + g.count
  blocks := l.blocks
  keyStart := l.keyStart.map (·.above g)
  outer := l.outer.map (·.map (·.above g))
  keyAllowed := l.keyAllowed

/-- A place behind the start of the text whose tokens are counted. -/
structure Raised (l : Layout) : Prop where
  count : l.count = l.tokens.length
  index : 0 < l.cursor.index

/-- The place behind a step and the place behind the same step above the ground. -/
structure Rises (g : Ground) (x y : Option Layout) : Prop where
  above : y = x.map (·.above g)
  raised : ∀ l ∈ x, l.Raised

variable {l : Layout}

@[simp] theorem rises_none : Rises g none none := ⟨rfl, by simp⟩

theorem rises_some (h : l.Raised) : Rises g (some l) (some (l.above g)) :=
  ⟨rfl, by simpa using h⟩

theorem Rises.bind {x y : Option Layout} {f f' : Layout → Option Layout} (h : Rises g x y)
    (hf : ∀ l, l.Raised → Rises g (f l) (f' (l.above g))) : Rises g (x.bind f) (y.bind f') := by
  obtain ⟨rfl, hraised⟩ := h
  cases x with
  | none => exact rises_none
  | some l => exact hf l (hraised l rfl)

/-! ## Parts of a place -/

@[simp] theorem cursor_above : (l.above g).cursor = l.cursor.shift g.index g.line := rfl

@[simp] theorem tokens_above : (l.above g).tokens = l.tokens ++ g.tokens := rfl

@[simp] theorem blocks_above : (l.above g).blocks = l.blocks := rfl

@[simp] theorem keyAllowed_above : (l.above g).keyAllowed = l.keyAllowed := rfl

@[simp] theorem inFlow_above : (l.above g).inFlow = l.inFlow := by
  simp [inFlow, above]

@[simp] theorem contentColumn_above : (l.above g).contentColumn = l.contentColumn := rfl

/-! ## Tokens -/

theorem push_above (token : Token) : (l.above g).push token = (l.push token).above g := by
  simp [push, above, Nat.add_right_comm]

theorem Raised.push (h : l.Raised) (token : Token) : (l.push token).Raised :=
  ⟨congrArg (· + 1) h.count, h.index⟩

theorem insert_above (h : l.Raised) (count : Nat) (token : Token) :
    (l.above g).insert (count + g.count) token = (l.insert count token).above g := by
  have hcount : l.count - count ≤ l.tokens.length := h.count ▸ Nat.sub_le ..
  simp [insert, above, Nat.add_sub_add_right, List.take_append_of_le_length hcount,
    List.drop_append_of_le_length hcount, Nat.add_right_comm]

theorem Raised.insert (h : l.Raised) (count : Nat) (token : Token) : (l.insert count token).Raised where
  count := by
    have := h.count
    simp [Layout.insert]
    omega
  index := h.index

theorem openBlock_above (h : l.Raised) (column count : Nat) (token : Token) :
    (l.above g).openBlock column (count + g.count) token
      = (l.openBlock column count token).above g := by
  have hopened : Raised { l with blocks := column :: l.blocks } := ⟨h.count, h.index⟩
  simp only [openBlock, inFlow_above, contentColumn_above]
  split
  · exact insert_above hopened count token
  · rfl

theorem Raised.openBlock (h : l.Raised) (column count : Nat) (token : Token) :
    (l.openBlock column count token).Raised := by
  rw [Layout.openBlock]
  split
  · exact Raised.insert (l := { l with blocks := column :: l.blocks }) ⟨h.count, h.index⟩ count token
  · exact h

theorem closeBlocks_above (stays : Nat → Bool) :
    (l.above g).closeBlocks stays = (l.closeBlocks stays).above g := by
  simp only [closeBlocks, inFlow_above, blocks_above]
  split
  · rfl
  · simp [above, Nat.add_right_comm]

theorem Raised.closeBlocks (h : l.Raised) (stays : Nat → Bool) : (l.closeBlocks stays).Raised := by
  rw [Layout.closeBlocks]
  split
  · exact h
  · refine ⟨?_, h.index⟩
    have := h.count
    simp
    omega

theorem sign_above (token : Token) (n : Nat) : (l.above g).sign token n = (l.sign token n).above g := by
  rw [sign, sign, ← push_above]
  simp [above]

theorem Raised.sign (h : l.Raised) (token : Token) (n : Nat) : (l.sign token n).Raised :=
  Raised.push (l := { l with cursor := l.cursor.skip n }) ⟨h.count, Nat.lt_add_right n h.index⟩ token

/-! ## Keys -/

theorem isStale_above (c : Cursor) (key : KeyStart) :
    isStale (c.shift g.index g.line) (key.above g) = isStale c key := by
  simp [isStale, KeyStart.above, Nat.add_right_comm]

theorem rises_dropKey? (h : l.Raised) : Rises g l.dropKey? (l.above g).dropKey? := by
  have hrequired : (l.above g).keyStart.any (·.required) = l.keyStart.any (·.required) := by
    cases hkey : l.keyStart <;> simp [above, hkey, KeyStart.above]
  rw [dropKey?, dropKey?, hrequired]
  split
  · exact rises_none
  · exact rises_some (l := { l with keyStart := none }) ⟨h.count, h.index⟩

theorem rises_saveKey? (h : l.Raised) : Rises g l.saveKey? (l.above g).saveKey? := by
  rw [saveKey?, saveKey?, keyAllowed_above]
  by_cases hallowed : l.keyAllowed
  · rw [if_pos hallowed, if_pos hallowed]
    refine (rises_dropKey? h).bind fun l hl => ⟨?_, by simpa using ⟨hl.count, hl.index⟩⟩
    simp [above, KeyStart.above, inFlow]
  · rw [if_neg hallowed, if_neg hallowed]
    exact rises_some h

/-- What becomes of a place where a key may have started. -/
def freshKey? (c : Cursor) : Option KeyStart → Option (Option KeyStart)
  | none => some none
  | some key =>
    if isStale c key then (if key.required then none else some none) else some (some key)

theorem freshKey?_above (c : Cursor) (key : Option KeyStart) :
    freshKey? (c.shift g.index g.line) (key.map (·.above g))
      = (freshKey? c key).map (·.map (·.above g)) := by
  cases key with
  | none => rfl
  | some key =>
    simp only [freshKey?, Option.map_some, isStale_above]
    split
    · change (if key.required then none else some none) = _
      split <;> rfl
    · rfl

theorem mapM_freshKey?_above (c : Cursor) (keys : List (Option KeyStart)) :
    (keys.map (·.map (·.above g))).mapM (freshKey? (c.shift g.index g.line))
      = (keys.mapM (freshKey? c)).map (·.map (·.map (·.above g))) := by
  induction keys with
  | nil => rfl
  | cons key keys ih =>
    rw [List.map_cons, List.mapM_cons, List.mapM_cons, freshKey?_above, ih]
    cases freshKey? c key with
    | none => rfl
    | some key => cases keys.mapM (freshKey? c) <;> rfl

theorem dropStale?_eq (l : Layout) :
    l.dropStale? = (freshKey? l.cursor l.keyStart).bind fun keyStart =>
      (l.outer.mapM (freshKey? l.cursor)).map fun outer => { l with keyStart, outer } := by
  unfold dropStale?
  extract_lets fresh
  have hfresh : fresh = freshKey? l.cursor := by
    funext key
    cases key <;> rfl
  rw [hfresh]
  cases freshKey? l.cursor l.keyStart with
  | none => rfl
  | some key => cases l.outer.mapM (freshKey? l.cursor) <;> rfl

theorem rises_dropStale? (h : l.Raised) : Rises g l.dropStale? (l.above g).dropStale? := by
  rw [dropStale?_eq, dropStale?_eq]
  change Rises g _ ((freshKey? (l.cursor.shift g.index g.line) (l.keyStart.map (·.above g))).bind
    fun keyStart => ((l.outer.map (·.map (·.above g))).mapM
      (freshKey? (l.cursor.shift g.index g.line))).map fun outer =>
        { l.above g with keyStart, outer })
  rw [freshKey?_above, mapM_freshKey?_above]
  cases freshKey? l.cursor l.keyStart with
  | none => exact rises_none
  | some keyStart =>
    cases l.outer.mapM (freshKey? l.cursor) with
    | none => exact rises_none
    | some outer => exact rises_some (l := { l with keyStart, outer }) ⟨h.count, h.index⟩

/-! ## Spacing -/

/-- The cursor behind gaps and a comment. -/
def skipComment (tabs : Bool) (c : Cursor) : Cursor :=
  let c := c.skipWhile fun ch => ch = ' ' || (tabs && ch = '\t')
  if c.next (· = '#') then c.skipWhile (!isBreak ·) else c

/-- What spacing comes to, a line at a time, but at a mark at the start of the text. -/
theorem skipSpacing_succ (h : 0 < l.cursor.index ∨ l.cursor.next (· = '\ufeff') = false)
    (fuel : Nat) :
    l.skipSpacing (fuel + 1) = match (skipComment (l.inFlow || !l.keyAllowed) l.cursor).break? with
      | some (_, c) => skipSpacing fuel { l with cursor := c, keyAllowed := l.keyAllowed || !l.inFlow }
      | none => { l with cursor := skipComment (l.inFlow || !l.keyAllowed) l.cursor } := by
  have hmark : ¬ (l.cursor.index = 0 ∧ l.cursor.next (· = '\ufeff')) := by
    rintro ⟨hindex, hmark⟩
    obtain h | h := h
    · omega
    · exact absurd hmark (by simp [h])
  rw [skipSpacing, if_neg hmark]
  rfl

@[simp] theorem skipComment_shift (tabs : Bool) (d e : Nat) (c : Cursor) :
    skipComment tabs (c.shift d e) = (skipComment tabs c).shift d e := by
  simp only [skipComment, Cursor.skipWhile_shift, Cursor.next_shift]
  split <;> rfl

theorem index_le_skipComment (tabs : Bool) (c : Cursor) :
    c.index ≤ (skipComment tabs c).index :=
  Shifts.index_le (f := fun c => some ((), skipComment tabs c))
    (fun d e c => congrArg (fun c => some ((), c)) (skipComment_shift tabs d e c)) rfl

theorem index_le_of_break? {c c' : Cursor} {text : List Char} (h : c.break? = some (text, c')) :
    c.index ≤ c'.index :=
  Shifts.index_le (fun _ _ _ => Cursor.break?_shift ..) h

theorem skipSpacing_above (h : l.Raised) (fuel : Nat) :
    (l.above g).skipSpacing fuel = (l.skipSpacing fuel).above g ∧ (l.skipSpacing fuel).Raised := by
  induction fuel generalizing l with
  | zero => exact ⟨rfl, h⟩
  | succ fuel ih =>
    have hindex : 0 < (skipComment (l.inFlow || !l.keyAllowed) l.cursor).index :=
      Nat.lt_of_lt_of_le h.index (index_le_skipComment _ _)
    rw [skipSpacing_succ (.inl h.index), skipSpacing_succ (.inl (Nat.lt_add_right _ h.index)),
      inFlow_above, keyAllowed_above, cursor_above, skipComment_shift, Cursor.break?_shift]
    cases hbreak : (skipComment (l.inFlow || !l.keyAllowed) l.cursor).break? with
    | none => exact ⟨rfl, h.count, hindex⟩
    | some step =>
      refine ih (l := { l with cursor := step.2, keyAllowed := l.keyAllowed || !l.inFlow }) ?_
      exact ⟨h.count, Nat.lt_of_lt_of_le hindex (index_le_of_break? hbreak)⟩

/-! ## Steps -/

theorem Rises.of_guard {p : Prop} [Decidable p] {x y : Option Layout} (h : Rises g x y) :
    Rises g (guard p >>= fun _ => x) (guard p >>= fun _ => y) := by
  by_cases hp : p
  · have hguard : (guard p : Option Unit) = some () := if_pos hp
    rw [hguard]
    exact h
  · have hguard : (guard p : Option Unit) = none := if_neg hp
    rw [hguard]
    exact rises_none

theorem Rises.ite {p : Prop} [Decidable p] {x x' y y' : Option Layout} (h : Rises g x y)
    (h' : Rises g x' y') : Rises g (if p then x else x') (if p then y else y') := by
  split
  · exact h
  · exact h'

theorem rises_sign {l' : Layout} (h : l.Raised) (heq : l' = l.above g) (token : Token) (n : Nat) :
    Rises g (some (l.sign token n)) (some (l'.sign token n)) := by
  rw [heq, sign_above]
  exact rises_some (h.sign token n)

/-- What a reader has read is pushed. -/
theorem rises_push (h : l.Raised) {read : Cursor → Option (Token × Cursor)} (hread : Shifts read)
    {c : Cursor} (hc : 0 < c.index) :
    Rises g (read c >>= fun (token, cursor) => some ({ l with cursor }.push token))
      (read (c.shift g.index g.line) >>= fun (token, cursor) =>
        some ({ l.above g with cursor }.push token)) := by
  rw [hread]
  cases hstep : read c with
  | none => exact rises_none
  | some step =>
    have hraised : Raised { l with cursor := step.2 } :=
      ⟨h.count, Nat.lt_of_lt_of_le hc (hread.index_le hstep)⟩
    refine ⟨congrArg some ?_, by simpa using hraised.push step.1⟩
    exact push_above (l := { l with cursor := step.2 }) step.1

theorem rises_word? (h : l.Raised) (keyAllowed : Bool) {read : Cursor → Option (Token × Cursor)}
    (hread : Shifts read) :
    Rises g (l.word? keyAllowed (read l.cursor))
      ((l.above g).word? keyAllowed (read (l.cursor.shift g.index g.line))) :=
  (rises_saveKey? h).bind fun l hl =>
    rises_push (l := { l with keyAllowed }) ⟨hl.count, hl.index⟩ hread h.index

theorem rises_openBracket? (h : l.Raised) (token : Token) :
    Rises g (l.openBracket? token) ((l.above g).openBracket? token) :=
  (rises_saveKey? h).bind fun l hl => rises_sign
    (l := { l with keyStart := none, outer := l.keyStart :: l.outer, keyAllowed := true })
    ⟨hl.count, hl.index⟩ rfl token 1

theorem rises_closeBracket? (h : l.Raised) (token : Token) :
    Rises g (l.closeBracket? token) ((l.above g).closeBracket? token) := by
  refine (rises_dropKey? h).bind fun l hl => ?_
  obtain ⟨cursor, tokens, count, blocks, keyStart, outer, keyAllowed⟩ := l
  cases outer with
  | nil => exact rises_none
  | cons key outer =>
    exact rises_sign (l := ⟨cursor, tokens, count, blocks, key, outer, false⟩)
      ⟨hl.count, hl.index⟩ rfl token 1

theorem rises_blockItem? (h : l.Raised) : Rises g l.blockItem? (l.above g).blockItem? := by
  rw [blockItem?, blockItem?, inFlow_above, keyAllowed_above]
  refine Rises.of_guard ?_
  rw [show ((l.above g).openBlock (l.above g).cursor.column (l.above g).count .blockSequenceStart)
    = _ from openBlock_above h ..]
  exact (rises_dropKey? (h.openBlock ..)).bind fun l hl =>
    rises_sign (l := { l with keyAllowed := true }) ⟨hl.count, hl.index⟩ rfl .blockEntry 1

theorem rises_keySign? (h : l.Raised) : Rises g l.keySign? (l.above g).keySign? := by
  rw [keySign?, keySign?, inFlow_above, keyAllowed_above]
  refine Rises.of_guard ?_
  rw [show ((l.above g).openBlock (l.above g).cursor.column (l.above g).count .blockMappingStart)
    = _ from openBlock_above h ..]
  refine (rises_dropKey? (h.openBlock ..)).bind fun l hl => ?_
  rw [inFlow_above]
  exact rises_sign (l := { l with keyAllowed := !l.inFlow }) ⟨hl.count, hl.index⟩ rfl .key 1

theorem rises_valueSign? (h : l.Raised) : Rises g l.valueSign? (l.above g).valueSign? := by
  cases hkey : l.keyStart with
  | some start =>
    have hkey' : (l.above g).keyStart = some (start.above g) := by simp [above, hkey]
    have hopened := (h.insert start.count .key).openBlock start.column start.count .blockMappingStart
    have heq : ((l.above g).insert (start.count + g.count) .key).openBlock start.column
        (start.count + g.count) .blockMappingStart = _ :=
      insert_above h start.count .key ▸ openBlock_above (h.insert start.count .key) ..
    rw [valueSign?, valueSign?, hkey, hkey']
    dsimp only [KeyStart.above]
    rw [heq]
    generalize (l.insert _ _).openBlock _ _ _ = l at hopened ⊢
    exact rises_sign (l := { l with keyStart := none, keyAllowed := false })
      ⟨hopened.count, hopened.index⟩ rfl .value 1
  | none =>
    have hkey' : (l.above g).keyStart = none := by simp [above, hkey]
    have hopened := h.openBlock l.cursor.column l.count .blockMappingStart
    have heq : (l.above g).openBlock (l.above g).cursor.column (l.above g).count .blockMappingStart
        = (l.openBlock l.cursor.column l.count .blockMappingStart).above g := openBlock_above h ..
    rw [valueSign?, valueSign?, hkey, hkey', inFlow_above, keyAllowed_above]
    refine Rises.of_guard ?_
    dsimp only
    rw [heq, inFlow_above]
    generalize l.openBlock _ _ _ = l at hopened ⊢
    exact rises_sign (l := { l with keyAllowed := !l.inFlow }) ⟨hopened.count, hopened.index⟩ rfl
      .value 1

theorem rises_atMargin? (h : l.Raised) : Rises g l.atMargin? (l.above g).atMargin? := by
  rw [atMargin?, atMargin?, closeBlocks_above]
  exact (rises_dropKey? (h.closeBlocks _)).bind fun l hl =>
    rises_some (l := { l with keyAllowed := false }) ⟨hl.count, hl.index⟩

/-- A plain scalar with the place behind it. -/
theorem shifts_plainScalar? (flow : Bool) (indent : Nat) : Shifts fun c =>
    (plainScalar? flow indent c).map fun (token, broken, c) => ((token, broken), c) := by
  intro d e c
  dsimp only
  rw [plainScalar?_shift, Option.map_map, Option.map_map]
  rfl

theorem rises_plain? (h : l.Raised) : Rises g l.plain? (l.above g).plain? := by
  refine (rises_saveKey? h).bind fun l hl => ?_
  rw [inFlow_above, contentColumn_above, cursor_above, plainScalar?_shift]
  cases hstep : plainScalar? l.inFlow l.contentColumn l.cursor with
  | none => exact rises_none
  | some step =>
    obtain ⟨token, broken, cursor⟩ := step
    have hle : l.cursor.index ≤ cursor.index :=
      (shifts_plainScalar? l.inFlow l.contentColumn).index_le (a := (token, broken))
        (by rw [hstep, Option.map_some])
    have hraised : Raised { l with cursor, keyAllowed := broken } :=
      ⟨hl.count, Nat.lt_of_lt_of_le hl.index hle⟩
    refine ⟨congrArg some ?_, by simpa using hraised.push token⟩
    exact push_above (l := { l with cursor, keyAllowed := broken }) token

theorem rises_step? (h : l.Raised) : Rises g l.step? (l.above g).step? := by
  rw [step?.eq_def, step?.eq_def]
  dsimp only [cursor_above, Cursor.rest_shift, Cursor.column_shift, Cursor.spacedAfter_shift,
    Cursor.atDocumentMark_shift]
  rw [inFlow_above]
  split
  · exact rises_none
  · next ch rest hrest =>
    have hname (token : List Char → Token) :
        Shifts fun c => (anchorName? c).map fun read => (token read.1, read.2) := by
      intro d e c
      dsimp only
      rw [anchorName?_shift, Option.map_map, Option.map_map]
      rfl
    refine .ite ?directive (.ite ?mark (.ite (rises_openBracket? h _) (.ite (rises_openBracket? h _)
      (.ite (rises_closeBracket? h _) (.ite (rises_closeBracket? h _) (.ite ?comma
      (.ite (rises_blockItem? h) (.ite (rises_keySign? h) (.ite (rises_valueSign? h)
      (.ite (rises_word? h false (hname .reference)) (.ite (rises_word? h false (hname .anchor))
      (.ite (rises_word? h false fun _ _ _ => tag?_shift _) (.ite ?block
      (.ite (rises_word? h false fun _ _ _ => quotedScalar?_shift false)
      (.ite (rises_word? h false fun _ _ _ => quotedScalar?_shift true)
      (.ite (rises_plain? h) rises_none))))))))))))))))
    case directive =>
      exact (rises_atMargin? h).bind fun l hl =>
        rises_push hl (fun _ _ _ => directive?_shift) h.index
    case mark => exact (rises_atMargin? h).bind fun l hl => rises_sign hl rfl _ 3
    case comma =>
      exact (rises_dropKey? h).bind fun l hl => rises_sign (l := { l with keyAllowed := true })
        ⟨hl.count, hl.index⟩ rfl .flowEntry 1
    case block =>
      exact (rises_dropKey? h).bind fun l hl => rises_push (l := { l with keyAllowed := true })
        ⟨hl.count, hl.index⟩ (fun _ _ _ => blockScalar?_shift _ _) h.index

/-! ## The rest of a text -/

/-- The place without the block collections that lie deeper. -/
def outdented (l : Layout) : Layout := l.closeBlocks (· ≤ l.cursor.column)

theorem outdented_above : (l.above g).outdented = l.outdented.above g := closeBlocks_above _

theorem Raised.outdented (h : l.Raised) : l.outdented.Raised := h.closeBlocks _

/-- Reads on at the end of the text or at a token. -/
def proceed? (fuel : Nat) (l : Layout) : Option (List Token) :=
  if l.cursor.atEnd then l.atMargin?.map (·.tokens.reverse) else l.step?.bind (finish? fuel)

/-- Reads on behind the spacing. -/
def resume? (fuel : Nat) (l : Layout) : Option (List Token) :=
  l.dropStale?.bind fun l => l.outdented.proceed? fuel

theorem finish?_eq_resume? (l : Layout) (fuel : Nat) :
    l.finish? (fuel + 1) = l.spaced.resume? fuel := finish?_succ l fuel

theorem resume?_above (h : l.Raised) {fuel : Nat}
    (hfinish : ∀ l, Raised l →
      (l.above g).finish? fuel = (l.finish? fuel).map (g.tokens.reverse ++ ·)) :
    (l.above g).resume? fuel = (l.resume? fuel).map (g.tokens.reverse ++ ·) := by
  obtain ⟨hfresh, hraised⟩ := rises_dropStale? (g := g) h
  rw [resume?, resume?, hfresh, Option.map_bind, Option.bind_map]
  cases hstale : l.dropStale? with
  | none => rfl
  | some l =>
    have hclosed := (hraised l hstale).outdented
    rw [Option.bind_some, Option.bind_some, Function.comp_apply, Function.comp_apply,
      outdented_above]
    generalize l.outdented = l at hclosed ⊢
    rw [proceed?, proceed?, cursor_above, Cursor.atEnd_shift]
    split
    · rw [(rises_atMargin? hclosed).above, Option.map_map, Option.map_map]
      congr 1
      funext l
      simp
    · obtain ⟨hstep, hstepped⟩ := rises_step? (g := g) hclosed
      rw [hstep]
      cases hl : l.step? with
      | none => rfl
      | some l => exact hfinish l (hstepped l hl)

/-- The rest of a text is read the same above any ground. -/
theorem finish?_above (h : l.Raised) (fuel : Nat) :
    (l.above g).finish? fuel = (l.finish? fuel).map (g.tokens.reverse ++ ·) := by
  induction fuel generalizing l with
  | zero => rfl
  | succ fuel ih =>
    obtain ⟨hspaced, hraised⟩ := skipSpacing_above (g := g) h (l.cursor.rest.length + 1)
    have hspaced : (l.above g).spaced = l.spaced.above g := hspaced
    rw [finish?_eq_resume?, finish?_eq_resume?, hspaced]
    exact resume?_above hraised fun l hl => ih hl

/-- More fuel does not matter. -/
theorem finish?_mono {fuel fuel' : Nat} {tokens : List Token} (h : l.finish? fuel = some tokens)
    (hle : fuel ≤ fuel') : l.finish? fuel' = some tokens := by
  induction fuel generalizing l fuel' with
  | zero => cases h
  | succ fuel ih =>
    obtain ⟨fuel', rfl⟩ := Nat.exists_eq_add_one.2 (Nat.lt_of_lt_of_le (Nat.succ_pos fuel) hle)
    rw [finish?_eq_resume?, resume?, Option.bind_eq_some_iff] at h ⊢
    obtain ⟨l, hstale, h⟩ := h
    refine ⟨l, hstale, ?_⟩
    rw [proceed?] at h ⊢
    split
    · next hend => rwa [if_pos hend] at h
    · next hend =>
      rw [if_neg hend, Option.bind_eq_some_iff] at h
      obtain ⟨l', hstep, hfinish⟩ := h
      rw [hstep]
      exact ih hfinish (Nat.le_of_succ_le_succ hle)

end Layout

end StubManager.Yaml
