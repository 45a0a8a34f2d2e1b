import Mathlib.Data.Option.Basic
import StubManager.Proofs.Yaml.Cursor

/-!
# Reading further on

A text is read the same wherever it starts: no reader of a token looks at the line or at how many
characters lie before, only at the column. So what is read of a shifted cursor is what is read of
the cursor, shifted (`Shifts`), and no reader goes back (`Shifts.index_le`).
-/

namespace StubManager.Yaml

variable {α : Type}

namespace Cursor

/-- The same text, `d` characters and `e` lines further on. -/
def shift (d e : Nat) (c : Cursor) : Cursor := { c with index := c.index + d, line := c.line + e }

variable (d e : Nat) (c : Cursor)

@[simp] theorem rest_shift : (c.shift d e).rest = c.rest := rfl

@[simp] theorem index_shift : (c.shift d e).index = c.index + d := rfl

@[simp] theorem line_shift : (c.shift d e).line = c.line + e := rfl

@[simp] theorem column_shift : (c.shift d e).column = c.column := rfl

@[simp] theorem next_shift (p : Char → Bool) : (c.shift d e).next p = c.next p := rfl

@[simp] theorem atEnd_shift : (c.shift d e).atEnd = c.atEnd := rfl

@[simp] theorem spacedAfter_shift (n : Nat) : (c.shift d e).spacedAfter n = c.spacedAfter n := rfl

@[simp] theorem atDocumentMark_shift : (c.shift d e).atDocumentMark = c.atDocumentMark := rfl

@[simp] theorem skip_shift (n : Nat) : (c.shift d e).skip n = (c.skip n).shift d e := by
  simp [skip, shift, Nat.add_right_comm]

@[simp] theorem nextLine_shift (n : Nat) : (c.shift d e).nextLine n = (c.nextLine n).shift d e := by
  simp [nextLine, shift, Nat.add_right_comm]

@[simp] theorem takeWhile_shift (p : Char → Bool) :
    (c.shift d e).takeWhile p = ((c.takeWhile p).1, (c.takeWhile p).2.shift d e) := by
  simp [takeWhile]

@[simp] theorem skipWhile_shift (p : Char → Bool) :
    (c.shift d e).skipWhile p = (c.skipWhile p).shift d e := by
  simp [skipWhile]

@[simp] theorem break?_shift :
    (c.shift d e).break? = c.break?.map fun (text, c) => (text, c.shift d e) := by
  simp only [break?, rest_shift, nextLine_shift]
  split
  · rfl
  · split
    · rfl
    · split <;> rfl
  · rfl

@[simp] theorem skipBreak_shift : (c.shift d e).skipBreak = c.skipBreak.shift d e := by
  rw [skipBreak, skipBreak, break?_shift]
  cases c.break? <;> rfl

@[simp] theorem endLine?_shift : (c.shift d e).endLine? = c.endLine?.map (·.shift d e) := by
  have hbreak : ∀ c : Cursor, (if (c.shift d e).atEnd then some (c.shift d e)
      else (c.shift d e).break?.map (·.2))
        = (if c.atEnd then some c else c.break?.map (·.2)).map (·.shift d e) := by
    intro c
    rw [atEnd_shift, break?_shift]
    split
    · rfl
    · cases c.break? <;> rfl
  simp only [endLine?, skipWhile_shift, next_shift]
  split <;> exact hbreak _

end Cursor

/-- A reader that reads the same further on. -/
def Shifts (f : Cursor → Option (α × Cursor)) : Prop :=
  ∀ d e c, f (c.shift d e) = (f c).map fun (a, c) => (a, c.shift d e)

/-- It does not go back. -/
theorem Shifts.index_le {f : Cursor → Option (α × Cursor)} (h : Shifts f) {c c' : Cursor} {a : α}
    (hread : f c = some (a, c')) : c.index ≤ c'.index := by
  have hstart : c = ({ c with index := 0 } : Cursor).shift c.index 0 := by simp [Cursor.shift]
  rw [hstart, h, Option.map_eq_some_iff] at hread
  obtain ⟨⟨b, c''⟩, -, heq⟩ := hread
  rw [← (Prod.mk.inj heq).2]
  exact Nat.le_add_left ..

/-- Steps that move their results move that of the whole. -/
theorem bind_moved {β : Type} {x y : Option α} {m : α → α} {f f' : α → Option β} {n : β → β}
    (h : y = x.map m) (hf : ∀ a, f' (m a) = (f a).map n) :
    (y >>= f') = (x >>= f).map n := by
  subst h
  cases x with
  | none => rfl
  | some a => exact hf a

/-- A step whose result has no cursor. -/
theorem bind_same {β : Type} {x : Option α} {f f' : α → Option β} {n : β → β}
    (hf : ∀ a, f' a = (f a).map n) : (x >>= f') = (x >>= f).map n :=
  bind_moved (congrFun Option.map_id x).symm hf

variable {d e : Nat} {c : Cursor}

/-! ## Directives, anchors and tags -/

@[simp] theorem versionNumber?_shift :
    versionNumber? (c.shift d e) = (versionNumber? c).map fun (n, c) => (n, c.shift d e) := by
  simp only [versionNumber?, Cursor.takeWhile_shift]
  split <;> rfl

@[simp] theorem octet?_shift :
    octet? (c.shift d e) = (octet? c).map fun (n, c) => (n, c.shift d e) := by
  rw [octet?, octet?, Cursor.rest_shift, Cursor.skip_shift]
  split
  · exact bind_same fun _ => rfl
  · rfl

@[simp] theorem continuations?_shift (n : Nat) :
    continuations? n (c.shift d e) = (continuations? n c).map fun (ns, c) => (ns, c.shift d e) := by
  induction n generalizing c with
  | zero => rfl
  | succ n ih =>
    exact bind_moved octet?_shift fun (octet, c) => bind_same fun _ =>
      bind_moved ih fun (octets, c) => rfl

@[simp] theorem octets?_shift :
    octets? (c.shift d e) = (octets? c).map fun (text, c) => (text, c.shift d e) :=
  bind_moved octet?_shift fun (_, _) => bind_same fun _ =>
    bind_moved (continuations?_shift _) fun (_, _) => rfl

@[simp] theorem tagText?_shift (verbatim : Bool) (fuel : Nat) :
    tagText? verbatim fuel (c.shift d e)
      = (tagText? verbatim fuel c).map fun (text, c) => (text, c.shift d e) := by
  induction fuel generalizing c with
  | zero => rfl
  | succ fuel ih =>
    simp only [tagText?, Cursor.takeWhile_shift, Cursor.next_shift]
    split
    · exact bind_moved octets?_shift fun (octets, c) => bind_moved ih fun (more, c) => rfl
    · rfl

@[simp] theorem tagPart?_shift (verbatim : Bool) :
    tagPart? verbatim (c.shift d e)
      = (tagPart? verbatim c).map fun (text, c) => (text, c.shift d e) := by
  refine bind_moved (tagText?_shift verbatim _) fun (text, after) => ?_
  have hindex : ((after.shift d e).index ≠ (c.shift d e).index) = (after.index ≠ c.index) := by
    simp
  simp only [hindex]
  exact bind_same fun _ => rfl

@[simp] theorem tagHandle?_shift :
    tagHandle? (c.shift d e) = (tagHandle? c).map fun (text, c) => (text, c.shift d e) := by
  refine bind_same fun _ => ?_
  simp only [Cursor.skip_shift, Cursor.takeWhile_shift, Cursor.next_shift]
  split <;> rfl

@[simp] theorem tag?_shift (flow : Bool) :
    tag? flow (c.shift d e) = (tag? flow c).map fun (token, c) => (token, c.shift d e) := by
  unfold tag?
  extract_lets behind
  have hbehind (token : Token) (c : Cursor) : behind (token, c.shift d e)
      = (behind (token, c)).map fun (token, c) => (token, c.shift d e) := bind_same fun _ => rfl
  clear_value behind
  rw [Cursor.rest_shift, Cursor.skip_shift]
  split
  · refine bind_moved (tagPart?_shift true) fun (suffix, c) => bind_same fun _ => ?_
    rw [Cursor.skip_shift]
    exact hbehind _ _
  · refine bind_moved tagHandle?_shift fun (handle, c) => ?_
    dsimp only
    split
    · exact bind_moved (tagPart?_shift false) fun (suffix, c) => hbehind _ _
    · refine bind_moved (tagText?_shift false _) fun (more, c) => ?_
      dsimp only
      split <;> exact hbehind _ _

@[simp] theorem directive?_shift :
    directive? (c.shift d e) = (directive? c).map fun (token, c) => (token, c.shift d e) := by
  rw [directive?, directive?, Cursor.skip_shift, Cursor.takeWhile_shift]
  obtain ⟨name, c⟩ := (c.skip 1).takeWhile isWordChar
  refine bind_same fun _ => ?_
  rw [Cursor.skipWhile_shift]
  extract_lets _ behind _
  have hbehind (token : Token) (c : Cursor) : behind (token, c.shift d e)
      = (behind (token, c)).map fun (token, c) => (token, c.shift d e) :=
    bind_moved (Cursor.endLine?_shift d e c) fun _ => rfl
  clear_value behind
  split
  · refine bind_moved versionNumber?_shift fun (major, c) => bind_same fun _ => ?_
    rw [Cursor.skip_shift]
    exact bind_moved versionNumber?_shift fun (minor, c) => hbehind _ _
  · split
    · refine bind_moved tagHandle?_shift fun (handle, c) => bind_same fun _ => bind_same fun _ => ?_
      rw [Cursor.skipWhile_shift]
      exact bind_moved (tagPart?_shift true) fun (value, c) => bind_same fun _ => hbehind _ _
    · rfl

@[simp] theorem anchorName?_shift :
    anchorName? (c.shift d e) = (anchorName? c).map fun (name, c) => (name, c.shift d e) := by
  rw [anchorName?, anchorName?]
  simp only [Cursor.skip_shift, Cursor.takeWhile_shift]
  exact bind_same fun _ => bind_same fun _ => rfl

/-! ## Scalars on lines -/

@[simp] theorem Fold.read?_shift (indent fuel : Nat) (fold : Fold) :
    fold.read? indent fuel (c.shift d e)
      = (fold.read? indent fuel c).map fun (fold, c) => (fold, c.shift d e) := by
  induction fuel generalizing c fold with
  | zero => rfl
  | succ fuel ih =>
    simp only [Fold.read?, Cursor.break?_shift]
    cases hbreak : c.break? with
    | none =>
      simp only [Option.map_none, Cursor.next_shift, Cursor.column_shift, Cursor.skip_shift, ih,
        Cursor.rest_shift]
      split
      · split
        · rfl
        · split <;> rfl
      · rfl
    | some step =>
      simp only [Option.map_some, ih]
      split <;> rfl

@[simp] theorem plainText?_shift (flow : Bool) (indent fuel : Nat) (fold : Fold) :
    plainText? flow indent fuel fold (c.shift d e)
      = (plainText? flow indent fuel fold c).map
          fun (text, broken, c) => (text, broken, c.shift d e) := by
  induction fuel generalizing c fold with
  | zero => rfl
  | succ fuel ih =>
    rw [plainText?, plainText?, Cursor.atDocumentMark_shift, Cursor.next_shift, Cursor.rest_shift]
    split
    · rfl
    · refine bind_same fun length => ?_
      simp only [Cursor.skip_shift, Cursor.next_shift, Cursor.rest_shift]
      split
      · rfl
      · refine bind_moved (Fold.read?_shift indent _ _) fun (fold, c) => ?_
        change (if !flow ∧ c.column < indent then _ else _) = Option.map _ (if _ then _ else _)
        split
        · rfl
        · exact bind_moved (ih fold) fun (more, broken, c) => rfl

@[simp] theorem plainScalar?_shift (flow : Bool) (indent : Nat) :
    plainScalar? flow indent (c.shift d e)
      = (plainScalar? flow indent c).map
          fun (token, broken, c) => (token, broken, c.shift d e) :=
  bind_moved (plainText?_shift flow indent _ _) fun (_, _, _) => rfl

@[simp] theorem quotedWord?_shift (double : Bool) (fuel : Nat) :
    quotedWord? double fuel (c.shift d e)
      = (quotedWord? double fuel c).map fun (word, broken, c) => (word, broken, c.shift d e) := by
  induction fuel generalizing c with
  | zero => rfl
  | succ fuel ih =>
    have hgo (text : List Char) (n : Nat) :
        (quotedWord? double fuel ((c.shift d e).skip n)).map
            (fun (word, broken, c) => (text ++ word, broken, c))
          = ((quotedWord? double fuel (c.skip n)).map
              fun (word, broken, c) => (text ++ word, broken, c)).map
                fun (word, broken, c) => (word, broken, c.shift d e) := by
      rw [Cursor.skip_shift, ih, Option.map_map, Option.map_map]
      rfl
    simp only [quotedWord?, Cursor.rest_shift, hgo]
    split
    · rfl
    · split
      · rfl
      · split
        · split
          · rfl
          · split
            · split
              · simp only [Cursor.skip_shift, Cursor.skipBreak_shift]
                rfl
              · exact bind_same fun (_, _) => rfl
            · rfl
        · split
          · split <;> rfl
          · rfl

@[simp] theorem quotedText?_shift (double : Bool) (fuel : Nat) :
    quotedText? double fuel (c.shift d e)
      = (quotedText? double fuel c).map fun (text, c) => (text, c.shift d e) := by
  induction fuel generalizing c with
  | zero => rfl
  | succ fuel ih =>
    refine bind_same fun _ => bind_moved (quotedWord?_shift double _) fun (word, broken, c) => ?_
    simp only [Cursor.next_shift, Cursor.skip_shift]
    cases c.next _ with
    | true => rfl
    | false =>
      exact bind_moved (Fold.read?_shift 0 _ _) fun (fold, c) =>
        bind_moved ih fun (more, c) => rfl

@[simp] theorem quotedScalar?_shift (double : Bool) :
    quotedScalar? double (c.shift d e)
      = (quotedScalar? double c).map fun (token, c) => (token, c.shift d e) := by
  rw [quotedScalar?, quotedScalar?, Cursor.skip_shift]
  exact bind_moved (quotedText?_shift double _) fun (text, c) => rfl

/-! ## Block scalars -/

@[simp] theorem blockHeader?_shift :
    blockHeader? (c.shift d e)
      = (blockHeader? c).map fun (chomp, increment, c) => (chomp, increment, c.shift d e) := by
  unfold blockHeader?
  extract_lets chomp step
  have hchomp (c : Cursor) :
      chomp (c.shift d e) = (chomp c).map (Prod.map id (·.shift d e)) := by
    simp only [chomp, Cursor.next_shift, Cursor.skip_shift]
    split
    · rfl
    · split <;> rfl
  have hstep (c : Cursor) : step (c.shift d e) = (step c).map (Prod.map id (·.shift d e)) := by
    simp only [step, Cursor.rest_shift, Cursor.skip_shift]
    split
    · rfl
    · split <;> rfl
    · rfl
  clear_value chomp step
  rw [hchomp]
  cases chomp c with
  | some sign =>
    simp only [Option.map_some, Prod.map_fst, Prod.map_snd, hstep]
    cases step sign.2 <;> rfl
  | none =>
    simp only [Option.map_none, hstep]
    cases step c with
    | none => rfl
    | some digit =>
      obtain ⟨increment, c⟩ := digit
      simp only [Option.map_some, Prod.map_apply, id, hchomp, Option.bind_eq_bind, Option.bind_some]
      cases increment with
      | none => rfl
      | some n => cases chomp c <;> rfl

@[simp] theorem blockBreaks?_shift (indent? : Option Nat) (fuel : Nat) :
    blockBreaks? indent? fuel (c.shift d e)
      = (blockBreaks? indent? fuel c).map
          fun (breaks, widest, c) => (breaks, widest, c.shift d e) := by
  induction fuel generalizing c with
  | zero => rfl
  | succ fuel ih =>
    simp only [blockBreaks?, Cursor.rest_shift, Cursor.skip_shift, Cursor.column_shift,
      Cursor.next_shift, Cursor.break?_shift]
    generalize c.skip _ = c'
    split
    · rfl
    · cases c'.break? with
      | none => rfl
      | some step =>
        simp only [Option.map_some, ih, Option.map_map]
        rfl

@[simp] theorem blockText?_shift (literal : Bool) (chomp : Chomp) (indent fuel : Nat)
    (held breaks : List Char) (deeper : Bool) :
    blockText? literal chomp indent fuel held breaks deeper (c.shift d e)
      = (blockText? literal chomp indent fuel held breaks deeper c).map
          fun (text, c) => (text, c.shift d e) := by
  induction fuel generalizing c held breaks deeper with
  | zero => rfl
  | succ fuel ih =>
    have hbreak (c : Cursor) : (c.shift d e).break?.getD ([], c.shift d e)
        = ((c.break?.getD ([], c)).1, (c.break?.getD ([], c)).2.shift d e) := by
      rw [Cursor.break?_shift]
      cases c.break? <;> rfl
    simp only [blockText?, Cursor.column_shift, Cursor.atEnd_shift, Cursor.next_shift,
      Cursor.takeWhile_shift, hbreak, Cursor.rest_shift]
    split
    · refine bind_moved (blockBreaks?_shift _ _) fun (after, widest, c) => ?_
      simp only [ih, Option.map_map]
      rfl
    · cases chomp <;> rfl

@[simp] theorem blockScalar?_shift (literal : Bool) (outer : Option Nat) :
    blockScalar? literal outer (c.shift d e)
      = (blockScalar? literal outer c).map fun (token, c) => (token, c.shift d e) := by
  rw [blockScalar?.eq_def, blockScalar?.eq_def, Cursor.skip_shift]
  exact bind_moved blockHeader?_shift fun (chomp, increment, c) =>
    bind_moved (Cursor.endLine?_shift d e c) fun c =>
    bind_moved (blockBreaks?_shift _ _) fun (breaks, widest, c) =>
    bind_moved (blockText?_shift literal chomp _ _ _ _ _) fun (text, c) => rfl

end StubManager.Yaml
