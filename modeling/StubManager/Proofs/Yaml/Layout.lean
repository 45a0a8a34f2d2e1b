import StubManager.Proofs.Yaml.Block
import StubManager.Proofs.Yaml.Plain
import StubManager.Proofs.Yaml.Quoted
import StubManager.Yaml.Layout

/-!
# The layout of block mappings

A text is read token by token, and what is read of the rest depends on the place only up to the
spacing there (`Finishes.of_spaced`). 
-/

namespace StubManager.Yaml

open Scalar

namespace Layout

/-- A place outside of brackets where no key is pending. -/
def between (cursor : Cursor) (tokens : List Token) (blocks : List Nat) (keyAllowed : Bool) :
    Layout where
  cursor := cursor
  tokens := tokens
  count := tokens.length
  blocks := blocks
  keyAllowed := keyAllowed

/-- A place behind the spacing. -/
def spaced (l : Layout) : Layout := l.skipSpacing (l.cursor.rest.length + 1)

/-- The tokens that a text is read as from a place on. -/
def Finishes (l : Layout) (tokens : List Token) : Prop :=
  ∀ fuel, l.cursor.rest.length < fuel → l.finish? fuel = some tokens

theorem finish?_succ (l : Layout) (fuel : Nat) :
    l.finish? (fuel + 1) = l.spaced.dropStale?.bind fun l =>
      let l := l.closeBlocks (· ≤ l.cursor.column)
      if l.cursor.atEnd then l.atMargin?.map (·.tokens.reverse)
      else l.step?.bind (finish? fuel) := by
  rw [finish?, spaced]
  simp only [Option.bind_eq_bind, Option.pure_def]
  congr 1
  funext l
  split
  · cases (l.closeBlocks (· ≤ l.cursor.column)).atMargin? <;> rfl
  · rfl

theorem Finishes.of_spaced {l l' : Layout} {tokens : List Token} (h : l'.Finishes tokens)
    (hspaced : l.spaced = l'.spaced) (hlength : l'.cursor.rest.length ≤ l.cursor.rest.length) :
    l.Finishes tokens := by
  intro fuel hfuel
  obtain ⟨fuel, rfl⟩ := Nat.exists_eq_add_one.2 (Nat.zero_lt_of_lt hfuel)
  rw [finish?_succ, hspaced, ← finish?_succ]
  exact h _ (Nat.lt_of_le_of_lt hlength hfuel)

theorem Finishes.of_end {l l₁ l₂ l₃ : Layout} (hspaced : l.spaced = l₁)
    (hstale : l₁.dropStale? = some l₁) (hclose : l₁.closeBlocks (· ≤ l₁.cursor.column) = l₂)
    (hend : l₂.cursor.atEnd) (hmargin : l₂.atMargin? = some l₃) : l.Finishes l₃.tokens.reverse := by
  intro fuel hfuel
  obtain ⟨fuel, rfl⟩ := Nat.exists_eq_add_one.2 (Nat.zero_lt_of_lt hfuel)
  rw [finish?_succ, hspaced, hstale, Option.bind_some]
  simp only [hclose, hend, if_true, hmargin, Option.map_some]

theorem Finishes.of_step {l l₁ l₂ l₃ : Layout} {tokens : List Token} (h : l₃.Finishes tokens)
    (hspaced : l.spaced = l₁) (hstale : l₁.dropStale? = some l₁)
    (hclose : l₁.closeBlocks (· ≤ l₁.cursor.column) = l₂) (hend : l₂.cursor.atEnd = false)
    (hstep : l₂.step? = some l₃) (hlength : l₃.cursor.rest.length < l.cursor.rest.length) :
    l.Finishes tokens := by
  intro fuel hfuel
  obtain ⟨fuel, rfl⟩ := Nat.exists_eq_add_one.2 (Nat.zero_lt_of_lt hfuel)
  rw [finish?_succ, hspaced, hstale, Option.bind_some]
  simp only [hclose, hend, Bool.false_eq_true, if_false, hstep, Option.bind_some]
  exact h _ (by omega)

/-! ## Spacing -/

/-- A text that goes on with a token. -/
def Begins (text : List Char) : Prop :=
  ∀ ch ∈ text.head?, isSpacing ch = false ∧ ch ≠ '#' ∧ ch ≠ '\ufeff'

theorem Begins.solid {text : List Char} (h : Begins text) : Solid text := fun ch hch => (h ch hch).1

variable {l : Layout} {rest : List Char} {width : Nat}

/-- Spaces before a token are passed over. -/
theorem skipSpacing_of_spaces (hrest : Begins rest)
    (h : l.cursor.rest = List.replicate width ' ' ++ rest) (fuel : Nat) :
    l.skipSpacing (fuel + 1) = { l with cursor := l.cursor.skip width } := by
  have hmark : l.cursor.next (· = '\ufeff') = false := by
    rw [Cursor.next, h]
    cases width with
    | zero =>
      cases rest with
      | nil => rfl
      | cons ch rest => simpa using (hrest ch rfl).2.2
    | succ width => simp [List.replicate_succ]
  have hspaces : (l.cursor.rest.takeWhile fun ch =>
      ch = ' ' || ((l.inFlow || !l.keyAllowed) && ch = '\t')).length = width := by
    rw [h, List.takeWhile_append_of_pos (by simp), List.length_append, List.length_replicate]
    cases rest with
    | nil => simp
    | cons ch rest =>
      have hsolid := (hrest ch rfl).1
      have hspace : ch ≠ ' ' := by rintro rfl; cases hsolid
      have htab : ch ≠ '\t' := by rintro rfl; cases hsolid
      simp [hspace, htab]
  have hskip : (l.cursor.skip width).rest = rest := by simp [h]
  have hhash : (l.cursor.skip width).next (· = '#') = false := by
    rw [Cursor.next, hskip]
    cases rest with
    | nil => rfl
    | cons ch rest => simpa using (hrest ch rfl).2.1
  have hbreak : (l.cursor.skip width).break? = none :=
    Cursor.break?_of_solid (by rw [hskip]; exact hrest.solid)
  simp [skipSpacing, hmark, Cursor.skipWhile, Cursor.takeWhile, hspaces, hhash, hbreak]

/-- So is the end of a line, behind which a key may start. -/
theorem skipSpacing_of_break (hflow : l.outer = []) (hrest : Begins rest)
    (h : l.cursor.rest = '\n' :: (List.replicate width ' ' ++ rest)) (fuel : Nat) :
    l.skipSpacing (fuel + 2)
      = { l with cursor := (l.cursor.nextLine 1).skip width, keyAllowed := true } := by
  have hmark : l.cursor.next (· = '\ufeff') = false := Cursor.next_cons h _
  have hspaces : l.cursor.rest.takeWhile (fun ch =>
      ch = ' ' || ((l.inFlow || !l.keyAllowed) && ch = '\t')) = [] := by
    simp [h]
  have hhash : l.cursor.next (· = '#') = false := Cursor.next_cons h _
  have hinner : l.inFlow = false := by simp [inFlow, hflow]
  rw [skipSpacing]
  simp only [hmark, Bool.false_eq_true, and_false, if_false, Cursor.skipWhile, Cursor.takeWhile,
    hspaces, List.length_nil, Cursor.skip_zero, hhash, Cursor.break?_of_isPlainBreak h rfl]
  rw [skipSpacing_of_spaces hrest
    (show (l.cursor.nextLine 1).rest = List.replicate width ' ' ++ rest by simp [h])]
  simp [hinner]

theorem spaced_of_spaces (hrest : Begins rest)
    (h : l.cursor.rest = List.replicate width ' ' ++ rest) :
    l.spaced = { l with cursor := l.cursor.skip width } :=
  skipSpacing_of_spaces hrest h _

theorem spaced_of_begins (h : Begins l.cursor.rest) : l.spaced = l :=
  spaced_of_spaces h (show l.cursor.rest = List.replicate 0 ' ' ++ l.cursor.rest from rfl)

theorem spaced_of_break (hflow : l.outer = []) (hrest : Begins rest)
    (h : l.cursor.rest = '\n' :: (List.replicate width ' ' ++ rest)) :
    l.spaced = { l with cursor := (l.cursor.nextLine 1).skip width, keyAllowed := true } := by
  obtain ⟨fuel, hfuel⟩ : ∃ fuel, l.cursor.rest.length + 1 = fuel + 2 := ⟨_, by rw [h]; rfl⟩
  rw [spaced, hfuel]
  exact skipSpacing_of_break hflow hrest h fuel

/-! ## Steps -/

theorem dropStale?_of_none (hflow : l.outer = []) (hkey : l.keyStart = none) :
    l.dropStale? = some l := by
  cases l
  cases hflow
  cases hkey
  rfl

/-- A key that started on the line is still one. -/
theorem dropStale?_of_fresh {key : KeyStart} (hflow : l.outer = []) (hkey : l.keyStart = some key)
    (hline : key.line = l.cursor.line) (hlimit : l.cursor.index ≤ key.index + keyLimit) :
    l.dropStale? = some l := by
  have hfresh : isStale l.cursor key = false := by simp [isStale, hline, hlimit]
  cases l
  cases hflow
  cases hkey
  simp [dropStale?, hfresh]

theorem closeBlocks_of_deeper (h : ∀ column ∈ l.blocks.head?, column ≤ l.cursor.column) :
    l.closeBlocks (· ≤ l.cursor.column) = l := by
  have hnone : l.blocks.takeWhile (fun column => !decide (column ≤ l.cursor.column)) = [] := by
    cases hblocks : l.blocks with
    | nil => rfl
    | cons column blocks =>
      rw [hblocks] at h
      rw [List.takeWhile_cons_of_neg (by simpa using h column rfl)]
  rw [closeBlocks]
  split
  · rfl
  · simp [hnone]

/-- A character that a plain scalar can start with. -/
def startsPlain (text : List Char) : Bool :=
  match text with
  | [] => false
  | ch :: rest => !"#,[]\x7b\x7d&*!|>'\"%@`".toList.contains ch && !isSpacing ch
      && (!("-?:".toList.contains ch) || rest.head?.any (!isSpacing ·))

theorem step?_of_plain (hflow : l.outer = []) (hmark : l.cursor.atDocumentMark = false)
    (h : startsPlain l.cursor.rest) : l.step? = l.plain? := by
  cases hrest : l.cursor.rest with
  | nil => simp [hrest, startsPlain] at h
  | cons ch rest =>
    have hinner : l.inFlow = false := by simp [inFlow, hflow]
    have hspaced : l.cursor.spacedAfter 1 = rest.head?.all isSpacing := by
      simp [Cursor.spacedAfter, hrest]
    simp only [hrest, startsPlain, Bool.and_eq_true, Bool.or_eq_true, Bool.not_eq_true',
      List.contains_eq_mem, decide_eq_false_iff_not] at h
    obtain ⟨⟨hsign, hsolid⟩, hfollows⟩ := h
    by_cases hmid : ch ∈ "-?:".toList
    · have hsolidRest : rest.head?.all isSpacing = false := by
        have hany := hfollows.resolve_left (not_not_intro hmid)
        cases rest <;> simp_all
      have hcases : ch = '-' ∨ ch = '?' ∨ ch = ':' := by simpa using hmid
      rcases hcases with rfl | rfl | rfl <;> simp [step?, hrest, hmark, hspaced, hsolidRest, hinner]
    · simp only [String.reduceToList, List.mem_cons, List.not_mem_nil, or_false, not_or] at hsign hmid
      simp [step?, hrest, hmark, hsolid, hinner, hsign, hmid, isSign]

/-! ## Keys -/

/-- Characters of the keys of an index. -/
def isKeyChar (ch : Char) : Bool := ch.isLower || ch = '_'

/-- A key of an index. -/
def isKey (key : List Char) : Bool := !key.isEmpty && key.all isKeyChar && key.length ≤ keyLimit

theorem ne_of_isKeyChar {ch other : Char} (h : isKeyChar ch) (hother : isKeyChar other = false) :
    ch ≠ other := by
  rintro rfl
  rw [h] at hother
  cases hother

theorem isSpacing_of_isKeyChar {ch : Char} (h : isKeyChar ch) : isSpacing ch = false := by
  have hne : ∀ other, isKeyChar other = false → ch ≠ other := fun other => ne_of_isKeyChar h
  simp [isSpacing, isGap, isBreak, hne ' ' (by decide), hne '\t' (by decide), hne '\n' (by decide),
    hne '\x0d' (by decide), hne '\u0085' (by decide), hne '\u2028' (by decide),
    hne '\u2029' (by decide)]

section

variable {key : List Char} (hkey : isKey key)

include hkey

theorem ne_nil_of_isKey : key ≠ [] := by
  rintro rfl
  cases hkey

theorem isKeyChar_of_isKey : ∀ ch ∈ key, isKeyChar ch := by
  simp only [isKey, Bool.and_eq_true, List.all_eq_true] at hkey
  exact hkey.1.2

theorem length_of_isKey : key.length ≤ keyLimit := by
  simp only [isKey, Bool.and_eq_true, decide_eq_true_eq] at hkey
  exact hkey.2

theorem plainWord_of_isKey : PlainWord key where
  ne_nil := ne_nil_of_isKey hkey
  solid ch hch := isSpacing_of_isKeyChar (isKeyChar_of_isKey hkey ch hch)
  colon hlast :=
    ne_of_isKeyChar (isKeyChar_of_isKey hkey ':' (List.mem_of_getLast? hlast)) (by decide) rfl
  hash hhead :=
    ne_of_isKeyChar (isKeyChar_of_isKey hkey '#' (List.mem_of_head? hhead)) (by decide) rfl

theorem startsPlain_of_isKey (rest : List Char) : startsPlain (key ++ rest) := by
  obtain ⟨ch, more, rfl⟩ := List.exists_cons_of_ne_nil (ne_nil_of_isKey hkey)
  have hch : isKeyChar ch := isKeyChar_of_isKey hkey ch (List.mem_cons_self ..)
  have hsigns : ∀ other ∈ "#,[]\x7b\x7d&*!|>'\"%@`-?:".toList, ch ≠ other := by
    have hall : "#,[]\x7b\x7d&*!|>'\"%@`-?:".toList.all fun other => !isKeyChar other := by decide
    exact fun other hother =>
      ne_of_isKeyChar hch (by simpa using List.all_eq_true.1 hall other hother)
  simp at hsigns
  simp [startsPlain, isSpacing_of_isKeyChar hch, hsigns]

theorem begins_of_isKey (rest : List Char) : Begins (key ++ rest) := by
  obtain ⟨ch, more, rfl⟩ := List.exists_cons_of_ne_nil (ne_nil_of_isKey hkey)
  have hch : isKeyChar ch := isKeyChar_of_isKey hkey ch (List.mem_cons_self ..)
  simpa [Begins] using ⟨isSpacing_of_isKeyChar hch, ne_of_isKeyChar hch (by decide),
    ne_of_isKeyChar hch (by decide)⟩

theorem atDocumentMark_of_isKey {c : Cursor} {rest : List Char} (h : c.rest = key ++ rest) :
    c.atDocumentMark = false := by
  obtain ⟨ch, more, rfl⟩ := List.exists_cons_of_ne_nil (ne_nil_of_isKey hkey)
  have hch : isKeyChar ch := isKeyChar_of_isKey hkey ch (List.mem_cons_self ..)
  have hhyphen : ch ≠ '-' := ne_of_isKeyChar hch (by decide)
  have hdot : ch ≠ '.' := ne_of_isKeyChar hch (by decide)
  simp [Cursor.atDocumentMark, h, hhyphen, hdot]

end

/-- The place behind a word that may be a key. -/
def behindKey (c : Cursor) (key : List Char) (tokens : List Token) (blocks : List Nat) : Layout where
  cursor := c.skip key.length
  tokens := .scalar key true :: tokens
  count := tokens.length + 1
  blocks := blocks
  keyStart := some
    { count := tokens.length, index := c.index, line := c.line, column := c.column,
      required := blocks.head? == some c.column }
  keyAllowed := false

variable {c : Cursor} {key : List Char} {tokens : List Token} {blocks : List Nat}

theorem step?_of_key (hkey : isKey key) (hrest : rest.head?.all isSpacing)
    (hc : c.rest = key ++ ':' :: rest) (tokens : List Token) (blocks : List Nat) :
    (between c tokens blocks true).step? = some (behindKey c key tokens blocks) := by
  have hmark := atDocumentMark_of_isKey hkey hc
  have hplain : startsPlain c.rest := hc ▸ startsPlain_of_isKey hkey _
  have hscalar := plainScalar?_of_key (plainWord_of_isKey hkey) hrest hc hmark
  rw [step?_of_plain rfl hmark hplain]
  simp [plain?, saveKey?, dropKey?, between, behindKey, inFlow, hscalar, push]

/-- The token that opens a block mapping in a column, and the blocks that are open then. -/
def opening (column : Nat) (blocks : List Nat) : List Token × List Nat :=
  if blocks.head?.all (· < column) then ([.blockMappingStart], column :: blocks) else ([], blocks)

theorem contentColumn_le_iff {l : Layout} (column : Nat) (blocks : List Nat)
    (hblocks : l.blocks = column :: blocks) {inner : Nat} :
    l.contentColumn ≤ inner ↔ column < inner := by
  rw [contentColumn, hblocks]
  exact Nat.succ_le_iff

theorem step?_of_colon (hrest : rest.head?.all isSpacing) (hc : c.rest = key ++ ':' :: rest) :
    (behindKey c key tokens blocks).step?
      = some (between (c.skip (key.length + 1))
          ([.value, .scalar key true, .key] ++ (opening c.column blocks).1 ++ tokens)
          (opening c.column blocks).2 false) := by
  have hskip : (c.skip key.length).rest = ':' :: rest := Cursor.skip_rest_append hc
  have hmark : (c.skip key.length).atDocumentMark = false := by
    rw [Cursor.atDocumentMark, hskip]
    simp
  have hspaced : (c.skip key.length).spacedAfter 1 := by
    rw [Cursor.spacedAfter, hskip]
    exact hrest
  have hvalue : (behindKey c key tokens blocks).step?
      = (behindKey c key tokens blocks).valueSign? := by
    simp only [step?, behindKey, hskip, hmark, hspaced]
    simp
  have hone : tokens.length + 1 - tokens.length = 1 := by omega
  have htwo : tokens.length + 1 + 1 - tokens.length = 2 := by omega
  rw [hvalue]
  cases blocks with
  | nil =>
    simp [valueSign?, behindKey, insert, openBlock, inFlow, sign, push, between, opening,
      contentColumn, hone, htwo]
  | cons column blocks =>
    by_cases hdeeper : column < c.column <;>
      simp [valueSign?, behindKey, insert, openBlock, inFlow, sign, push, between, opening,
        contentColumn_le_iff column blocks, hone, htwo, hdeeper]

/-- A key and its colon are read. -/
theorem Finishes.of_key {all : List Token} (hkey : isKey key) (hrest : rest.head?.all isSpacing)
    (hc : c.rest = key ++ ':' :: rest) (hblocks : ∀ column ∈ blocks.head?, column ≤ c.column)
    (h : (between (c.skip (key.length + 1))
      ([.value, .scalar key true, .key] ++ (opening c.column blocks).1 ++ tokens)
      (opening c.column blocks).2 false).Finishes all) :
    (between c tokens blocks true).Finishes all := by
  have hpos := List.length_pos_iff.2 (ne_nil_of_isKey hkey)
  have hlength : key.length + 1 ≤ c.rest.length := by
    rw [hc, List.length_append, List.length_cons]
    omega
  have hskip : (c.skip key.length).rest = ':' :: rest := Cursor.skip_rest_append hc
  have hstep := step?_of_key hkey hrest hc tokens blocks
  have hbegins : Begins (between c tokens blocks true).cursor.rest :=
    (begins_of_isKey hkey _ : Begins (key ++ ':' :: rest)) |> (hc ▸ ·)
  have hcolon : Begins (behindKey c key tokens blocks).cursor.rest := by
    rw [behindKey, hskip]
    simp [Begins, isSpacing, isGap, isBreak]
  have hkeyend : (behindKey c key tokens blocks).Finishes all := by
    refine Finishes.of_step h (spaced_of_begins hcolon) ?_ ?_ ?_ (step?_of_colon hrest hc) ?_
    · exact dropStale?_of_fresh rfl rfl rfl (Nat.add_le_add_left (length_of_isKey hkey) _)
    · exact closeBlocks_of_deeper fun column hcolumn =>
        Nat.le_trans (hblocks column hcolumn) (Nat.le_add_right _ _)
    · rw [behindKey, Cursor.atEnd, hskip]
      rfl
    · simp only [between, behindKey, Cursor.skip_rest, List.length_drop]
      omega
  refine Finishes.of_step hkeyend (spaced_of_begins hbegins) (dropStale?_of_none rfl rfl)
    (closeBlocks_of_deeper hblocks) ?_ hstep ?_
  · rw [between, Cursor.atEnd, hc, List.isEmpty_eq_false_iff]
    simp
  · simp only [between, behindKey, Cursor.skip_rest, List.length_drop]
    omega

end Layout

end StubManager.Yaml
