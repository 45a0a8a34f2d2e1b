import StubManager.Proofs.ListText.Tiling
import StubManager.Proofs.Offset.Literal

/-!
# Reading by offsets

`scan?_eq`: reading from an offset stops at no access, and finds the faults and the elements that
are found in the characters. What carries the proof is the element that was begun: it spans the
pieces since the last comma with the gaps around them cut off (`spanOf?`).
-/

namespace StubManager.Offset

open Piece ListText

/-! ## Elements -/

/-- An element as it lies in a text, behind an offset. -/
def Item.ofElement (offset : Nat) (e : Element) : Item where
  start := offset + byteLength e.lead
  stop := offset + byteLength e.lead + byteLength e.raw
  value := e.value
  style? := e.style?
  comma := if e.comma then some (offset + byteLength (e.lead ++ e.raw ++ e.tail)) else none

/-- Elements one after the other, behind an offset. -/
def itemsFrom (offset : Nat) : List Element → List Item
  | [] => []
  | e :: es => .ofElement offset e :: itemsFrom (offset + byteLength e.render) es

theorem itemsFrom_append (offset : Nat) (es es' : List Element) :
    itemsFrom offset (es ++ es')
      = itemsFrom offset es ++ itemsFrom (offset + byteLength (renderElements es)) es' := by
  induction es generalizing offset with
  | nil => rfl
  | cons e es ih =>
    rw [List.cons_append, itemsFrom, ih, itemsFrom, renderElements_cons, byteLength_append,
      Nat.add_assoc, List.cons_append]

/-- A string that starts an element ends with it exactly if the element is one literal. -/
theorem closes_iff {text : List Char} (style : QuoteStyle) (start : Nat) (behind : List Char) :
    (Literal.scan? style.mark (text ++ behind)).map
        (fun (inside, _) => start + byteLength inside + 2)
        = some (start + byteLength (style.mark :: text))
      ↔ ∃ inside, Literal.scan? style.mark text = some (inside, []) := by
  rw [byteLength_cons, utf8Size_mark]
  constructor
  · intro h
    obtain ⟨⟨inside, after⟩, hscan, hstop⟩ := Option.map_eq_some_iff.1 h
    have htext : text ++ behind = (inside ++ [style.mark]) ++ after := by
      rw [Literal.eq_of_scan? hscan, List.append_assoc, List.singleton_append]
    have hlength : byteLength text = byteLength (inside ++ [style.mark]) := by
      rw [byteLength_append, byteLength_cons, byteLength_nil, utf8Size_mark]
      simp only at hstop
      omega
    rw [(append_inj_of_byteLength htext hlength).1]
    exact ⟨inside, Literal.scan?_inside hscan []⟩
  · rintro ⟨inside, hscan⟩
    have htext := Literal.eq_of_scan? hscan
    have hmore := Literal.scan?_inside hscan behind
    rw [htext, List.append_assoc, List.singleton_append, hmore, Option.map_some, byteLength_append,
      byteLength_cons, byteLength_nil, utf8Size_mark]
    simp only [Option.some.injEq]
    omega

/-- The byte at the front of a text, and the style whose quote it is. -/
theorem exists_first (before text : List Char) (c : Char) :
    ∃ b, (bytesOf (before ++ c :: text))[byteLength before]? = some b ∧
      styleOf? b = QuoteStyle.ofMark? c := by
  obtain ⟨b, more, hbytes, -⟩ := exists_encode c
  refine ⟨b, by rw [bytesOf_append, getElem?_bytesOf_append, bytesOf_cons, hbytes]; rfl, ?_⟩
  have hb : b ∈ String.utf8EncodeChar c := by simp [hbytes]
  simp only [styleOf?, QuoteStyle.ofMark?, eq_sign_iff (show '"'.toNat < 128 by decide) hb,
    eq_sign_iff (show '\''.toNat < 128 by decide) hb]

/-- What is read between the ends of an element is the element. -/
theorem item?_eq {e : Element} (h : e.raw ≠ []) (before behind : List Char) (comma : Option Nat) :
    item? (before ++ e.raw ++ behind) (byteLength before)
        (byteLength before + byteLength e.raw) comma
      = some { start := byteLength before, stop := byteLength before + byteLength e.raw,
               value := e.value, style? := e.style?, comma } := by
  have hslice : slice? (before ++ e.raw ++ behind) (byteLength before)
      (byteLength before + byteLength e.raw) = some e.raw := slice?_eq rfl rfl rfl
  unfold item?
  rw [hslice, Element.value, Element.style?, Element.literal?]
  cases hraw : e.raw with
  | nil => exact absurd hraw h
  | cons c text =>
    obtain ⟨b, hbyte, hstyle⟩ := exists_first before (text ++ behind) c
    have htext : before ++ c :: text ++ behind = before ++ c :: (text ++ behind) := by simp
    simp only [htext, hbyte, hstyle, Option.bind_eq_bind, Option.bind_some]
    cases hmark : QuoteStyle.ofMark? c with
    | none => rfl
    | some style =>
      obtain rfl := QuoteStyle.mark_of_ofMark? hmark
      simp only [skipString?_eq hmark before (text ++ behind), Option.bind_some]
      by_cases hcloses : ∃ inside, Literal.scan? style.mark text = some (inside, [])
      · rw [if_neg (not_not.2 ((closes_iff style _ behind).2 hcloses))]
        obtain ⟨inside, hscan⟩ := hcloses
        have hinside : slice? (style.mark :: text) 1 (byteLength (style.mark :: text) - 1)
            = some inside := by
          refine slice?_eq_some_iff.2 ⟨[style.mark], [style.mark], ?_, ?_, ?_⟩
          · rw [Literal.eq_of_scan? hscan]
            rfl
          · rw [byteLength_cons, utf8Size_mark, byteLength_nil]
          · rw [Literal.eq_of_scan? hscan]
            simp only [byteLength_cons, byteLength_append, byteLength_nil, utf8Size_mark]
            omega
        have hsub : sub? (byteLength (style.mark :: text)) 1
            = some (byteLength (style.mark :: text) - 1) := if_pos (by simp [utf8Size_mark])
        simp only [hsub, hinside, hscan, Option.bind_some]
        rfl
      · rw [if_pos (mt (closes_iff style _ behind).1 hcloses)]
        cases hscan : Literal.scan? style.mark text with
        | none => rfl
        | some found =>
          obtain ⟨inside, after⟩ := found
          cases after with
          | nil => exact absurd ⟨inside, hscan⟩ hcloses
          | cons => rfl

/-! ## The element that was begun -/

/-- The offsets between which an element lies whose pieces, and the gaps around them, start at
`offset`. -/
def spanOf? (offset : Nat) (segment : List Piece) : Option (Nat × Nat) :=
  let (lead, item, _) := trim segment
  if item.isEmpty then none
  else some (offset + byteLength (textOf lead),
    offset + byteLength (textOf lead) + byteLength (textOf item))

theorem spanOf?_of_gaps {gaps : List Piece} (h : ∀ piece ∈ gaps, piece.isGap) (offset : Nat) :
    spanOf? offset gaps = none := by
  rw [spanOf?, trim_of_gaps h]
  rfl

theorem spanOf?_of_trim {segment lead item tail : List Piece}
    (h : trim segment = (lead, item, tail)) (hitem : item ≠ []) (offset : Nat) :
    spanOf? offset segment = some (offset + byteLength (textOf lead),
      offset + byteLength (textOf lead) + byteLength (textOf item)) := by
  rw [spanOf?, h]
  exact if_neg (by simpa using hitem)

/-- Pieces are gaps alone, or they are an item between gaps. -/
theorem gaps_or_solid (segment : List Piece) :
    (∀ piece ∈ segment, piece.isGap) ∨ ∃ lead item tail, segment = lead ++ (item ++ tail) ∧
      (∀ piece ∈ lead, piece.isGap) ∧ Solid item ∧ ∀ piece ∈ tail, piece.isGap := by
  obtain ⟨hlead, htail⟩ := isGap_of_mem_trim segment
  have hcat := trim_append segment
  by_cases hitem : (trim segment).2.1 = []
  · refine .inl fun piece hpiece => ?_
    rw [← hcat, hitem, List.append_nil] at hpiece
    exact (List.mem_append.1 hpiece).elim (hlead piece) (htail piece)
  · exact .inr ⟨_, _, _, by rw [← List.append_assoc, hcat], hlead, solid_trim hitem, htail⟩

theorem ne_nil_of_solid {pieces : List Piece} (h : Solid pieces) : pieces ≠ [] := by
  rintro rfl
  obtain ⟨⟨piece, hmem, -⟩, -⟩ := h
  cases hmem

theorem forall_mem_concat {piece : Piece} {pieces : List Piece} (h : piece.isGap)
    (hpieces : ∀ piece ∈ pieces, piece.isGap) : ∀ piece' ∈ pieces ++ [piece], piece'.isGap := by
  intro piece' hmem
  rcases List.mem_append.1 hmem with hmem | hmem
  · exact hpieces piece' hmem
  · exact List.mem_singleton.1 hmem ▸ h

/-- A gap behind the pieces is cut off. -/
theorem spanOf?_gap {piece : Piece} (h : piece.isGap) (offset : Nat) (segment : List Piece) :
    spanOf? offset (segment ++ [piece]) = spanOf? offset segment := by
  obtain hgaps | ⟨lead, item, tail, rfl, hlead, hitem, htail⟩ := gaps_or_solid segment
  · rw [spanOf?_of_gaps hgaps, spanOf?_of_gaps (forall_mem_concat h hgaps)]
  · have htrim := trim_eq hlead hitem (forall_mem_concat h htail)
    rw [← List.append_assoc, ← List.append_assoc, List.append_assoc lead] at htrim
    rw [spanOf?_of_trim htrim (ne_nil_of_solid hitem),
      spanOf?_of_trim (trim_eq hlead hitem htail) (ne_nil_of_solid hitem)]

/-- Any other piece ends the element. -/
theorem spanOf?_solid {piece : Piece} (h : ¬ piece.isGap) (offset : Nat) (segment : List Piece) :
    spanOf? offset (segment ++ [piece])
      = extended (spanOf? offset segment) (offset + byteLength (textOf segment))
          (offset + byteLength (textOf (segment ++ [piece]))) := by
  have hnone : ∀ piece ∈ ([] : List Piece), piece.isGap := nofun
  have hlast : ∀ pieces : List Piece, ∃ piece' ∈ (pieces ++ [piece]).getLast?, ¬ piece'.isGap :=
    fun pieces => ⟨piece, by simp, h⟩
  obtain hgaps | ⟨lead, item, tail, rfl, hlead, hitem, htail⟩ := gaps_or_solid segment
  · have hsolid : Solid [piece] := ⟨⟨piece, rfl, h⟩, hlast []⟩
    have htrim := trim_eq hgaps hsolid hnone
    rw [List.append_nil] at htrim
    rw [spanOf?_of_gaps hgaps, spanOf?_of_trim htrim (ne_nil_of_solid hsolid), textOf_append,
      byteLength_append, ← Nat.add_assoc]
    rfl
  · have hsolid : Solid (item ++ tail ++ [piece]) := by
      obtain ⟨⟨first, hmem, hfirst⟩, -⟩ := hitem
      refine ⟨⟨first, ?_, hfirst⟩, hlast _⟩
      rw [List.append_assoc, List.head?_append, Option.mem_def.1 hmem]
      rfl
    have htrim := trim_eq hlead hsolid hnone
    rw [List.append_nil, ← List.append_assoc] at htrim
    rw [spanOf?_of_trim (trim_eq hlead hitem htail) (ne_nil_of_solid hitem),
      spanOf?_of_trim htrim (ne_nil_of_solid hsolid), extended]
    simp only [textOf_append, byteLength_append, Option.some.injEq, Prod.mk.injEq, true_and]
    omega

/-! ## Steps -/

/-- Reading stands behind the pieces of a segment that starts at `offset`. -/
def readingAt (offset : Nat) (segment : List Piece) (depth : Nat) (items : List Item) :
    Reading where
  i := offset + byteLength (textOf segment)
  depth
  current := spanOf? offset segment
  items

/-- Reading is before `rest` in a text, behind a segment. -/
structure Stands (text before : List Char) (segment : List Piece) (rest : List Char) : Prop where
  text : text = before ++ (textOf segment ++ rest)
  separator : separator ∉ segment

variable {text before rest : List Char} {segment : List Piece} {items : List Item}
variable {bracket depth : Nat}

theorem Stands.snoc {piece : Piece} (h : Stands text before segment (piece.text ++ rest))
    (hpiece : piece ≠ .separator) : Stands text before (segment ++ [piece]) rest where
  text := by rw [h.text]; simp [textOf]
  separator hmem := (List.mem_append.1 hmem).elim h.separator fun hmem =>
    hpiece (List.mem_singleton.1 hmem).symm

/-- The byte at which reading stands. -/
theorem Stands.byte {c : Char} (h : Stands text before segment (c :: rest)) :
    (bytesOf text)[byteLength before + byteLength (textOf segment)]?
      = (String.utf8EncodeChar c).head? := by
  obtain ⟨b, more, hbytes, -⟩ := exists_encode c
  rw [h.text, ← List.append_assoc, ← byteLength_append, bytesOf_append, getElem?_bytesOf_append,
    bytesOf_cons, hbytes]
  rfl

theorem readingAt_solid {piece : Piece} (h : ¬ piece.isGap) (offset : Nat) :
    readingAt offset (segment ++ [piece]) depth items
      = { readingAt offset segment depth items with
          i := offset + byteLength (textOf segment) + byteLength piece.text
          current := extended (spanOf? offset segment) (offset + byteLength (textOf segment))
            (offset + byteLength (textOf segment) + byteLength piece.text) } := by
  have hlength : offset + byteLength (textOf segment) + byteLength piece.text
      = offset + byteLength (textOf (segment ++ [piece])) := by
    rw [textOf_append, byteLength_append, Nat.add_assoc]
    simp [textOf]
  rw [hlength, readingAt, spanOf?_solid h]
  rfl

theorem readingAt_gap {piece : Piece} (h : piece.isGap) (offset : Nat) :
    readingAt offset (segment ++ [piece]) depth items
      = { readingAt offset segment depth items with
          i := offset + byteLength (textOf segment) + byteLength piece.text } := by
  have hlength : offset + byteLength (textOf segment) + byteLength piece.text
      = offset + byteLength (textOf (segment ++ [piece])) := by
    rw [textOf_append, byteLength_append, Nat.add_assoc]
    simp [textOf]
  rw [hlength, readingAt, spanOf?_gap h]
  rfl

/-- The byte at which reading stands, before an ASCII character. -/
theorem Stands.sign {c : Char} (h : Stands text before segment (c :: rest))
    (hc : c.toNat < 128) :
    (bytesOf text)[(readingAt (byteLength before) segment depth items).i]? = some (sign c) := by
  rw [readingAt, h.byte, encode_of_ascii hc]
  rfl

theorem Stands.skipString? {style : QuoteStyle}
    (h : Stands text before segment (style.mark :: rest)) :
    Offset.skipString? (bytesOf text) (readingAt (byteLength before) segment depth items).i
      = some ((Literal.scan? style.mark rest).map fun (inside, _) =>
          byteLength before + byteLength (textOf segment) + byteLength inside + 2) := by
  have hskip := skipString?_eq (QuoteStyle.ofMark?_mark style) (before ++ textOf segment) rest
  rwa [List.append_assoc, ← h.text, byteLength_append] at hskip

theorem sign_mark (style : QuoteStyle) :
    sign style.mark = sign '"' ∨ sign style.mark = sign '\'' := by
  cases style
  · exact .inl rfl
  · exact .inr rfl

/-- A string literal is read in one step. -/
theorem step?_literal {style : QuoteStyle} {inside after : List Char}
    (h : Stands text before segment (style.mark :: rest))
    (hscan : Literal.scan? style.mark rest = some (inside, after)) :
    (readingAt (byteLength before) segment depth items).step? text bracket
      = some (.more (readingAt (byteLength before) (segment ++ [.literal style inside]) depth
          items)) := by
  have hlength : byteLength before + byteLength (textOf segment) + byteLength inside + 2
      = byteLength before + byteLength (textOf segment)
        + byteLength (Piece.literal style inside).text := by
    simp only [Piece.text, byteLength_cons, byteLength_append, byteLength_nil, utf8Size_mark]
    omega
  rw [readingAt_solid (by simp [isGap]), ← hlength, Reading.step?, h.sign (ascii_mark style)]
  dsimp only
  rw [if_pos (sign_mark style), h.skipString?, hscan]
  rfl

theorem step?_unterminated {style : QuoteStyle}
    (h : Stands text before segment (style.mark :: rest))
    (hscan : Literal.scan? style.mark rest = none) :
    (readingAt (byteLength before) segment depth items).step? text bracket
      = some (.fault (.unterminated (byteLength before + byteLength (textOf segment)))) := by
  rw [Reading.step?, h.sign (ascii_mark style)]
  dsimp only
  rw [if_pos (sign_mark style), h.skipString?, hscan]
  rfl

/-- A comment is read in one step. -/
theorem step?_comment (h : Stands text before segment ('#' :: rest)) :
    (readingAt (byteLength before) segment depth items).step? text bracket
      = some (.more (readingAt (byteLength before)
          (segment ++ [.comment (rest.takeWhile (· ≠ '\n'))]) depth items)) := by
  have hskip : skipWhile (· ≠ sign '\n') (bytesOf text)
      (byteLength before + byteLength (textOf segment))
      = byteLength before + byteLength (textOf segment)
        + byteLength (Piece.comment (rest.takeWhile (· ≠ '\n'))).text := by
    have hline : ∀ {c b}, b ∈ String.utf8EncodeChar c →
        (decide (b ≠ sign '\n') ↔ decide (c ≠ '\n')) := fun hb => by
      simp [eq_sign_iff (show '\n'.toNat < 128 by decide) hb]
    rw [h.text, ← List.append_assoc, ← byteLength_append, skipWhile_eq hline,
      List.takeWhile_cons_of_pos (by decide), byteLength_append]
    rfl
  rw [readingAt_gap rfl, ← hskip, Reading.step?, h.sign (by decide)]
  rfl

/-- A bracket that opens is read in one step. -/
theorem step?_opening {c : Char} (hc : c = '[' ∨ c = '(' ∨ c = '\x7b')
    (h : Stands text before segment (c :: rest)) :
    (readingAt (byteLength before) segment depth items).step? text bracket
      = some (.more (readingAt (byteLength before) (segment ++ [.bracket c]) (depth + 1)
          items)) := by
  rw [readingAt_solid (by simp [isGap]), Reading.step?]
  obtain rfl | rfl | rfl := hc
  all_goals
    rw [h.sign (by decide)]
    rfl

/-- A bracket that closes one of the open ones is read in one step. -/
theorem step?_closing {c : Char} (hc : c = ']' ∨ c = ')' ∨ c = '\x7d')
    (h : Stands text before segment (c :: rest)) :
    (readingAt (byteLength before) segment (depth + 1) items).step? text bracket
      = some (.more (readingAt (byteLength before) (segment ++ [.bracket c]) depth items)) := by
  rw [readingAt_solid (by simp [isGap]), Reading.step?]
  obtain rfl | rfl | rfl := hc
  all_goals
    rw [h.sign (by decide)]
    rfl

theorem step?_unbalanced {c : Char} (hc : c = ')' ∨ c = '\x7d')
    (h : Stands text before segment (c :: rest)) :
    (readingAt (byteLength before) segment 0 items).step? text bracket
      = some (.fault (.unbalanced c (byteLength before + byteLength (textOf segment)))) := by
  rw [Reading.step?]
  obtain rfl | rfl := hc
  all_goals
    rw [h.sign (by decide)]
    rfl

/-- A byte outside of ASCII is part of the element. -/
theorem step?_high {r : Reading} {b : UInt8} (hbyte : (bytesOf text)[r.i]? = some b)
    (hb : 128 ≤ b.toNat) :
    r.step? text bracket
      = some (.more { r with i := r.i + 1, current := extended r.current r.i (r.i + 1) }) := by
  have hne : ∀ c : Char, c.toNat < 128 → b ≠ sign c := fun c => ne_sign_of_high hb
  have hwhite : isWhiteByte b = false := by
    simp [isWhiteByte, isOneOf, hne ' ' (by decide), hne '\t' (by decide), hne '\n' (by decide),
      hne '\x0c' (by decide), hne '\x0d' (by decide)]
  simp only [Reading.step?, hbyte, hne '"' (by decide), hne '\'' (by decide), hne '#' (by decide),
    hne '[' (by decide), hne '(' (by decide), hne '\x7b' (by decide), hne ']' (by decide),
    hne ')' (by decide), hne '\x7d' (by decide), hne ',' (by decide), hwhite, or_self, false_and,
    Bool.false_eq_true, ↓reduceIte]

/-- Any ASCII character that is none of the signs of a list. -/
theorem step?_other {c : Char} (hc : c.toNat < 128) (hquote : QuoteStyle.ofMark? c = none)
    (hhash : c ≠ '#') (hopen : ¬ (c = '[' ∨ c = '(' ∨ c = '\x7b'))
    (hclose : ¬ (c = ']' ∨ c = ')' ∨ c = '\x7d')) (hcomma : ¬ (c = ',' ∧ depth = 0))
    (h : Stands text before segment (c :: rest)) :
    (readingAt (byteLength before) segment depth items).step? text bracket
      = some (.more (readingAt (byteLength before)
          (segment ++ [if isListBlank c then .blank c else .plain c]) depth items)) := by
  have hsign : ∀ {sought : Char}, sought.toNat < 128 → (sign c = sign sought ↔ c = sought) :=
    fun hsought => sign_eq_sign_iff hc hsought
  have hsize : c.utf8Size = 1 := by
    rw [← String.length_utf8EncodeChar, encode_of_ascii hc]
    rfl
  have hbyte : sign c ∈ String.utf8EncodeChar c := by
    rw [encode_of_ascii hc]
    exact List.mem_singleton_self _
  have hwhite : isWhiteByte (sign c) = isListBlank c := Bool.eq_iff_iff.2 (isWhiteByte_iff hbyte)
  have hstep : (readingAt (byteLength before) segment depth items).step? text bracket
      = if isListBlank c then some (.more { readingAt (byteLength before) segment depth items with
          i := byteLength before + byteLength (textOf segment) + 1 })
        else some (.more { readingAt (byteLength before) segment depth items with
          i := byteLength before + byteLength (textOf segment) + 1
          current := extended (spanOf? (byteLength before) segment)
            (byteLength before + byteLength (textOf segment))
            (byteLength before + byteLength (textOf segment) + 1) }) := by
    have hmarks : ¬ (c = '"' ∨ c = '\'') := by
      rintro (rfl | rfl) <;> cases hquote
    have hcomma' : ¬ (c = ',' ∧ (readingAt (byteLength before) segment depth items).depth = 0) :=
      hcomma
    rw [Reading.step?, h.sign hc]
    simp only [hsign (show '"'.toNat < 128 by decide), hsign (show '\''.toNat < 128 by decide),
      hsign (show '#'.toNat < 128 by decide), hsign (show '['.toNat < 128 by decide),
      hsign (show '('.toNat < 128 by decide), hsign (show '\x7b'.toNat < 128 by decide),
      hsign (show ']'.toNat < 128 by decide), hsign (show ')'.toNat < 128 by decide),
      hsign (show '\x7d'.toNat < 128 by decide), hsign (show ','.toNat < 128 by decide)]
    rw [if_neg hmarks, if_neg hhash, if_neg hopen, if_neg fun h => hclose (.inl h.1),
      if_neg fun h => hclose (.inr h.1), if_neg hclose, if_neg hcomma', hwhite]
    rfl
  rw [hstep]
  split
  · rw [readingAt_gap rfl]
    simp [Piece.text, hsize]
  · rw [readingAt_solid (by simp [isGap])]
    simp [Piece.text, hsize]

/-! ## Elements of segments -/

theorem textOf_ne_nil_of_solid {pieces : List Piece} (h : Solid pieces) : textOf pieces ≠ [] := by
  obtain ⟨⟨first, hmem, -⟩, -⟩ := h
  obtain ⟨more, rfl⟩ := List.head?_eq_some_iff.1 hmem
  rw [textOf_cons]
  cases first <;> exact List.cons_ne_nil _ _

/-- The element of a segment, read between its offsets. -/
theorem Stands.item? {lead item tail : List Piece}
    (h : Stands text before (lead ++ (item ++ tail)) rest) (hitem : Solid item) {e : Element}
    (hraw : e.raw = textOf item) (comma : Option Nat) :
    Offset.item? text (byteLength before + byteLength (textOf lead))
        (byteLength before + byteLength (textOf lead) + byteLength (textOf item)) comma
      = some { start := byteLength before + byteLength (textOf lead)
               stop := byteLength before + byteLength (textOf lead) + byteLength (textOf item)
               value := e.value, style? := e.style?, comma } := by
  have hread := item?_eq (hraw ▸ textOf_ne_nil_of_solid hitem) (before ++ textOf lead)
    (textOf tail ++ rest) comma
  rw [hraw, byteLength_append] at hread
  have htext : text = before ++ textOf lead ++ textOf item ++ (textOf tail ++ rest) := by
    rw [h.text]
    simp only [textOf_append, List.append_assoc]
  rw [htext, hread]

/-- What trimming leaves is an element: one that a comma closes, or the last one. -/
theorem elements_of_solid {lead item tail : List Piece} (hlead : ∀ piece ∈ lead, piece.isGap)
    (hitem : Solid item) (htail : ∀ piece ∈ tail, piece.isGap) :
    Element.ofSegment? (lead ++ (item ++ tail))
        = some { lead := textOf lead, raw := textOf item, tail := textOf tail, comma := true } ∧
      lastElement (lead ++ (item ++ tail))
        = ([{ lead := textOf lead, raw := textOf item, comma := false }], textOf tail) := by
  rw [Element.ofSegment?, lastElement, trim_eq hlead hitem htail]
  cases item with
  | nil => exact absurd rfl (ne_nil_of_solid hitem)
  | cons piece item => exact ⟨rfl, rfl⟩

/-- A comma of the list ends an element, if one was begun. -/
theorem step?_separator (h : Stands text before segment (',' :: rest)) :
    (readingAt (byteLength before) segment 0 items).step? text bracket
      = match Element.ofSegment? segment with
        | none => some (.fault
            (.emptyElement (byteLength before + byteLength (textOf segment))))
        | some e => some (.more (readingAt
            (byteLength before + byteLength (textOf segment) + 1) [] 0
            (items ++ [Item.ofElement (byteLength before) e]))) := by
  rw [Reading.step?, h.sign (by decide)]
  obtain hgaps | ⟨lead, item, tail, rfl, hlead, hitem, htail⟩ := gaps_or_solid segment
  · have hnone : Element.ofSegment? segment = none := by
      rw [Element.ofSegment?, trim_of_gaps hgaps]
    rw [readingAt, spanOf?_of_gaps hgaps, hnone]
    rfl
  · obtain ⟨helement, -⟩ := elements_of_solid hlead hitem htail
    rw [helement]
    have hread := h.item? hitem (e := ⟨textOf lead, textOf item, textOf tail, true⟩) rfl
      (some (byteLength before + byteLength (textOf (lead ++ (item ++ tail)))))
    have hspan := spanOf?_of_trim (trim_eq hlead hitem htail) (ne_nil_of_solid hitem)
      (byteLength before)
    rw [readingAt, hspan]
    change (Offset.item? text _ _ _).map _ = _
    rw [hread]
    simp only [Item.ofElement, textOf_append, List.append_assoc]
    rfl

/-- The bracket that closes the list ends the last element, if one was begun. -/
theorem step?_closed (h : Stands text before segment (']' :: rest)) :
    (readingAt (byteLength before) segment 0 items).step? text bracket
      = some (.done {
          bracket
          close := byteLength before + byteLength (textOf segment)
          items := items ++ itemsFrom (byteLength before) (lastElement segment).1 }) := by
  rw [Reading.step?, h.sign (by decide)]
  obtain hgaps | ⟨lead, item, tail, rfl, hlead, hitem, htail⟩ := gaps_or_solid segment
  · have hnil : (lastElement segment).1 = [] := by
      rw [lastElement, trim_of_gaps hgaps]
    rw [readingAt, spanOf?_of_gaps hgaps, hnil, itemsFrom, List.append_nil]
    rfl
  · obtain ⟨-, helement⟩ := elements_of_solid hlead hitem htail
    rw [helement]
    have hread := h.item? hitem (e := ⟨textOf lead, textOf item, [], false⟩) rfl none
    have hspan := spanOf?_of_trim (trim_eq hlead hitem htail) (ne_nil_of_solid hitem)
      (byteLength before)
    rw [readingAt, hspan]
    change (Offset.item? text _ _ _).map _ = _
    rw [hread]
    rfl

/-! ## Runs -/

theorem run?_eq (text : List Char) (bracket : Nat) (r : Reading) :
    r.run? text bracket
      = match r.step? text bracket with
        | none => none
        | some (.fault fault) => some (.error fault)
        | some (.done span) => some (.ok span)
        | some (.more next) => next.run? text bracket := by
  rw [Reading.run?.eq_def text bracket r]
  split
  all_goals
    next h => rw [h]

theorem run?_of_more {r next : Reading} (h : r.step? text bracket = some (.more next)) :
    r.run? text bracket = next.run? text bracket := by
  rw [run?_eq, h]

theorem run?_of_fault {r : Reading} {fault : ListFault}
    (h : r.step? text bracket = some (.fault fault)) :
    r.run? text bracket = some (.error fault) := by
  rw [run?_eq, h]

theorem run?_of_done {r : Reading} {span : Span} (h : r.step? text bracket = some (.done span)) :
    r.run? text bracket = some (.ok span) := by
  rw [run?_eq, h]

theorem extended_extended (current : Option (Nat × Nat)) (start middle middle' stop : Nat) :
    extended (extended current start middle) middle' stop = extended current start stop := by
  cases current <;> rfl

/-- Bytes outside of ASCII are read one by one. -/
theorem run?_high {high more : List UInt8} (hhigh : ∀ b ∈ high, 128 ≤ b.toNat) (hne : high ≠ [])
    {r : Reading} (h : (bytesOf text).drop r.i = high ++ more) :
    r.run? text bracket = Reading.run? text bracket { r with
      i := r.i + high.length, current := extended r.current r.i (r.i + high.length) } := by
  induction high generalizing r with
  | nil => exact absurd rfl hne
  | cons b high ih =>
    rw [List.forall_mem_cons] at hhigh
    have hbyte : (bytesOf text)[r.i]? = some b := by
      rw [← List.head?_drop, h]
      rfl
    rw [run?_of_more (step?_high hbyte hhigh.1)]
    cases high with
    | nil => rfl
    | cons b' high =>
      have hdrop : (bytesOf text).drop (r.i + 1) = b' :: high ++ more := by
        rw [← List.drop_drop, h]
        rfl
      rw [ih hhigh.2 (List.cons_ne_nil _ _) (r := { r with
        i := r.i + 1, current := extended r.current r.i (r.i + 1) }) hdrop, extended_extended]
      simp only [List.length_cons, Nat.add_assoc, Nat.add_comm 1]

/-- What reading comes to behind a segment, when `pieces` are still to come. -/
def resumed (bracket offset : Nat) (segment : List Piece) (items : List Item)
    (cut : List Piece × Ending) : Except ListFault Span := do
  let (closed, last) := segments (segment ++ cut.1)
  let elements ← closedElements offset closed
  let stop := offset + byteLength (textOf (segment ++ cut.1))
  match cut.2 with
  | .unterminated _ => throw (.unterminated stop)
  | .unbalanced c _ => throw (.unbalanced c stop)
  | .unclosed => throw .unclosed
  | .closed _ => return {
      bracket, close := stop
      items := items ++ itemsFrom offset (elements ++ (lastElement last).1) }

/-- A character that is part of an element, in any number of bytes. -/
theorem run?_other {c : Char} (hquote : QuoteStyle.ofMark? c = none)
    (hhash : c ≠ '#') (hopen : ¬ (c = '[' ∨ c = '(' ∨ c = '\x7b'))
    (hclose : ¬ (c = ']' ∨ c = ')' ∨ c = '\x7d')) (hcomma : ¬ (c = ',' ∧ depth = 0))
    (h : Stands text before segment (c :: rest)) :
    (readingAt (byteLength before) segment depth items).run? text bracket
      = (readingAt (byteLength before)
          (segment ++ [if isListBlank c then .blank c else .plain c]) depth items).run? text
            bracket := by
  by_cases hc : c.toNat < 128
  · exact run?_of_more (step?_other hc hquote hhash hopen hclose hcomma h)
  · have hblank : ¬ isListBlank c := by
      intro hblank
      simp only [isListBlank, Bool.or_eq_true, decide_eq_true_eq] at hblank
      obtain (((rfl | rfl) | rfl) | rfl) | rfl := hblank
      all_goals exact hc (by decide)
    have hdrop : (bytesOf text).drop (readingAt (byteLength before) segment depth items).i
        = String.utf8EncodeChar c ++ bytesOf rest := by
      rw [h.text, ← List.append_assoc, bytesOf_append, readingAt, ← byteLength_append,
        drop_bytesOf_append]
      rfl
    rw [run?_high (fun b hb => high_of_mem_encode (Nat.not_lt.1 hc) hb) (encode_ne_nil c) hdrop,
      if_neg hblank, readingAt_solid (by simp [isGap]), String.length_utf8EncodeChar]
    rfl

theorem resumed_nil {offset : Nat} (h : separator ∉ segment) (ending : Ending) :
    resumed bracket offset segment items ([], ending)
      = match ending with
        | .unterminated _ => .error (.unterminated (offset + byteLength (textOf segment)))
        | .unbalanced c _ => .error (.unbalanced c (offset + byteLength (textOf segment)))
        | .unclosed => .error .unclosed
        | .closed _ => .ok {
            bracket, close := offset + byteLength (textOf segment)
            items := items ++ itemsFrom offset (lastElement segment).1 } := by
  rw [resumed, List.append_nil, segments_of_not_mem h]
  cases ending <;> rfl

theorem resumed_cons (offset : Nat) (piece : Piece) (cut : List Piece × Ending) :
    resumed bracket offset segment items (piece :: cut.1, cut.2)
      = resumed bracket offset (segment ++ [piece]) items cut := by
  rw [resumed, resumed, List.append_assoc, List.singleton_append]

theorem resumed_separator {offset : Nat} (h : separator ∉ segment) (cut : List Piece × Ending) :
    resumed bracket offset segment items (.separator :: cut.1, cut.2)
      = match Element.ofSegment? segment with
        | none => .error (.emptyElement (offset + byteLength (textOf segment)))
        | some e => resumed bracket (offset + byteLength (textOf segment) + 1) []
            (items ++ [Item.ofElement offset e]) cut := by
  rw [resumed, segments_append_separator h]
  dsimp only
  cases he : Element.ofSegment? segment with
  | none =>
    rw [closedElements.eq_def]
    dsimp only
    rw [he]
    rfl
  | some e =>
    have hclosed : ∀ more, closedElements offset (segment :: more) = do
        return e :: (← closedElements (offset + byteLength (textOf segment) + 1) more) := by
      intro more
      rw [closedElements.eq_def]
      dsimp only
      rw [he]
    have hrender : offset + byteLength (textOf segment) + 1 = offset + byteLength e.render := by
      rw [Element.render_ofSegment? he, byteLength_append, Nat.add_assoc]
      rfl
    have hstop : offset + byteLength (textOf (segment ++ .separator :: cut.1))
        = offset + byteLength (textOf segment) + 1 + byteLength (textOf ([] ++ cut.1)) := by
      simp only [textOf_append, textOf_cons, byteLength_append, Piece.text, List.nil_append,
        byteLength_cons, byteLength_nil, show ','.utf8Size = 1 from rfl]
      omega
    rw [hclosed]
    simp only [resumed, hstop, List.nil_append]
    cases helements : closedElements (offset + byteLength (textOf segment) + 1)
        (segments cut.1).1 with
    | error fault => rfl
    | ok elements =>
      have hitems : itemsFrom offset (e :: elements ++ (lastElement (segments cut.1).2).1)
          = Item.ofElement offset e :: itemsFrom (offset + byteLength (textOf segment) + 1)
              (elements ++ (lastElement (segments cut.1).2).1) := by
        rw [List.cons_append, itemsFrom, hrender]
      cases cut.2 with
      | closed rest =>
        simp only [bind, Except.bind, pure, Except.pure, hitems, List.append_assoc,
          List.singleton_append]
      | unterminated | unbalanced | unclosed => rfl

/-- Reading goes on behind a segment as the pieces of the remaining text say. -/
theorem run?_readingAt (h : Stands text before segment rest) :
    (readingAt (byteLength before) segment depth items).run? text bracket
      = some (resumed bracket (byteLength before) segment items (body depth rest)) := by
  fun_induction body depth rest generalizing before segment items with
  | case1 depth =>
    have hbyte : (bytesOf text)[(readingAt (byteLength before) segment depth items).i]? = none := by
      rw [List.getElem?_eq_none_iff, length_bytesOf, h.text, readingAt]
      simp
    rw [resumed_nil h.separator]
    refine run?_of_fault ?_
    rw [Reading.step?, hbyte]
  | case2 depth c inner style hstyle hscan =>
    obtain rfl := QuoteStyle.mark_of_ofMark? hstyle
    rw [resumed_nil h.separator, run?_of_fault (step?_unterminated h hscan)]
  | case3 depth c inner style hstyle inside after hscan pieces ending heq ih =>
    obtain rfl := QuoteStyle.mark_of_ofMark? hstyle
    have hnext : Stands text before (segment ++ [.literal style inside]) after := by
      have htext : (Piece.literal style inside).text ++ after = style.mark :: inner := by
        rw [Literal.eq_of_scan? hscan, Piece.text]
        simp
      exact Stands.snoc (by rwa [htext]) (by simp)
    rw [run?_of_more (step?_literal h hscan), ih hnext, heq]
    exact congrArg some (resumed_cons _ _ (pieces, ending)).symm
  | case4 depth inner pieces ending heq _ ih =>
    have hnext : Stands text before (segment ++ [.comment (inner.takeWhile (· ≠ '\n'))])
        (inner.dropWhile (· ≠ '\n')) := by
      refine Stands.snoc ?_ (by simp)
      rwa [Piece.text, List.cons_append, List.takeWhile_append_dropWhile]
    rw [run?_of_more (step?_comment h), ih hnext, heq]
    exact congrArg some (resumed_cons _ _ (pieces, ending)).symm
  | case5 depth c inner hquote hhash hopen pieces ending heq ih =>
    have hnext : Stands text before (segment ++ [.bracket c]) inner := Stands.snoc h (by simp)
    rw [run?_of_more (step?_opening hopen h), ih hnext, heq]
    exact congrArg some (resumed_cons _ _ (pieces, ending)).symm
  | case6 c inner hquote hhash hopen hclose =>
    rw [resumed_nil h.separator]
    by_cases hc : c = ']'
    · subst hc
      rw [run?_of_done (step?_closed h)]
      rfl
    · rw [if_neg hc, run?_of_fault (step?_unbalanced (hclose.resolve_left hc) h)]
  | case7 c inner hquote hhash hopen hclose depth pieces ending heq ih =>
    have hnext : Stands text before (segment ++ [.bracket c]) inner := Stands.snoc h (by simp)
    rw [run?_of_more (step?_closing hclose h), ih hnext, heq]
    exact congrArg some (resumed_cons _ _ (pieces, ending)).symm
  | case8 depth c inner hquote hhash hopen hclose pieces ending heq piece =>
    rename_i ih
    by_cases hcomma : c = ',' ∧ depth = 0
    · obtain ⟨rfl, rfl⟩ := hcomma
      have hpiece : piece = .separator := rfl
      rw [hpiece]
      refine Eq.trans ?_ (congrArg some (resumed_separator h.separator (pieces, ending)).symm)
      have hstep : (readingAt (byteLength before) segment 0 items).step? text bracket = _ :=
        step?_separator h
      cases he : Element.ofSegment? segment with
      | none =>
        rw [he] at hstep
        exact run?_of_fault hstep
      | some e =>
        rw [he] at hstep
        have hlength : byteLength (before ++ textOf segment ++ [','])
            = byteLength before + byteLength (textOf segment) + 1 := by
          simp only [byteLength_append, byteLength_cons, byteLength_nil]
          rfl
        have hnext : Stands text (before ++ textOf segment ++ [',']) [] inner :=
          ⟨by rw [h.text]; simp [textOf], by simp⟩
        rw [run?_of_more hstep, ← hlength, ih hnext, heq]
    · have hpiece : piece = if isListBlank c then .blank c else .plain c := if_neg hcomma
      have hne : piece ≠ .separator := by
        rw [hpiece]
        split <;> simp
      have htext : piece.text ++ inner = c :: inner := by
        rw [hpiece]
        split <;> rfl
      have hnext : Stands text before (segment ++ [piece]) inner := Stands.snoc (htext ▸ h) hne
      rw [run?_other hquote hhash hopen hclose hcomma h, ← hpiece, ih hnext, heq]
      exact congrArg some (resumed_cons _ _ (pieces, ending)).symm

/-! ## Lists -/

/-- A list that was read, by the offsets of its brackets and its elements. -/
def spanOf (list : ListText) : Span where
  bracket := byteLength list.head - 1
  close := byteLength (list.head ++ list.inner)
  items := itemsFrom (byteLength list.head) list.elements

/-- The text between the brackets is that of the pieces. -/
theorem inner_of_segments {offset : Nat} {pieces : List Piece} {elements : List Element}
    (h : closedElements offset (segments pieces).1 = .ok elements) :
    renderElements (elements ++ (lastElement (segments pieces).2).1)
      ++ (lastElement (segments pieces).2).2 = textOf pieces := by
  rw [renderElements_append, List.append_assoc, render_lastElement,
    renderElements_closedElements h, textOf_segments]

/-- Reading from a bracket finds the list, or the fault, that is found in the characters. -/
theorem scan?_eq (front inside : List Char) :
    scan? (front ++ '[' :: inside) (byteLength front)
      = some ((ListText.scan (front ++ ['[']) inside).map spanOf) := by
  have hbracket : byteLength (front ++ ['[']) = byteLength front + 1 := byteLength_append ..
  have hstands : Stands (front ++ '[' :: inside) (front ++ ['[']) [] inside :=
    ⟨by simp [textOf], by simp⟩
  have hrun : (readingAt (byteLength (front ++ ['['])) [] 0 []).run? (front ++ '[' :: inside)
      (byteLength front) = _ := run?_readingAt hstands
  have hreading : readingAt (byteLength (front ++ ['['])) [] 0 []
      = { i := byteLength front + 1 } := by
    rw [hbracket]
    rfl
  rw [hreading] at hrun
  rw [scan?, hrun, ListText.scan, resumed]
  simp only [List.nil_append]
  cases helements : closedElements (byteLength (front ++ ['['])) (segments (body 0 inside).1).1 with
  | error fault => rfl
  | ok elements =>
    cases (body 0 inside).2 with
    | unterminated | unbalanced | unclosed => rfl
    | closed rest =>
      have hinner := inner_of_segments helements
      simp only [bind, Except.bind, pure, Except.pure, Except.map, spanOf, ListText.inner, hinner,
        byteLength_append (front ++ ['[']), hbracket, Nat.add_sub_cancel]

end StubManager.Offset
