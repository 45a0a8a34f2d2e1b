import Mathlib.Data.List.TakeWhile
import StubManager.Proofs.ListText.Tiling
import StubManager.Proofs.Yaml.Item
import StubManager.Proofs.Yaml.Splicing

/-!
# Lists of scalars in a text

A list between brackets whose items are scalars is read as their tokens (`reads_elements`), and what
follows its line is read the same whatever the list is (`finish?_behind`).
-/

namespace StubManager.Yaml

open Compose

namespace Layout

variable {l l' l'' : Layout} {rest : List Char}

/-- The second place is behind the tokens in front of the first. -/
structure Reads (tokens : List Token) (l l' : Layout) : Prop where
  run : run? tokens.length l = some l'
  tokens : l'.tokens = tokens.reverse ++ l.tokens
  blocks : l'.blocks = l.blocks

theorem Reads.trans {front back : List Token} (h : Reads front l l') (h' : Reads back l' l'') :
    Reads (front ++ back) l l'' where
  run := by rw [List.length_append, run?_add, h.run, Option.bind_some, h'.run]
  tokens := by rw [h'.tokens, h.tokens, List.reverse_append, List.append_assoc]
  blocks := h'.blocks.trans h.blocks

theorem next?_of_step {l l' place : Layout} (hplace : l.token? = some place)
    (hmore : place.cursor.rest ≠ []) (hstep : place.step? = some l') : l.next? = some l' := by
  have hend : place.cursor.atEnd = false := by simpa [Cursor.atEnd] using hmore
  rw [next?, hplace, Option.bind_some, hend, if_neg Bool.false_ne_true, hstep]

theorem Reads.of_step {place : Layout} {token : Token} (hplace : l.token? = some place)
    (htokens : place.tokens = l.tokens) (hblocks : place.blocks = l.blocks)
    (hmore : place.cursor.rest ≠ []) (hstep : place.step? = some l')
    (htoken : l'.tokens = token :: place.tokens) (hsame : l'.blocks = place.blocks) :
    Reads [token] l l' where
  run := by
    rw [List.length_singleton, run?, next?_of_step hplace hmore hstep, Option.bind_some, run?]
  tokens := htoken.trans (congrArg _ htokens)
  blocks := hsame.trans hblocks

theorem Inside.reads_item {item gap : List Char} (h : l.Inside (item ++ (gap ++ rest)))
    (hitem : Item item) (hgap : CleanGap gap)
    (hrest : rest.head? = some ',' ∨ rest.head? = some ']') :
    ∃ l', ∃ scalar : List Char × Bool, Reads [.scalar scalar.1 scalar.2] l l' ∧ l'.Inside rest := by
  obtain ⟨place, hplace, hat, htokens, hblocks⟩ := h.token? (hitem.begins _)
  obtain ⟨l', scalar, hstep, hinside, htoken, hsame⟩ := hat.step?_of_item hitem hgap hrest
  have hmore : place.cursor.rest ≠ [] := by
    rw [hat.rest]
    rcases hrest with hrest | hrest <;> rintro hnil <;> simp_all
  exact ⟨l', scalar, .of_step hplace htokens hblocks hmore hstep htoken hsame, hinside⟩

theorem Inside.reads_comma (h : l.Inside (',' :: rest)) :
    ∃ l', Reads [.flowEntry] l l' ∧ l'.Inside rest := by
  obtain ⟨place, hplace, hat, htokens, hblocks⟩ :=
    h.token? (by simp [Begins, isSpacing, isGap, isBreak])
  obtain ⟨l', hstep, hinside, htoken, hsame⟩ := hat.step?_of_comma
  exact ⟨l', .of_step hplace htokens hblocks (by simp [hat.rest]) hstep htoken hsame, hinside.inside⟩

/-- A place behind a list, in front of the rest of its line. -/
structure Behind (l : Layout) (rest : List Char) : Prop where
  eq : l = between l.cursor l.tokens l.blocks false
  rest : l.cursor.rest = rest
  index : 0 < l.cursor.index

theorem Inside.reads_close (h : l.Inside (']' :: rest)) :
    ∃ l', Reads [.flowSequenceEnd] l l' ∧ l'.Behind rest := by
  obtain ⟨place, hplace, hat, htokens, hblocks⟩ :=
    h.token? (by simp [Begins, isSpacing, isGap, isBreak])
  refine ⟨_, .of_step hplace htokens hblocks (by simp [hat.rest]) hat.step?_of_close rfl rfl, rfl, ?_,
    Nat.lt_add_right 1 hat.index⟩
  change (place.cursor.skip 1).rest = rest
  rw [Cursor.skip_rest, hat.rest]
  rfl

end Layout

/-! ## Elements -/

/-- An element that is read as one scalar. -/
structure Legible (e : Element) : Prop where
  lead : FlowGap e.lead
  item : Item e.raw
  tail : CleanGap e.tail

namespace Layout

variable {l : Layout} {rest : List Char}

/-- The elements of a list are read as scalars with commas between them, up to its closing
bracket. -/
theorem Inside.reads_elements {elements : List Element} {trail : List Char}
    (h : l.Inside (ListText.renderElements elements ++ (trail ++ ']' :: rest)))
    (helements : ∀ e ∈ elements, Legible e) (hbare : ∀ e ∈ elements, e.comma = false → e.tail = [])
    (hcomma : ∀ e ∈ elements.dropLast, e.comma) (htrail : CleanGap trail) :
    ∃ comma scalars l', scalars.length = elements.length ∧ Reads (listTokens comma scalars) l l' ∧
      l'.Behind rest := by
  induction elements generalizing l with
  | nil =>
    rw [ListText.renderElements_nil, List.nil_append] at h
    obtain ⟨l', hreads, hbehind⟩ := (h.of_gap htrail.isFlowGap).reads_close
    exact ⟨false, [], l', rfl, hreads, hbehind⟩
  | cons e elements ih =>
    obtain ⟨hlegible, hothers⟩ := List.forall_mem_cons.1 helements
    obtain ⟨hown, hbares⟩ := List.forall_mem_cons.1 hbare
    cases hclosed : e.comma with
    | true =>
      have hmore : ∀ e ∈ elements.dropLast, e.comma := by
        cases elements with
        | nil => simp
        | cons next elements => exact (List.forall_mem_cons.1 hcomma).2
      have htext : l.Inside (e.lead ++ (e.raw ++ (e.tail ++ ',' ::
          (ListText.renderElements elements ++ (trail ++ ']' :: rest))))) := by
        simpa [Element.render, Element.closing, hclosed] using h
      obtain ⟨l₁, scalar, hitem, hinside⟩ :=
        (htext.of_gap hlegible.lead).reads_item hlegible.item hlegible.tail (.inl rfl)
      obtain ⟨l₂, hentry, hinside⟩ := hinside.reads_comma
      obtain ⟨comma, scalars, l', hlength, hreads, hbehind⟩ := ih hinside hothers hbares hmore
      have hall := (hitem.trans hentry).trans hreads
      cases scalars with
      | nil => exact ⟨true, [scalar], l', by simp [← hlength], hall, hbehind⟩
      | cons next scalars =>
        exact ⟨comma, scalar :: next :: scalars, l', congrArg (· + 1) hlength, hall, hbehind⟩
    | false =>
      obtain rfl : elements = [] := by
        cases elements with
        | nil => rfl
        | cons next elements =>
          have hcomma := (List.forall_mem_cons.1 hcomma).1
          rw [hclosed] at hcomma
          cases hcomma
      have htext : l.Inside (e.lead ++ (e.raw ++ (trail ++ ']' :: rest))) := by
        simpa [Element.render, Element.closing, hclosed, hown hclosed] using h
      obtain ⟨l₁, scalar, hitem, hinside⟩ :=
        (htext.of_gap hlegible.lead).reads_item hlegible.item htrail (.inr rfl)
      obtain ⟨l', hclose, hbehind⟩ := hinside.reads_close
      exact ⟨false, [scalar], l', rfl, hitem.trans hclose, hbehind⟩

/-! ## Behind a list -/

/-- Whether the rest of a line has nothing but a comment. -/
def endsLine (text : List Char) : Bool :=
  (text.dropWhile isGap).head?.all fun ch => ch = '#' || isBreak ch

theorem exists_line {text : List Char} (h : endsLine text) :
    ∃ blanks words after, text = blanks ++ (words ++ after) ∧ (∀ x ∈ blanks, isGap x) ∧
      (words = [] ∨ words.head? = some '#') ∧ (∀ x ∈ words, isBreak x = false) ∧
      ∀ x ∈ after.head?, isBreak x := by
  have hsplit := List.takeWhile_append_dropWhile (p := isGap) (l := text)
  have hblanks : ∀ x ∈ text.takeWhile isGap, isGap x :=
    fun x hx => List.all_eq_true.1 List.all_takeWhile x hx
  rw [endsLine] at h
  generalize text.dropWhile isGap = back at hsplit h
  by_cases hhash : back.head? = some '#'
  · have hcut := List.takeWhile_append_dropWhile (p := (!isBreak ·)) (l := back)
    refine ⟨_, back.takeWhile (!isBreak ·), back.dropWhile (!isBreak ·), by rw [hcut, hsplit],
      hblanks, .inr ?_, ?_, ?_⟩
    · obtain ⟨more, rfl⟩ := List.head?_eq_some_iff.1 hhash
      rfl
    · exact fun x hx => by simpa using List.all_eq_true.1 List.all_takeWhile x hx
    · intro x hx
      have hnot := List.head?_dropWhile_not (!isBreak ·) back
      rw [Option.mem_def.1 hx] at hnot
      simpa using hnot
  · refine ⟨_, [], back, hsplit.symm, hblanks, .inl rfl, by simp, fun x hx => ?_⟩
    rw [Option.mem_def.1 hx] at h hhash
    have hne : x ≠ '#' := fun heq => hhash (congrArg some heq)
    simpa [hne] using h

theorem closeBlocks_between (c : Cursor) (tokens : List Token) (blocks : List Nat)
    (keyAllowed : Bool) (stays : Nat → Bool) :
    (between c tokens blocks keyAllowed).closeBlocks stays
      = between c (List.replicate (blocks.takeWhile (!stays ·)).length .blockEnd ++ tokens)
          (blocks.drop (blocks.takeWhile (!stays ·)).length) keyAllowed := by
  simp [closeBlocks, between, inFlow, Nat.add_comm]

theorem atMargin?_between (c : Cursor) (tokens : List Token) (blocks : List Nat)
    (keyAllowed : Bool) :
    (between c tokens blocks keyAllowed).atMargin?
      = some (between c (List.replicate blocks.length .blockEnd ++ tokens) [] false) := by
  have hall : blocks.takeWhile (fun _ => !false) = blocks :=
    List.takeWhile_eq_self_iff.2 fun _ _ => rfl
  rw [atMargin?, closeBlocks_between, hall, List.drop_length]
  rfl

/-- The end of a text closes all blocks, whatever its column is. -/
theorem resume?_of_end {c : Cursor} (h : c.rest = []) (tokens : List Token) (blocks : List Nat)
    (keyAllowed : Bool) (fuel : Nat) :
    (between c tokens blocks keyAllowed).resume? fuel
      = some (tokens.reverse ++ List.replicate blocks.length .blockEnd) := by
  have hend (tokens : List Token) (blocks : List Nat) :
      (between c tokens blocks keyAllowed).cursor.atEnd := by simp [between, Cursor.atEnd, h]
  have hle := (List.takeWhile_prefix (fun column => !decide (column ≤ c.column)) (l := blocks)).length_le
  have hclosed : (between c tokens blocks keyAllowed).outdented
      = between c (List.replicate (blocks.takeWhile fun column => !decide (column ≤ c.column)).length
          .blockEnd ++ tokens)
          (blocks.drop (blocks.takeWhile fun column => !decide (column ≤ c.column)).length)
          keyAllowed := closeBlocks_between ..
  rw [resume?, dropStale?_of_none rfl rfl, Option.bind_some, hclosed, proceed?, if_pos (hend ..),
    atMargin?_between, Option.map_some]
  generalize (blocks.takeWhile _).length = n at hle
  rw [List.length_drop]
  change some (List.replicate (blocks.length - n) Token.blockEnd
    ++ (List.replicate n Token.blockEnd ++ tokens)).reverse = _
  rw [← List.append_assoc, List.replicate_append_replicate, Nat.sub_add_cancel hle,
    List.reverse_append, List.reverse_replicate]

theorem break?_column (c : Cursor) (column n : Nat) :
    (({ c with column } : Cursor).skip n).break? = (c.skip n).break? := rfl

/-- Behind a list its line ends, and then the column does not matter. -/
theorem finish?_column {c : Cursor} (hline : endsLine c.rest) (hindex : 0 < c.index) (column : Nat)
    (tokens : List Token) (blocks : List Nat) (fuel : Nat) :
    (between { c with column } tokens blocks false).finish? fuel
      = (between c tokens blocks false).finish? fuel := by
  obtain ⟨blanks, words, after, htext, hblanks, hwords, hwordline, hafter⟩ := exists_line hline
  have hskip (c : Cursor) (hc : c.rest = blanks ++ (words ++ after)) :
      skipComment true c = c.skip (blanks ++ words).length :=
    skipComment_of_line hc hblanks hwords hwordline
      (fun x hx => isGap_of_isBreak (hafter x hx)) fun _ => hafter
  have hspaced (c : Cursor) (hc : c.rest = blanks ++ (words ++ after)) (hindex : 0 < c.index) :
      (between c tokens blocks false).spaced
        = (c.skip (blanks ++ words).length).break?.elim
            (between (c.skip (blanks ++ words).length) tokens blocks false)
            fun read => skipSpacing c.rest.length (between read.2 tokens blocks true) := by
    have htabs : ((between c tokens blocks false).inFlow
        || !(between c tokens blocks false).keyAllowed) = true := rfl
    have hcursor : (between c tokens blocks false).cursor = c := rfl
    rw [spaced, skipSpacing_succ (.inl hindex), htabs, hcursor, hskip c hc]
    cases (c.skip (blanks ++ words).length).break? <;> rfl
  cases fuel with
  | zero => rfl
  | succ fuel =>
    have hend (c : Cursor) (hc : c.rest = blanks ++ (words ++ after)) :
        (c.skip (blanks ++ words).length).rest = after :=
      Cursor.skip_rest_append (by rw [hc, List.append_assoc])
    rw [finish?_eq_resume?, finish?_eq_resume?, hspaced c htext hindex,
      hspaced { c with column } htext hindex, break?_column]
    cases hbreak : (c.skip (blanks ++ words).length).break? with
    | some step => rfl
    | none =>
      -- Without a line break the text ends here.
      have hnone : after = [] := by
        cases hlast : after with
        | nil => rfl
        | cons ch more =>
          obtain ⟨text, c', hsome, -⟩ :=
            Cursor.exists_of_break ((hend c htext).trans hlast) (hafter ch (by simp [hlast]))
          rw [hbreak] at hsome
          cases hsome
      rw [Option.elim_none, Option.elim_none, resume?_of_end ((hend c htext).trans hnone),
        resume?_of_end ((hend { c with column } htext).trans hnone)]

/-- What follows the line of a list is read the same whatever lies before. -/
theorem finish?_behind {c : Cursor} (hline : endsLine c.rest) (hindex : 0 < c.index)
    (tokens : List Token) (blocks : List Nat) (fuel : Nat) :
    (between c tokens blocks false).finish? fuel
      = ((between { rest := c.rest, index := 1 } [] blocks false).finish? fuel).map
          (tokens.reverse ++ ·) := by
  have hraised : (between { rest := c.rest, index := 1 } [] blocks false).Raised :=
    ⟨rfl, Nat.one_pos⟩
  have habove : between { c with column := 0 } tokens blocks false
      = (between { rest := c.rest, index := 1 } [] blocks false).above
          { tokens, count := tokens.length, index := c.index - 1, line := c.line } := by
    have hle : 1 + (c.index - 1) = c.index := by omega
    simp [between, above, Cursor.shift, hle]
  rw [← finish?_column hline hindex 0, habove, finish?_above hraised]

/-! ## Texts -/

/-- The start of a text. -/
def start (text : List Char) : Layout := { cursor := .ofText text }

/-- A text is read up to its end, and a bracket there starts the value of a key. -/
def Introduces (front : List Char) : Prop :=
  ∃ (n : Nat) (c : Cursor) (tokens : List Token) (blocks : List Nat), ∀ after,
    (run? n (start (front ++ '[' :: after))).bind token?
      = some (between { c with rest := '[' :: after } tokens blocks false)

theorem token?_of_spaced {l l' : Layout} (hspaced : l.spaced = l') (hstale : l'.dropStale? = some l')
    (hblocks : ∀ column ∈ l'.blocks.head?, column ≤ l'.cursor.column) : l.token? = some l' := by
  rw [token?, hspaced, hstale, Option.map_some, outdented, closeBlocks_of_deeper hblocks]

/-- The first key of a text may have a list as its value. -/
theorem introduces_of_key {key : List Char} (hkey : isKey key) : Introduces (key ++ [':', ' ']) := by
  refine ⟨2, (Cursor.ofText []).skip (key.length + 2),
    [.value, .scalar key true, .key] ++ (opening 0 []).1, (opening 0 []).2, fun after => ?_⟩
  have htext : (Cursor.ofText (key ++ [':', ' '] ++ '[' :: after)).rest
      = key ++ ':' :: ' ' :: '[' :: after := by simp [Cursor.ofText]
  generalize hc : Cursor.ofText (key ++ [':', ' '] ++ '[' :: after) = c at htext
  have hstart : start (key ++ [':', ' '] ++ '[' :: after) = between c [] [] true := by
    rw [← hc]
    rfl
  have hskip : (c.skip key.length).rest = ':' :: ' ' :: '[' :: after := Cursor.skip_rest_append htext
  have hword : (between c [] [] true).next? = some (behindKey c key [] []) := by
    refine next?_of_step (token?_of_spaced (spaced_of_begins ?_) (dropStale?_of_none rfl rfl)
      (by simp [between])) ?_ (step?_of_key hkey rfl htext [] [])
    · change Begins c.rest
      rw [htext]
      exact begins_of_isKey hkey _
    · change c.rest ≠ []
      rw [htext]
      simp
  have hcolon : (behindKey c key [] []).next? = some (between (c.skip (key.length + 1))
      ([.value, .scalar key true, .key] ++ (opening c.column []).1 ++ []) (opening c.column []).2
      false) := by
    refine next?_of_step (token?_of_spaced (spaced_of_begins ?_) (dropStale?_of_fresh rfl rfl rfl ?_)
      (by simp [behindKey])) ?_ (step?_of_colon rfl htext)
    · change Begins (c.skip key.length).rest
      rw [hskip]
      simp [Begins, isSpacing, isGap, isBreak]
    · exact Nat.add_le_add_left (length_of_isKey hkey) _
    · change (c.skip key.length).rest ≠ []
      rw [hskip]
      simp
  have hvalue : (c.skip (key.length + 1)).rest = List.replicate 1 ' ' ++ '[' :: after := by
    rw [← Cursor.skip_skip, Cursor.skip_rest, hskip]
    rfl
  have hplace : (between (c.skip (key.length + 1)) ([.value, .scalar key true, .key]
      ++ (opening c.column []).1 ++ []) (opening c.column []).2 false).spaced
        = between ((c.skip (key.length + 1)).skip 1) ([.value, .scalar key true, .key]
            ++ (opening c.column []).1 ++ []) (opening c.column []).2 false :=
    spaced_of_spaces (by simp [Begins, isSpacing, isGap, isBreak]) hvalue
  rw [hstart, run?, hword, Option.bind_some, run?, hcolon, Option.bind_some, run?, Option.bind_some,
    token?_of_spaced hplace (dropStale?_of_none rfl rfl) (by simp [between, opening, ← hc])]
  have hcursor : (c.skip (key.length + 1)).skip 1
      = { (Cursor.ofText []).skip (key.length + 2) with rest := '[' :: after } := by
    have hrest : ((c.skip (key.length + 1)).skip 1).rest = '[' :: after := by
      rw [Cursor.skip_rest, hvalue]
      rfl
    rw [← hrest, ← hc]
    rfl
  rw [hcursor, ← hc]
  rfl

/-- A text with a list is read up to the rest of the line of the list. -/
theorem Introduces.runs {front : List Char} (h : Introduces front) :
    ∃ n before blocks, ∀ {list : ListText} {back : List Char}, list.head = front ++ ['['] →
      list.rest = ']' :: back → list.Tiled → (∀ e ∈ list.elements, Legible e) →
      CleanGap list.trail →
      ∃ comma scalars l', scalars.length = list.elements.length ∧
        run? (n + (listTokens comma scalars).length) (start list.render) = some l' ∧
        l'.Behind back ∧ l'.blocks = blocks ∧
        l'.tokens = (before ++ .flowSequenceStart :: listTokens comma scalars).reverse := by
  obtain ⟨n, c, tokens, blocks, hfront⟩ := h
  refine ⟨n + 1, tokens.reverse, blocks, ?_⟩
  intro list back hhead hrest htiled helements htrail
  obtain ⟨after, hafter⟩ : ∃ after,
      ListText.renderElements list.elements ++ (list.trail ++ ']' :: back) = after := ⟨_, rfl⟩
  have htext : list.render = front ++ '[' :: after := by
    rw [← hafter]
    simp [ListText.render, ListText.inner, hhead, hrest]
  have hbracket : Cursor.rest { c with rest := '[' :: after } = '[' :: after := rfl
  obtain ⟨l₁, hopen, hat, htokens, hblocks⟩ :=
    @step?_of_open { c with rest := '[' :: after } after tokens blocks hbracket
  have hinside := hat.inside
  rw [← hafter] at hinside
  obtain ⟨comma, scalars, l', hlength, hreads, hbehind⟩ :=
    hinside.reads_elements helements (fun e he => (htiled.elements e he).bare) htiled.comma htrail
  have hfirst : run? (n + 1) (start (front ++ '[' :: after)) = some l₁ := by
    obtain ⟨l, hrun, hplace⟩ := Option.bind_eq_some_iff.1 (hfront after)
    have hend : (between { c with rest := '[' :: after } tokens blocks false).cursor.atEnd
        = false := rfl
    rw [run?_add, hrun, Option.bind_some, run?, next?, hplace, Option.bind_some, hend,
      if_neg Bool.false_ne_true, hopen, Option.bind_some, run?]
  refine ⟨comma, scalars, l', hlength, ?_, hbehind, hreads.blocks.trans hblocks, ?_⟩
  · rw [htext, run?_add, hfirst, Option.bind_some, hreads.run]
  · rw [hreads.tokens, htokens]
    simp

end Layout

open Layout

theorem length_laterTokens (comma : Bool) (scalars : List (List Char × Bool)) :
    (laterTokens comma scalars).length = 2 * scalars.length + 1 + comma.toNat := by
  induction scalars with
  | nil => cases comma <;> rfl
  | cons scalar scalars ih =>
    rw [laterTokens, List.length_cons, List.length_cons, ih, List.length_cons]
    omega

theorem length_listTokens (comma : Bool) (scalars : List (List Char × Bool)) :
    2 * scalars.length ≤ (listTokens comma scalars).length ∧
      (listTokens comma scalars).length ≤ 2 * scalars.length + 1 := by
  cases scalars with
  | nil => exact ⟨Nat.zero_le _, Nat.le_refl _⟩
  | cons scalar scalars =>
    have hcomma : comma.toNat ≤ 1 := Bool.toNat_le comma
    simp only [listTokens, List.length_cons, length_laterTokens]
    omega

/-- A list of scalars that is the value of a key and has the rest of its line for itself. -/
structure InYaml (list : ListText) : Prop where
  head : ∃ front, list.head = front ++ ['['] ∧ Introduces front
  elements : ∀ e ∈ list.elements, Legible e
  trail : CleanGap list.trail
  rest : ∃ back, list.rest = ']' :: back ∧ endsLine back

section

variable {list list' : ListText} (h : InYaml list) (h' : InYaml list') (htiled : list.Tiled)
  (htiled' : list'.Tiled) (hhead : list'.head = list.head) (hrest : list'.rest = list.rest)
  (hmore : list'.elements.length = list.elements.length + 1)
  (hlength : list.render.length + 3 ≤ list'.render.length)
  (hallowed : ∀ ch ∈ list'.render, isAllowed ch)

include h h' htiled htiled' hhead hrest hmore hlength hallowed

/-- A text with an item more in a list has the same tokens but for those of the list. -/
theorem tokens?_of_more {tokens : List Token} (htokens : tokens? list.render = some tokens) :
    ∃ before more comma comma' scalars scalars',
      tokens = before ++ .flowSequenceStart :: (listTokens comma scalars ++ more) ∧
      tokens? list'.render
        = some (before ++ .flowSequenceStart :: (listTokens comma' scalars' ++ more)) ∧
      scalars'.length = scalars.length + 1 := by
  obtain ⟨front, hfront, hintroduces⟩ := h.head
  obtain ⟨back, hback, hline⟩ := h.rest
  obtain ⟨n, before, blocks, hruns⟩ := hintroduces.runs
  obtain ⟨comma, scalars, l, hscalars, hrun, hbehind, hblocks, hread⟩ :=
    hruns hfront hback htiled h.elements h.trail
  obtain ⟨comma', scalars', l', hscalars', hrun', hbehind', hblocks', hread'⟩ :=
    hruns (hhead.trans hfront) (hrest.trans hback) htiled' h'.elements h'.trail
  rw [tokens?] at htokens
  split at htokens
  · obtain ⟨fuel, hfuel, hfinish⟩ := exists_of_run? hrun htokens
    rw [hbehind.eq, finish?_behind (hbehind.rest ▸ hline) hbehind.index, hbehind.rest, hblocks,
      Option.map_eq_some_iff] at hfinish
    obtain ⟨more, hfinish, rfl⟩ := hfinish
    -- The fuel for the characters that are added is enough for the tokens that are added.
    have hcount := length_listTokens comma scalars
    have hcount' := length_listTokens comma' scalars'
    obtain ⟨fuel', hfuel', hle⟩ : ∃ fuel', list'.render.length + 1
        = n + (listTokens comma' scalars').length + fuel' ∧ fuel ≤ fuel' :=
      ⟨list'.render.length + 1 - (n + (listTokens comma' scalars').length), by omega, by omega⟩
    refine ⟨before, more, comma, comma', scalars, scalars', ?_, ?_, by omega⟩
    · rw [hread, List.reverse_reverse, List.append_assoc, List.cons_append]
    · rw [tokens?, if_pos (List.all_eq_true.2 hallowed), hfuel']
      change finish? _ (start list'.render) = _
      rw [finish?_of_run? hrun', hbehind'.eq, finish?_behind (hbehind'.rest ▸ hline) hbehind'.index,
        hbehind'.rest, hblocks', finish?_mono hfinish hle, hread']
      simp
  · cases htokens

/-- A text with an item more in a list is read as the same document but for loose scalars. -/
theorem Document.parse?_of_more {document : Document}
    (hparse : Document.parse? (String.ofList list.render) = some document) :
    ∃ document', Document.parse? (String.ofList list'.render) = some document' ∧
      document.thin = document'.thin := by
  rw [Document.parse?, String.toList_ofList] at hparse
  obtain ⟨tokens, htokens, hparse⟩ := Option.bind_eq_some_iff.1 hparse
  obtain ⟨root, hroot, hparse⟩ := Option.bind_eq_some_iff.1 hparse
  obtain rfl : { root } = document := Option.some.inj hparse
  obtain ⟨before, more, comma, comma', scalars, scalars', rfl, htokens', hscalars⟩ :=
    tokens?_of_more h h' htiled htiled' hhead hrest hmore hlength hallowed htokens
  have hcount := length_listTokens comma scalars
  have hcount' := length_listTokens comma' scalars'
  have hreplaces : Replaces (4 * ((listTokens comma' scalars').length
      - (listTokens comma scalars).length)) (listTokens comma scalars) (listTokens comma' scalars') :=
    replaces_of_scalars (by omega)
  obtain ⟨root', hroot', hthin⟩ := ofTokens?_splice hreplaces (by omega) hroot
  refine ⟨{ root := root' }, ?_, congrArg Document.mk hthin⟩
  rw [Document.parse?, String.toList_ofList, htokens']
  simp [hroot']

end

end StubManager.Yaml
