import StubManager.Proofs.Json.Member
import StubManager.Proofs.ListText.Style

/-!
# Lists of JSON strings

A list is laid out as JSON when its items are strings that both languages read alike and there is
nothing but JSON white space between them (`ListText.IsJson`). All edits keep that
(`IsJson.remove`, `IsJson.append`). Such a list is an array of the strings unless a comma follows
its last element (`IsJson.reads`, `IsJson.not_reads`); the array of a document is such a list
(`IsJson.of_reads`).
-/

namespace StubManager

open Text Json

/-! ## Items -/

/-- Whether an item is a string that JSON reads as the list does. -/
def IsJsonString (item : List Char) : Prop :=
  ∃ inside, Element.literal? { raw := item, comma := false } = some (.double, inside) ∧
    (∀ rest, inside? (inside ++ '"' :: rest) = some (inside, rest)) ∧
    decode? inside = some (Literal.unescape inside)

/-- The JSON value of an item that is a string. -/
def jsonItem (item : List Char) : Json.Value :=
  match Element.literal? { raw := item, comma := false } with
  | some (_, inside) => .string inside
  | none => .null

namespace IsJsonString

variable {item : List Char}

theorem isItem (h : IsJsonString item) : IsItem item := by
  obtain ⟨inside, hliteral, -⟩ := h
  obtain ⟨rfl, hscan⟩ := literal?_eq_some_iff.1 hliteral
  refine ⟨[.literal .double inside], .cons (.literal hscan) .nil, by simp, ?_, ?_⟩
  · exact ⟨⟨_, rfl, by simp [Piece.isGap]⟩, ⟨_, rfl, by simp [Piece.isGap]⟩⟩
  · simp [Piece.textOf, Piece.text]

theorem string?_jsonItem (h : IsJsonString item) :
    (jsonItem item).string? = some (valueOf item) := by
  obtain ⟨inside, hliteral, -, hdecode⟩ := h
  simp only [jsonItem, hliteral, valueOf, Element.value, Json.Value.string?, hdecode,
    Option.map_some]

theorem reads (h : IsJsonString item) (rest : List Char) :
    Reads (item ++ rest) (.value (jsonItem item)) rest := by
  obtain ⟨inside, hliteral, hinside, -⟩ := h
  obtain ⟨rfl, -⟩ := literal?_eq_some_iff.1 hliteral
  simp only [jsonItem, hliteral]
  refine .string ?_
  rw [List.append_eq, List.append_assoc]
  exact hinside rest

end IsJsonString

/-- A string without escapes is read alike. -/
theorem isJsonString_of_plain {inside text rest : List Char}
    (h : inside? text = some (inside, rest)) (hplain : '\\' ∉ inside) :
    IsJsonString ('"' :: (inside ++ ['"'])) ∧
      jsonItem ('"' :: (inside ++ ['"'])) = .string inside := by
  have hread := (of_inside? h).2
  -- Neither language ends the string at one of its characters or makes anything else of one.
  have hchars : Literal.scan? '"' (inside ++ ['"']) = some (inside, []) ∧
      decode? inside = some inside ∧ Literal.unescape inside = inside := by
    have hinside := hread []
    clear h hread
    induction inside with
    | nil => exact ⟨rfl, rfl, rfl⟩
    | cons c inside ih =>
      rw [List.mem_cons, not_or] at hplain
      obtain ⟨hslash, hplain⟩ := hplain
      obtain ⟨hquote, hlow, hinside⟩ := of_inside?_cons (Ne.symm hslash) hinside
      obtain ⟨hscan, hdecode, hunescape⟩ := ih hplain hinside
      refine ⟨?_, ?_, ?_⟩
      · have hbreak : c ≠ '\n' := by
          rintro rfl
          exact absurd hlow (by decide)
        rw [List.cons_append, Literal.scan?, if_neg hbreak, if_neg hquote, hscan]
        · rfl
        · exact Ne.symm hslash
      · rw [decode?, hdecode]
        · rfl
        · exact fun _ _ _ _ _ heq => absurd heq.symm hslash
        · exact fun _ _ heq => absurd heq.symm hslash
      · rw [Literal.unescape, hunescape]
        · exact fun heq => absurd heq.symm hslash
        · exact fun _ _ heq => absurd heq.symm hslash
  have hliteral : Element.literal? { raw := '"' :: (inside ++ ['"']), comma := false }
      = some (.double, inside) := literal?_eq_some_iff.2 ⟨rfl, hchars.1⟩
  exact ⟨⟨inside, hliteral, hread, by rw [hchars.2.1, hchars.2.2]⟩, by rw [jsonItem, hliteral]⟩

/-- A string that the editor writes is read alike if it has no control characters. -/
theorem isJsonString_encode {name : List Char} (h : ∀ c ∈ name, 0x20 ≤ c.toNat) :
    IsJsonString (QuoteStyle.double.encode name) := by
  have hbreak : '\n' ∉ name := fun hmem => absurd (h _ hmem) (by decide)
  refine ⟨QuoteStyle.double.escape name, ?_, fun rest => ?_, ?_⟩
  · exact literal?_eq_some_iff.2 ⟨rfl, Literal.scan?_encode .double name [] hbreak⟩
  · clear hbreak
    induction name with
    | nil => rfl
    | cons c name ih =>
      rw [List.forall_mem_cons] at h
      rw [QuoteStyle.escape]
      split
      · next hescape =>
        rcases hescape with rfl | rfl <;> simp [inside?, escaped?, ih h.2, QuoteStyle.mark]
      · next hescape =>
        rw [not_or] at hescape
        rw [List.cons_append, inside?_cons hescape.2 hescape.1 h.1, ih h.2]
        rfl
  · rw [Literal.unescape_escape]
    clear h hbreak
    induction name with
    | nil => rfl
    | cons c name ih =>
      rw [QuoteStyle.escape]
      split
      · next hescape =>
        rcases hescape with rfl | rfl <;> simp [decode?, escaped?, ih, QuoteStyle.mark]
      · next hescape =>
        rw [not_or] at hescape
        rw [decode?, ih]
        · rfl
        · exact fun _ _ _ _ _ heq => absurd heq hescape.1
        · exact fun _ _ heq => absurd heq hescape.1

/-! ## Gaps -/

/-- Whether the gaps around an element have only characters with a property. -/
def Element.GapsIn (P : Char → Prop) (e : Element) : Prop :=
  (∀ c ∈ e.lead, P c) ∧ ∀ c ∈ e.tail, P c

namespace Element

variable {e : Element}

/-- An element between JSON white space is read as its string. -/
theorem reads_render (hgaps : e.GapsIn (isSpace ·)) (hstring : IsJsonString e.raw)
    (rest : List Char) :
    Reads (e.render ++ rest) (.value (jsonItem e.raw)) (e.closing ++ rest) := by
  rw [render, List.append_assoc, List.append_assoc]
  exact (hstring.reads _).of_blanks hgaps.1

theorem skip_closing (hgaps : e.GapsIn (isSpace ·)) (hcomma : e.comma) (rest : List Char) :
    skip (e.closing ++ rest) = ',' :: rest := by
  rw [closing, if_pos hcomma, List.append_assoc, skip_append hgaps.2]
  exact skip_cons_of_not rfl rest

end Element

namespace ListText

variable {P : Char → Prop} {list : ListText}

/-- Whether the gaps of a list have only characters with a property. -/
def GapsIn (P : Char → Prop) (list : ListText) : Prop :=
  (∀ e ∈ list.elements, e.GapsIn P) ∧ ∀ c ∈ list.trail, P c

theorem GapsIn.joinAround (h : list.GapsIn P) {before after : List Element} {e : Element}
    (helements : list.elements = before ++ e :: after) {gap : List Char} (hgap : ∀ c ∈ gap, P c) :
    (list.joinAround before e after gap).GapsIn P := by
  obtain ⟨helems, htrail⟩ := h
  rw [helements, List.forall_mem_append, List.forall_mem_cons] at helems
  obtain ⟨hbefore, he, hafter⟩ := helems
  obtain ⟨front, gap', hjoin, hfront, hgap'⟩ : ∃ front gap',
      (if e.comma then (before, gap) else dropLastComma before gap) = (front, gap') ∧
        (∀ e ∈ front, e.GapsIn P) ∧ ∀ c ∈ gap', P c := by
    split
    · exact ⟨before, gap, rfl, hbefore, hgap⟩
    · rcases List.eq_nil_or_concat before with rfl | ⟨front, previous, rfl⟩
      · exact ⟨[], gap, rfl, hbefore, hgap⟩
      · rw [List.concat_eq_append, List.forall_mem_append, List.forall_mem_singleton] at hbefore
        refine ⟨front ++ [{ previous with tail := [], comma := false }], previous.tail ++ gap,
          by simp [dropLastComma], ?_, List.forall_mem_append.2 ⟨hbefore.2.2, hgap⟩⟩
        refine List.forall_mem_append.2 ⟨hbefore.1, List.forall_mem_singleton.2 ?_⟩
        exact ⟨hbefore.2.1, by simp⟩
  simp only [ListText.joinAround, hjoin]
  cases after with
  | nil => exact ⟨by simpa [withGapAfter] using hfront, hgap'⟩
  | cons next more =>
    rw [List.forall_mem_cons] at hafter
    refine ⟨List.forall_mem_append.2 ⟨hfront, ?_⟩, htrail⟩
    exact List.forall_mem_cons.2 ⟨⟨hgap', hafter.1.2⟩, hafter.2⟩

theorem GapsIn.removeBetween (h : list.GapsIn P) {before after : List Element} {e : Element}
    (helements : list.elements = before ++ e :: after) :
    (list.removeBetween before e after).GapsIn P := by
  have helems := h.1
  rw [helements, List.forall_mem_append, List.forall_mem_cons] at helems
  obtain ⟨hbefore, he, hafter⟩ := helems
  have hgap : ∀ c ∈ gapAfter after list.trail, P c := by
    cases after with
    | nil => exact h.2
    | cons next more => exact (hafter next (by simp)).1
  rcases list.removeBetween_cases before e after with ⟨-, heq⟩ | ⟨-, hcases⟩
  · rw [heq]
    refine h.joinAround helements (List.forall_mem_append.2 ⟨fun c hc => he.1 c ?_, fun c hc =>
      hgap c ?_⟩)
    · rw [← throughLastBreak_append_lastLine e.lead]
      exact List.mem_append_left _ hc
    · exact (List.dropWhile_suffix _).subset (List.mem_of_mem_drop hc)
  rcases hcases with ⟨next, more, rfl, -, heq⟩ | ⟨front, previous, rfl, rfl, -, heq⟩ |
    ⟨-, -, heq⟩
  · rw [heq]
    rw [List.forall_mem_cons] at hafter
    refine ⟨List.forall_mem_append.2 ⟨hbefore, ?_⟩, h.2⟩
    exact List.forall_mem_cons.2 ⟨⟨he.1, hafter.1.2⟩, hafter.2⟩
  · rw [heq]
    rw [List.forall_mem_append, List.forall_mem_singleton] at hbefore
    refine ⟨List.forall_mem_append.2 ⟨hbefore.1, List.forall_mem_singleton.2 ?_⟩, h.2⟩
    exact ⟨hbefore.2.1, he.2⟩
  · rw [heq]
    exact h.joinAround helements (List.forall_mem_append.2 ⟨he.1, hgap⟩)

theorem GapsIn.remove (h : list.GapsIn P) (value : String) : (list.remove value).GapsIn P :=
  remove_induction h (fun _ _ _ helements => h.removeBetween helements) value

/-- An element is put behind a line feed and an indentation, or behind a gap like the last one. -/
theorem GapsIn.append (h : list.GapsIn P) (hblank : ∀ c, isSpaceOrTab c → P c)
    (hbreak : P '\n') (fragment : List Char) : (list.append fragment).GapsIn P := by
  obtain ⟨helems, htrail⟩ := h
  have hspaces : ∀ {text : List Char}, isBlankText text → ∀ c ∈ text, P c :=
    fun htext c hc => hblank c (List.all_eq_true.1 htext c hc)
  have hindent : ∀ line, ∀ c ∈ indentation line, P c :=
    fun line c hc => hblank c (List.mem_takeWhile_imp hc)
  rw [append.eq_def]
  rcases List.eq_nil_or_concat list.elements with hnil | ⟨front, last, hlast⟩
  · rw [hnil]
    simp only [List.getLast?_nil]
    split
    · refine ⟨List.forall_mem_singleton.2 ⟨List.forall_mem_cons.2 ⟨hbreak, ?_⟩, by simp⟩, htrail⟩
      exact List.forall_mem_append.2 ⟨hindent _, hspaces rfl⟩
    · exact ⟨List.forall_mem_singleton.2 ⟨by simp, by simp⟩, htrail⟩
  · rw [List.concat_eq_append] at hlast
    rw [hlast, List.forall_mem_append, List.forall_mem_singleton] at helems
    obtain ⟨hfront, hlead, htail⟩ := helems
    rw [hlast]
    simp only [List.getLast?_concat, List.dropLast_concat]
    split
    · refine ⟨List.forall_mem_append.2 ⟨hfront, ?_⟩,
        fun c hc => htrail c ((List.dropWhile_suffix _).subset hc)⟩
      refine List.forall_mem_cons.2 ⟨⟨hlead, htail⟩, List.forall_mem_singleton.2 ⟨?_, by simp⟩⟩
      refine List.forall_mem_append.2
        ⟨fun c hc => htrail c ((List.takeWhile_prefix _).subset hc), ?_⟩
      refine List.forall_mem_cons.2 ⟨hbreak, ?_⟩
      unfold itemIndentation
      dsimp only
      split
      · next hline => exact hspaces hline
      · exact List.forall_mem_append.2 ⟨hindent _, hspaces rfl⟩
    · refine ⟨List.forall_mem_append.2 ⟨hfront, ?_⟩, htrail⟩
      refine List.forall_mem_cons.2 ⟨⟨hlead, by simp⟩, List.forall_mem_singleton.2 ⟨?_, htail⟩⟩
      unfold inlineSeparator
      split
      · exact hspaces rfl
      · exact hlead

/-! ## The last comma -/

/-- Whether no comma follows the last element. -/
def EndsBare (list : ListText) : Prop := ∀ last ∈ list.elements.getLast?, last.comma = false

theorem endsBare_iff : list.EndsBare ↔ list.lastComma? ≠ some true := by
  rw [EndsBare, lastComma?]
  cases list.elements.getLast? <;> simp

theorem EndsBare.remove (h : list.EndsBare) (htiled : list.Tiled) (value : String) :
    (list.remove value).EndsBare := by
  by_cases hnil : (list.remove value).elements = []
  · simp [EndsBare, hnil]
  · rw [endsBare_iff, lastComma?_remove htiled value hnil]
    exact endsBare_iff.1 h

theorem endsBare_append_iff (list : ListText) (fragment : List Char) :
    (list.append fragment).EndsBare ↔
      list.EndsBare ∧ ¬ (list.elements = [] ∧ '\n' ∈ list.trail) := by
  rw [append.eq_def]
  rcases List.eq_nil_or_concat list.elements with hnil | ⟨front, last, hlast⟩
  · by_cases hbreak : '\n' ∈ list.trail <;> simp [EndsBare, hnil, hbreak]
  · rw [List.concat_eq_append] at hlast
    by_cases hbreak : '\n' ∈ list.trail <;> simp [EndsBare, hlast, hbreak]

/-! ## Lists of strings -/

/-- Whether the items of a list are strings with nothing but JSON white space between them. -/
structure IsJson (list : ListText) : Prop where
  tiled : list.Tiled
  strings : ∀ item ∈ list.items, IsJsonString item
  gaps : list.GapsIn (isSpace ·)

theorem isSpace_of_isSpaceOrTab {c : Char} (h : isSpaceOrTab c) : isSpace c := by
  rw [isSpaceOrTab, Bool.or_eq_true, decide_eq_true_eq, decide_eq_true_eq] at h
  rcases h with rfl | rfl <;> rfl

theorem isGap_of_isSpace {gap : List Char} (h : ∀ c ∈ gap, isSpace c) : IsGap gap := by
  refine .of_forall_blank fun c hc => ?_
  have hspace := h c hc
  simp only [isSpace, Bool.or_eq_true, decide_eq_true_eq] at hspace
  rcases hspace with ((rfl | rfl) | rfl) | rfl <;> rfl

namespace IsJson

theorem remove (h : list.IsJson) (value : String) : (list.remove value).IsJson := by
  obtain ⟨htiled, hitems⟩ := h.tiled.remove value
  refine ⟨htiled, fun item hitem => h.strings item ?_, h.gaps.remove value⟩
  rw [hitems] at hitem
  exact List.mem_of_mem_eraseP hitem

theorem append (h : list.IsJson) {fragment : List Char} (hfragment : IsJsonString fragment) :
    (list.append fragment).IsJson := by
  refine ⟨h.tiled.append hfragment.isItem, ?_,
    h.gaps.append (fun _ => isSpace_of_isSpaceOrTab) rfl fragment⟩
  rw [items_append]
  exact List.forall_mem_append.2 ⟨h.strings, List.forall_mem_singleton.2 hfragment⟩

/-- New elements get double quotes. -/
theorem style_eq (h : list.IsJson) : list.style = .double := by
  have hstyles : ∀ e ∈ list.elements, e.style? = some .double := by
    intro e he
    obtain ⟨inside, hliteral, -⟩ := h.strings e.raw (List.mem_map_of_mem he)
    have heq : e.literal? = some (.double, inside) := hliteral
    rw [Element.style?, heq]
    rfl
  rw [style]
  cases helements : list.elements with
  | nil => rfl
  | cons e elements => rw [List.findSome?_cons, hstyles e (by simp [helements])]; rfl

theorem mapM_string? (h : list.IsJson) :
    (list.items.map jsonItem).mapM Json.Value.string? = some list.values := by
  rw [values_eq_map_items]
  have hstrings := h.strings
  generalize list.items = items at hstrings
  induction items with
  | nil => rfl
  | cons item items ih =>
    rw [List.forall_mem_cons] at hstrings
    simp [hstrings.1.string?_jsonItem, ih hstrings.2]

/-- What the elements of a list hold, as long as a comma follows all but the last. -/
theorem reads_elements {elements : List Element} {trail after : List Char}
    (hne : elements ≠ []) (htiled : ∀ e ∈ elements, e.Tiled)
    (hcomma : ∀ e ∈ elements.dropLast, e.comma)
    (hlast : ∀ last ∈ elements.getLast?, last.comma = false)
    (hgaps : ∀ e ∈ elements, e.GapsIn (isSpace ·)) (htrail : ∀ c ∈ trail, isSpace c)
    (hstrings : ∀ e ∈ elements, IsJsonString e.raw) :
    Reads (renderElements elements ++ (trail ++ ']' :: after))
      (.items (elements.map fun e => jsonItem e.raw)) after := by
  induction elements with
  | nil => exact absurd rfl hne
  | cons e elements ih =>
    rw [List.forall_mem_cons] at htiled hgaps hstrings
    rw [renderElements_cons, List.append_assoc]
    have hitem := Element.reads_render hgaps.1 hstrings.1
    cases elements with
    | nil =>
      have hbare : e.comma = false := hlast e rfl
      have hclosing : e.closing = [] := by simp [Element.closing, hbare, htiled.1.bare hbare]
      refine .lastItem (hitem _) ?_
      rw [hclosing, List.nil_append, renderElements_nil, List.nil_append, skip_append htrail,
        skip_cons_of_not rfl]
    | cons x elements =>
      refine .item (hitem _) (Element.skip_closing hgaps.1 (hcomma e (by simp)) _) ?_
      refine ih (by simp) htiled.2 (fun e' he' => hcomma e' ?_) (fun last hmem => hlast last ?_)
        hgaps.2 hstrings.2
      · rw [List.dropLast_cons_cons]
        exact List.mem_cons_of_mem _ he'
      · rwa [List.getLast?_cons_cons]

/-- A list without a last comma is the array of its strings. -/
theorem reads (h : list.IsJson) (hbare : list.EndsBare) {after : List Char}
    (hrest : list.rest = ']' :: after) :
    Reads ('[' :: (list.inner ++ list.rest)) (.value (.array (list.items.map jsonItem))) after := by
  rw [inner, hrest, List.append_assoc]
  by_cases hnil : list.elements = []
  · rw [items, hnil]
    refine .noItems ?_
    rw [renderElements_nil, List.nil_append, skip_append h.gaps.2, skip_cons_of_not rfl]
  · rw [items, List.map_map]
    exact .array (reads_elements hnil h.tiled.elements h.tiled.comma hbare h.gaps.1 h.gaps.2
      fun e he => h.strings _ (List.mem_map_of_mem he))

/-- Behind a comma an array goes on. -/
theorem not_reads_elements {elements : List Element} {trail after : List Char}
    (hclosed : ∀ e ∈ elements, e.comma) (hgaps : ∀ e ∈ elements, e.GapsIn (isSpace ·))
    (htrail : ∀ c ∈ trail, isSpace c) (hstrings : ∀ e ∈ elements, IsJsonString e.raw)
    (values : List Json.Value) (rest : List Char) :
    ¬ Reads (renderElements elements ++ (trail ++ ']' :: after)) (.items values) rest := by
  intro hread
  induction elements generalizing values with
  | nil =>
    have hskip : skip (trail ++ ']' :: after) = ']' :: after := by
      rw [skip_append htrail, skip_cons_of_not rfl]
    exact (hread.opens _ _ hskip).1 rfl
  | cons e elements ih =>
    rw [List.forall_mem_cons] at hclosed hgaps hstrings
    rw [renderElements_cons, List.append_assoc] at hread
    obtain ⟨v, more, hv, hmore⟩ := hread.exists_item
    obtain ⟨-, rfl⟩ := (Element.reads_render hgaps.1 hstrings.1 _).value_unique hv
    rw [Element.skip_closing hgaps.1 hclosed.1] at hmore
    rcases hmore with ⟨hclose, -⟩ | ⟨next, values', hcomma, hread', -⟩
    · cases hclose
    · cases hcomma
      exact ih hclosed.2 hgaps.2 hstrings.2 values' hread'

/-- A list with a last comma is no array. -/
theorem not_reads (h : list.IsJson) (hclosed : ¬ list.EndsBare) (v : Json.Value)
    (rest : List Char) : ¬ Reads ('[' :: (list.inner ++ list.rest)) (.value v) rest := by
  intro hread
  obtain ⟨after, hrest⟩ := h.tiled.rest
  have hgaps := h.gaps
  have hstrings : ∀ e ∈ list.elements, IsJsonString e.raw :=
    fun e he => h.strings _ (List.mem_map_of_mem he)
  have hall : ∀ e ∈ list.elements, e.comma := by
    have hcomma := h.tiled.comma
    rw [EndsBare] at hclosed
    rcases List.eq_nil_or_concat list.elements with hnil | ⟨front, last, hlast⟩
    · simp [hnil]
    · rw [hlast, List.concat_eq_append] at hclosed hcomma ⊢
      rw [List.dropLast_concat] at hcomma
      refine List.forall_mem_append.2 ⟨hcomma, List.forall_mem_singleton.2 ?_⟩
      simpa using hclosed
  rw [inner, hrest, List.append_assoc] at hread
  have hopens : Opens (renderElements list.elements ++ (list.trail ++ ']' :: after)) := by
    cases helements : list.elements with
    | nil => exact absurd (by simp [EndsBare, helements]) hclosed
    | cons e elements =>
      rw [renderElements_cons, List.append_assoc]
      have hmem : e ∈ list.elements := by simp [helements]
      exact (Element.reads_render (hgaps.1 e hmem) (hstrings e hmem) _).opens
  obtain ⟨values, hvalues, -⟩ := hread.exists_items hopens
  exact not_reads_elements hall hgaps.1 hgaps.2 hstrings values rest hvalues

/-! ## The array of a document -/

/-- An element in front of all others. -/
theorem cons (h : list.IsJson) {e : Element} (hgaps : e.GapsIn (isSpace ·))
    (hstring : IsJsonString e.raw) (hbare : e.comma = false → e.tail = [] ∧ list.elements = []) :
    IsJson { list with elements := e :: list.elements } := by
  have htiled : e.Tiled := ⟨isGap_of_isSpace hgaps.1, hstring.isItem, isGap_of_isSpace hgaps.2,
    fun hcomma => (hbare hcomma).1⟩
  refine ⟨⟨List.forall_mem_cons.2 ⟨htiled, h.tiled.elements⟩, ?_, h.tiled.trail, h.tiled.rest⟩,
    List.forall_mem_cons.2 ⟨hstring, h.strings⟩, List.forall_mem_cons.2 ⟨hgaps, h.gaps.1⟩, h.gaps.2⟩
  have hcomma := h.tiled.comma
  cases helements : list.elements with
  | nil => simp
  | cons x elements =>
    rw [List.dropLast_cons_cons, List.forall_mem_cons]
    rw [helements] at hbare hcomma
    refine ⟨?_, hcomma⟩
    by_contra hopen
    cases (hbare (by simpa using hopen)).2

/-- The list without elements. -/
theorem nil (head after : List Char) {trail : List Char} (htrail : ∀ c ∈ trail, isSpace c) :
    IsJson { head, elements := [], trail, rest := ']' :: after } :=
  ⟨⟨by simp, by simp, isGap_of_isSpace htrail, after, rfl⟩, by simp [items], by simp, htrail⟩

/-- The list of the items of an array, if they are strings without escapes. -/
theorem exists_of_reads_items {values : List Json.Value}
    (hvalues : ∀ v ∈ values, ∃ inside, v = .string inside ∧ '\\' ∉ inside) {text after : List Char}
    (h : Reads text (.items values) after) (head : List Char) :
    ∃ list : ListText, list.head = head ∧ list.inner ++ list.rest = text ∧
      list.rest = ']' :: after ∧ list.IsJson ∧ list.EndsBare ∧
      list.items.map jsonItem = values := by
  induction values generalizing text with
  | nil =>
    obtain ⟨v, more, -, ⟨-, heq⟩ | ⟨next, items, -, -, heq⟩⟩ := h.exists_item <;> cases heq
  | cons v values ih =>
    rw [List.forall_mem_cons] at hvalues
    obtain ⟨⟨inside, rfl, hplain⟩, hvalues⟩ := hvalues
    obtain ⟨v, more, hv, hmore⟩ := h.exists_item
    have hvalue : v = .string inside := by
      rcases hmore with ⟨-, heq⟩ | ⟨next, items, -, -, heq⟩ <;> exact (List.cons.inj heq).1.symm
    subst hvalue
    obtain ⟨blanks, quoted, hblanks, rfl, hquoted⟩ := hv.exists_string
    obtain ⟨hstring, hitem⟩ := isJsonString_of_plain hquoted hplain
    obtain ⟨rfl, -⟩ := of_inside? hquoted
    obtain ⟨blanks', hblanks', hmoreeq⟩ := exists_blanks more
    rcases hmore with ⟨hclose, heq⟩ | ⟨next, values', hcomma, hread, heq⟩
    · cases heq
      rw [hclose] at hmoreeq
      have hcons := (nil head after hblanks').cons
        (e := ⟨blanks, '"' :: (inside ++ ['"']), [], false⟩) ⟨hblanks, by simp⟩ hstring (by simp)
      refine ⟨_, rfl, ?_, rfl, hcons, by simp [EndsBare], ?_⟩
      · simp [inner, Element.render, Element.closing, hmoreeq]
      · simp [items, hitem]
    · cases heq
      rw [hcomma] at hmoreeq
      obtain ⟨list, hhead, htext, hrest, hjson, hbare, hitems⟩ := ih hvalues hread
      have hcons := hjson.cons (e := ⟨blanks, '"' :: (inside ++ ['"']), blanks', true⟩)
        ⟨hblanks, hblanks'⟩ hstring (by simp)
      refine ⟨_, ?_, ?_, ?_, hcons, ?_, ?_⟩
      · exact hhead
      · simp [inner, Element.render, Element.closing, hmoreeq, ← htext]
      · exact hrest
      · have hne : list.elements ≠ [] := by
          intro hnil
          rw [items, hnil] at hitems
          obtain ⟨v, more, -, ⟨-, heq⟩ | ⟨next, items, -, -, heq⟩⟩ := hread.exists_item <;>
            simp [heq] at hitems
        obtain ⟨x, elements, helements⟩ := List.exists_cons_of_ne_nil hne
        rw [EndsBare, helements] at hbare
        rwa [EndsBare, helements, List.getLast?_cons_cons]
      · simp only [items, List.map_cons, hitem, List.cons.injEq, true_and]
        exact hitems

/-- The list that is read where an array of strings without escapes stands. -/
theorem of_reads {values : List Json.Value}
    (hvalues : ∀ v ∈ values, ∃ inside, v = .string inside ∧ '\\' ∉ inside) {after : List Char}
    (hlist : list.Tiled)
    (h : Reads ('[' :: (list.inner ++ list.rest)) (.value (.array values)) after) :
    list.IsJson ∧ list.EndsBare ∧ list.rest = ']' :: after ∧ list.items.map jsonItem = values := by
  obtain ⟨list', hhead, htext, hrest, hjson, hbare, hitems⟩ : ∃ list' : ListText,
      list'.head = list.head ∧ list'.inner ++ list'.rest = list.inner ++ list.rest ∧
      list'.rest = ']' :: after ∧ list'.IsJson ∧ list'.EndsBare ∧
      list'.items.map jsonItem = values := by
    cases h with
    | blank hc => cases hc
    | noItems hclose =>
      obtain ⟨blanks, hblanks, htext⟩ := exists_blanks (list.inner ++ list.rest)
      rw [hclose] at htext
      have hnil := nil list.head after hblanks
      refine ⟨_, ?_, ?_, ?_, hnil, ?_, ?_⟩
      · rfl
      · exact htext.symm
      · rfl
      · simp [EndsBare]
      · rfl
    | array hitems => exact exists_of_reads_items hvalues hitems list.head
  -- One text is not read as two lists.
  have hscan := hjson.tiled.scan
  rw [hhead, htext, hlist.scan] at hscan
  cases hscan
  exact ⟨hjson, hbare, hrest, hitems⟩

end IsJson

end ListText

end StubManager
