import StubManager.ListText.Anchor
import StubManager.Proofs.Offset.Editor

/-!
# The bracket at an offset

`findAnchor?_eq`: the search by offsets stops at no access, and finds the bracket of the list that
is found in the characters.
-/

namespace StubManager.Offset

open Text

/-! ## Signs among the bytes of a text -/

theorem ascii_mark (style : QuoteStyle) : style.mark.toNat < 128 := by
  cases style <;> decide

theorem head?_bytesOf_eq_iff {sought : Char} (h : sought.toNat < 128) (text : List Char) :
    (bytesOf text).head? = some (sign sought) ↔ text.head? = some sought := by
  cases text with
  | nil => exact iff_of_false nofun nofun
  | cons c text =>
    obtain ⟨b, more, hbytes⟩ := List.exists_cons_of_ne_nil (encode_ne_nil c)
    rw [bytesOf_cons, hbytes, List.cons_append, List.head?_cons, List.head?_cons,
      Option.some.injEq, Option.some.injEq]
    exact eq_sign_iff h (by simp [hbytes])

/-- The sign at an offset is the character there. -/
theorem getElem?_eq_sign_iff {sought : Char} (h : sought.toNat < 128)
    (before text : List Char) :
    (bytesOf (before ++ text))[byteLength before]? = some (sign sought)
      ↔ text.head? = some sought := by
  rw [bytesOf_append, getElem?_bytesOf_append, head?_bytesOf_eq_iff h]

/-! ## Lines -/

/-- The quote that a piece of a line is inside of. -/
def quoteOf : LineState → Option UInt8
  | .quoted style _ => some (sign style.mark)
  | _ => none

def isEscaped : LineState → Bool
  | .quoted _ escaped => escaped
  | _ => false

theorem endsInCode_high {quote : Option UInt8} (hquote : ∀ b ∈ quote, b.toNat < 128)
    {high : List UInt8} (hhigh : ∀ b ∈ high, 128 ≤ b.toNat) (bytes : List UInt8) :
    endsInCode quote false (high ++ bytes) = endsInCode quote false bytes := by
  induction high with
  | nil => rfl
  | cons b high ih =>
    rw [List.forall_mem_cons] at hhigh
    have hne : ∀ c : Char, c.toNat < 128 → b ≠ sign c := fun c => ne_sign_of_high hhigh.1
    cases quote with
    | none =>
      rw [List.cons_append, endsInCode,
        if_neg (not_or.2 ⟨hne '"' (by decide), hne '\'' (by decide)⟩), if_neg (hne '#' (by decide)),
        ih hhigh.2]
    | some quote =>
      have hb : b ≠ quote := by
        rintro rfl
        have := hquote b rfl
        omega
      rw [List.cons_append, endsInCode, if_neg (hne '\\' (by decide)), if_neg hb, ih hhigh.2]

theorem toNat_lt_of_mem_quoteOf {state : LineState} {b : UInt8} (h : b ∈ quoteOf state) :
    b.toNat < 128 := by
  cases state with
  | code | comment => cases h
  | quoted style escaped =>
    cases h
    cases style <;> decide

/-- A character outside of ASCII is part of what it stands in, and is what a backslash escapes. -/
theorem step_of_high {c : Char} (h : 128 ≤ c.toNat) {state : LineState}
    (hstate : state ≠ .comment) :
    state.step c ≠ .comment ∧ quoteOf (state.step c) = quoteOf state ∧
      isEscaped (state.step c) = false := by
  have hne : ∀ sought : Char, sought.toNat < 128 → c ≠ sought := by
    rintro _ hsought rfl
    omega
  cases state with
  | comment => exact absurd rfl hstate
  | code =>
    have hmark : QuoteStyle.ofMark? c = none := by
      rw [QuoteStyle.ofMark?, if_neg (hne '"' (by decide)), if_neg (hne '\'' (by decide))]
    simp [LineState.step, hmark, hne '#' (by decide), quoteOf, isEscaped]
  | quoted style escaped =>
    cases escaped with
    | true => simp [LineState.step, quoteOf, isEscaped]
    | false =>
      simp [LineState.step, hne '\\' (by decide), hne style.mark (ascii_mark style), quoteOf,
        isEscaped]

theorem foldl_step_comment (line : List Char) :
    line.foldl LineState.step .comment = .comment := by
  induction line with
  | nil => rfl
  | cons c line ih => rw [List.foldl_cons, LineState.step, ih]

/-- An ASCII character is one step of either reading. -/
theorem endsInCode_sign {c : Char} (hc : c.toNat < 128) {state : LineState}
    (h : state ≠ .comment) (bytes : List UInt8) :
    endsInCode (quoteOf state) (isEscaped state) (sign c :: bytes)
      = if state.step c = .comment then false
        else endsInCode (quoteOf (state.step c)) (isEscaped (state.step c)) bytes := by
  have hsign : ∀ {sought : Char}, sought.toNat < 128 → (sign c = sign sought ↔ c = sought) :=
    fun hsought => sign_eq_sign_iff hc hsought
  cases state with
  | comment => exact absurd rfl h
  | code =>
    by_cases hdouble : c = '"'
    · subst hdouble
      rfl
    by_cases hsingle : c = '\''
    · subst hsingle
      rfl
    have hmark : QuoteStyle.ofMark? c = none := by
      rw [QuoteStyle.ofMark?, if_neg hdouble, if_neg hsingle]
    have hquotes : ¬ (sign c = sign '"' ∨ sign c = sign '\'') := by
      rw [hsign (by decide), hsign (by decide)]
      exact not_or.2 ⟨hdouble, hsingle⟩
    have hstep : LineState.code.step c = if c = '#' then .comment else .code := by
      simp only [LineState.step, hmark]
    change endsInCode none false (sign c :: bytes) = _
    rw [endsInCode, if_neg hquotes, hstep]
    simp only [hsign (show '#'.toNat < 128 by decide)]
    split
    · rfl
    · rfl
  | quoted style escaped =>
    cases escaped with
    | true => rfl
    | false =>
      rw [quoteOf, isEscaped, endsInCode, LineState.step]
      simp only [hsign (show '\\'.toNat < 128 by decide), hsign (ascii_mark style)]
      split
      · rfl
      · split
        · rfl
        · rfl

/-- The bytes of a line end where its characters do. -/
theorem endsInCode_bytesOf (line : List Char) {state : LineState} (h : state ≠ .comment) :
    endsInCode (quoteOf state) (isEscaped state) (bytesOf line)
      = decide (line.foldl LineState.step state = .code) := by
  induction line generalizing state with
  | nil => cases state <;> simp_all [quoteOf, bytesOf_nil, endsInCode]
  | cons c line ih =>
    rw [bytesOf_cons, List.foldl_cons]
    by_cases hc : c.toNat < 128
    · rw [encode_of_ascii hc, List.singleton_append]
      rw [endsInCode_sign hc h]
      split
      · next hcomment =>
        rw [hcomment, foldl_step_comment]
        rfl
      · next hstep => exact ih hstep
    · have hhigh := fun b => high_of_mem_encode (b := b) (Nat.not_lt.1 hc)
      obtain ⟨hstep, hquote, hescaped⟩ := step_of_high (Nat.not_lt.1 hc) h
      rw [← ih hstep, hquote, hescaped]
      cases hstate : isEscaped state with
      | false => exact endsInCode_high (fun _ => toNat_lt_of_mem_quoteOf) hhigh _
      | true =>
        obtain ⟨b, more, hbytes⟩ := List.exists_cons_of_ne_nil (encode_ne_nil c)
        rw [hbytes] at hhigh ⊢
        rw [List.cons_append, endsInCode]
        exact endsInCode_high (fun _ => toNat_lt_of_mem_quoteOf)
          (fun b hb => hhigh b (List.mem_cons_of_mem _ hb)) _

theorem byteSlice?_eq (before inside behind : List Char) :
    byteSlice? (bytesOf (before ++ inside ++ behind)) (byteLength before)
      (byteLength before + byteLength inside) = some (bytesOf inside) := by
  rw [byteSlice?, if_pos ⟨Nat.le_add_right .., by simp⟩, List.append_assoc, bytesOf_append,
    drop_bytesOf_append, bytesOf_append, Nat.add_sub_cancel_left, ← length_bytesOf inside,
    List.take_left]

theorem inCode?_eq (before behind : List Char) :
    inCode? (before ++ behind) (byteLength before)
      = some (decide (LineState.atEnd before.reverse = .code)) := by
  have hline : byteLength before
      = byteLength (throughLastBreak before) + byteLength (lastLine before) := by
    rw [← byteLength_append, throughLastBreak_append_lastLine]
  have hbytes := byteSlice?_eq (throughLastBreak before) (lastLine before) behind
  rw [throughLastBreak_append_lastLine, ← hline] at hbytes
  rw [inCode?, lineStart?_eq rfl rfl]
  change (byteSlice? _ _ _).bind _ = _
  rw [hbytes]
  exact congrArg some 
    (endsInCode_bytesOf (lastLine before) (show LineState.code ≠ .comment from nofun))

/-! ## Assignments -/

/-- The offset of the bracket before a list that ends a text. -/
def bracketOf (text list : List Char) : Nat := byteLength text - byteLength list - 1

theorem bracketOf_append (before list : List Char) :
    bracketOf (before ++ '[' :: list) list = byteLength before := by
  rw [bracketOf, byteLength_append, byteLength_cons, show '['.utf8Size = 1 from rfl]
  omega

theorem isOneOf_iff {signs : List Char} (hsigns : ∀ c ∈ signs, c.toNat < 128) {c : Char}
    {b : UInt8} (hb : b ∈ String.utf8EncodeChar c) : isOneOf signs b ↔ c ∈ signs := by
  rw [isOneOf, List.any_eq_true]
  constructor
  · rintro ⟨c', hmem, heq⟩
    rwa [(eq_sign_iff (hsigns c' hmem) hb).1 (of_decide_eq_true heq)]
  · exact fun hmem => ⟨c, hmem, decide_eq_true ((eq_sign_iff (hsigns c hmem) hb).2 rfl)⟩

theorem isBlankByte_iff {c : Char} {b : UInt8} (hb : b ∈ String.utf8EncodeChar c) :
    isBlankByte b ↔ isSpaceOrTab c := by
  rw [isBlankByte, isOneOf_iff (by simp) hb]
  simp [isSpaceOrTab]

theorem isWhiteByte_iff {c : Char} {b : UInt8} (hb : b ∈ String.utf8EncodeChar c) :
    isWhiteByte b ↔ isListBlank c := by
  rw [isWhiteByte, isOneOf_iff (by simp) hb]
  simp [isListBlank, or_assoc]

/-- The text behind a bracket that comes after white space. -/
def bracketed? (value : List Char) : Option (List Char) :=
  match value.dropWhile isListBlank with
  | '[' :: list => some list
  | _ => none

theorem bracketed?_eq (before value : List Char) :
    (if (bytesOf (before ++ value))[skipWhile isWhiteByte (bytesOf (before ++ value))
          (byteLength before)]? = some (sign '[') then
        some (skipWhile isWhiteByte (bytesOf (before ++ value)) (byteLength before))
      else none) = (bracketed? value).map (bracketOf (before ++ value)) := by
  obtain ⟨rest, hrest⟩ : ∃ rest, value.dropWhile isListBlank = rest := ⟨_, rfl⟩
  have hsplit : before ++ value = (before ++ value.takeWhile isListBlank) ++ rest := by
    rw [← hrest, List.append_assoc, List.takeWhile_append_dropWhile]
  rw [skipWhile_eq isWhiteByte_iff, bracketed?, hrest, hsplit]
  generalize before ++ value.takeWhile isListBlank = before
  simp only [getElem?_eq_sign_iff (show '['.toNat < 128 by decide)]
  split
  · next hhead =>
    obtain ⟨list, rfl⟩ := List.head?_eq_some_iff.1 hhead
    exact congrArg some (bracketOf_append before list).symm
  · next hhead =>
    split
    · exact absurd rfl hhead
    · rfl

/-- A list is assigned by a colon or a single equals sign. -/
theorem assignedList?_of_dropWhile {text value : List Char} {c : Char}
    (h : text.dropWhile isSpaceOrTab = c :: value) :
    assignedList? text
      = if c = '=' ∧ value.head? ≠ some '=' then bracketed? value
        else if c = ':' then bracketed? value else none := by
  -- Behind a colon the two searches are the same, and a single equals sign does as well.
  have hbracketed : ∀ value : List Char, bracketed? value = assignedList? (':' :: value) := by
    intro value
    have hsign : (':' :: value).dropWhile isSpaceOrTab = ':' :: value := rfl
    rw [bracketed?, assignedList?, hsign]
    split
    · next heq => simp only [Option.map_some, heq]
    · next hne =>
      split
      · next heq => exact absurd (Option.some.inj heq) (hne _)
      · rfl
  rw [hbracketed, assignedList?, assignedList?, h]
  by_cases hequals : c = '='
  · subst hequals
    cases value with
    | nil => rfl
    | cons c value =>
      by_cases hc : c = '='
      · subst hc
        rfl
      · rw [if_pos ⟨rfl, fun heq => hc (Option.some.inj heq)⟩]
        simp [hc]
        rfl
  · by_cases hcolon : c = ':'
    · subst hcolon
      rfl
    · simp [hequals, hcolon]

/-- A list is assigned at an offset if it is at the front of the text behind. -/
theorem assignedAt?_eq (before text : List Char) :
    assignedAt? (bytesOf (before ++ text)) (byteLength before)
      = (assignedList? text).map (bracketOf (before ++ text)) := by
  obtain ⟨rest, hrest⟩ : ∃ rest, text.dropWhile isSpaceOrTab = rest := ⟨_, rfl⟩
  have hsplit : before ++ text = (before ++ text.takeWhile isSpaceOrTab) ++ rest := by
    rw [← hrest, List.append_assoc, List.takeWhile_append_dropWhile]
  rw [assignedAt?, skipWhile_eq isBlankByte_iff, hsplit]
  generalize before ++ text.takeWhile isSpaceOrTab = before
  simp only [getElem?_eq_sign_iff (show '='.toNat < 128 by decide),
    getElem?_eq_sign_iff (show ':'.toNat < 128 by decide)]
  cases rest with
  | nil =>
    rw [assignedList?, hrest]
    rfl
  | cons c value =>
    rw [assignedList?_of_dropWhile hrest]
    by_cases hc : c.toNat < 128
    · -- What stands behind the sign stands at the next offset, for signs are single bytes.
      have htext : before ++ c :: value = (before ++ [c]) ++ value := by
        rw [List.append_assoc, List.singleton_append]
      have hlength : byteLength before + 1 = byteLength (before ++ [c]) := by
        rw [← length_bytesOf (before ++ [c]), bytesOf_append, bytesOf_cons, encode_of_ascii hc,
          List.length_append, length_bytesOf]
        rfl
      rw [htext, hlength]
      have hbyte := getElem?_eq_sign_iff (show '='.toNat < 128 by decide) (before ++ [c]) value
      simp only [List.head?_cons, Option.some.injEq]
      by_cases hequals : c = '=' ∧ value.head? ≠ some '='
      · rw [if_pos hequals, if_pos ⟨hequals.1, mt hbyte.1 hequals.2⟩]
        exact bracketed?_eq (before ++ [c]) value
      · rw [if_neg hequals, if_neg fun h => hequals ⟨h.1, mt hbyte.2 h.2⟩]
        by_cases hcolon : c = ':'
        · rw [if_pos hcolon, if_pos hcolon]
          exact bracketed?_eq (before ++ [c]) value
        · rw [if_neg hcolon, if_neg hcolon]
          rfl
    · have hne : ∀ sought : Char, sought.toNat < 128 → c ≠ sought := by
        rintro _ hsought rfl
        exact hc hsought
      simp only [List.head?_cons, Option.some.injEq, hne '=' (by decide), hne ':' (by decide),
        false_and, ↓reduceIte]
      rfl

/-! ## The anchor -/

/-- An anchor without a quote in front. -/
theorem bare_eq (before anchor after : List Char) :
    ((inCode? (before ++ (anchor ++ after)) (byteLength before)).bind fun code =>
      if !code then some none
      else if after.head?.any isNameChar then some none
      else some (assignedAt? (bytesOf (before ++ (anchor ++ after)))
        (byteLength before + byteLength anchor)))
      = some ((listOfAnchor?.bare before.reverse after).map
          (bracketOf (before ++ (anchor ++ after)))) := by
  rw [inCode?_eq, listOfAnchor?.bare, Option.bind_some]
  by_cases hcode : LineState.atEnd before.reverse = .code
  · by_cases hname : after.head?.any isNameChar
    · simp [hcode, hname]
    · have hassigned := assignedAt?_eq (before ++ anchor) after
      rw [List.append_assoc, byteLength_append] at hassigned
      rw [hassigned]
      simp [hcode, hname]
  · simp [hcode]

/-- An anchor with a quote in front. -/
theorem quoted_eq (front anchor after : List Char) {quote : Char}
    (h : QuoteStyle.ofMark? quote ≠ none) :
    ((inCode? (front ++ [quote] ++ (anchor ++ after)) (byteLength front)).bind fun code =>
      if !code then some none
      else if after.head? ≠ some quote then some none
      else some (assignedAt? (bytesOf (front ++ [quote] ++ (anchor ++ after)))
        (byteLength (front ++ [quote]) + byteLength anchor + quote.utf8Size)))
      = some ((match after with
          | c' :: after =>
            if c' = quote ∧ LineState.atEnd front.reverse = LineState.code then assignedList? after
            else none
          | [] => none).map (bracketOf (front ++ [quote] ++ (anchor ++ after)))) := by
  have hline := inCode?_eq front ([quote] ++ (anchor ++ after))
  rw [← List.append_assoc] at hline
  rw [hline, Option.bind_some]
  cases after with
  | nil => simp
  | cons c after =>
    by_cases hcode : LineState.atEnd front.reverse = .code
    · by_cases hc : c = quote
      · subst hc
        have hassigned := assignedAt?_eq (front ++ [c] ++ anchor ++ [c]) after
        have htext : front ++ [c] ++ anchor ++ [c] ++ after
            = front ++ [c] ++ (anchor ++ c :: after) := by simp
        have hlength : byteLength (front ++ [c] ++ anchor ++ [c])
            = byteLength (front ++ [c]) + byteLength anchor + c.utf8Size := by
          rw [byteLength_append, byteLength_append _ anchor]
          rfl
        rw [htext, hlength] at hassigned
        rw [hassigned]
        simp [hcode]
      · simp [hcode, hc]
    · simp [hcode]

/-- An occurrence of the anchor names the same list. -/
theorem listAt?_eq (before anchor after : List Char) :
    listAt? (before ++ (anchor ++ after)) anchor (byteLength before)
      = some ((listOfAnchor? anchor before.reverse (anchor ++ after)).map
          (bracketOf (before ++ (anchor ++ after)))) := by
  have hbehind : sliceFrom? (before ++ (anchor ++ after)) (byteLength before + byteLength anchor)
      = some after :=
    sliceFrom?_eq (List.append_assoc ..).symm (byteLength_append ..).symm
  have hbare := bare_eq before anchor after
  unfold listAt? listOfAnchor?
  rw [sliceTo?_eq rfl rfl, List.drop_left]
  simp only [hbehind]
  obtain rfl | ⟨front, c, rfl⟩ := List.eq_nil_or_concat before
  · exact hbare
  · rw [List.concat_eq_append] at *
    have hlast : (front ++ [c]).getLast? = some c := List.getLast?_concat ..
    have hreverse : (front ++ [c]).reverse = c :: front.reverse := by simp
    rw [hreverse] at hbare ⊢
    cases hmark : QuoteStyle.ofMark? c with
    | none =>
      have hquote : ((some c).bind fun c => (QuoteStyle.ofMark? c).map fun _ => c) = none := by
        rw [Option.bind_some, hmark]
        rfl
      by_cases hname : isNameChar c
      · simp only [hlast, hquote, hmark, Option.bind_eq_bind, Option.bind_some, Option.any_some,
          hname, Option.isNone_none, and_self, ↓reduceIte]
        rfl
      · simp only [hlast, hquote, hmark, Option.bind_eq_bind, Option.bind_some, Option.elim_none,
          Option.any_some, hname, Bool.false_eq_true, and_false, ↓reduceIte, sub?_zero]
        exact hbare
    | some style =>
      have hquote : ((some c).bind fun c => (QuoteStyle.ofMark? c).map fun _ => c) = some c := by
        rw [Option.bind_some, hmark]
        rfl
      have hstart : sub? (byteLength (front ++ [c])) c.utf8Size = some (byteLength front) := by
        rw [byteLength_append]
        exact sub?_add ..
      simp only [hlast, hquote, hmark, hstart, Option.bind_eq_bind, Option.bind_some,
        Option.elim_some, Option.isNone_some, false_and, ↓reduceIte, Bool.false_eq_true]
      exact quoted_eq front anchor after (hmark ▸ Option.some_ne_none style)

/-- The search goes from one occurrence to the next. -/
theorem firstListAt?_eq (anchor before text : List Char) (skip : Nat) :
    firstListAt? (before ++ text) anchor (occurrences anchor (byteLength before) skip text)
      = some ((anchoredListFrom? anchor before.reverse skip text).map
          (bracketOf (before ++ text))) := by
  induction text generalizing before skip with
  | nil => cases skip <;> rfl
  | cons c text ih =>
    have htext : before ++ c :: text = (before ++ [c]) ++ text := by simp
    have hlength : byteLength before + c.utf8Size = byteLength (before ++ [c]) := by simp
    have hreverse : c :: before.reverse = (before ++ [c]).reverse := by simp
    cases skip with
    | succ skip =>
      rw [occurrences, anchoredListFrom?, htext, hlength, hreverse]
      exact ih (before ++ [c]) skip
    | zero =>
      rw [occurrences, anchoredListFrom?]
      split
      · next hprefix =>
        obtain ⟨after, hafter⟩ := List.isPrefixOf_iff_prefix.1 hprefix
        rw [firstListAt?, ← hafter, listAt?_eq, hafter]
        cases hlist : listOfAnchor? anchor before.reverse (c :: text) with
        | some list => rfl
        | none =>
          rw [htext, hlength, hreverse]
          exact ih (before ++ [c]) (anchor.length - 1)
      · rw [htext, hlength, hreverse]
        exact ih (before ++ [c]) 0

/-- The bracket that is found by offsets is the one before the list that the anchor names. -/
theorem findAnchor?_eq (text anchor : List Char) :
    findAnchor? text anchor = some ((anchoredList? anchor text).map (bracketOf text)) := by
  rw [findAnchor?, anchoredList?]
  split
  · rfl
  · exact firstListAt?_eq anchor [] text 0

end StubManager.Offset
