import Mathlib.Data.List.TakeWhile
import StubManager.Json.Value

/-!
# The grammar of JSON documents

`Json.Reads` says which values, items and members a text starts with. The parser reads exactly these
(`sound`, `Reads.parses`), so a text starts with one value at most, and what is read
depends on nothing behind it but on the next character (`Reads.exists_front`).
-/

namespace StubManager.Json

/-! ## White space -/

theorem skip_append {blanks : List Char} (h : ∀ c ∈ blanks, isSpace c) (text : List Char) :
    skip (blanks ++ text) = skip text := List.dropWhile_append_of_pos h

theorem skip_cons_of_not {c : Char} (h : isSpace c = false) (text : List Char) :
    skip (c :: text) = c :: text := List.dropWhile_cons_of_neg (by simp [h])

theorem skip_cons {c : Char} (h : isSpace c) (text : List Char) : skip (c :: text) = skip text :=
  List.dropWhile_cons_of_pos h

theorem skip_skip (text : List Char) : skip (skip text) = skip text := by
  induction text with
  | nil => rfl
  | cons c text ih =>
    cases hc : isSpace c with
    | true => rw [skip_cons hc, ih]
    | false => rw [skip_cons_of_not hc, skip_cons_of_not hc]

/-- The white space that a text starts with. -/
theorem exists_blanks (text : List Char) :
    ∃ blanks, (∀ c ∈ blanks, isSpace c) ∧ text = blanks ++ skip text :=
  ⟨text.takeWhile isSpace, fun _ h => List.mem_takeWhile_imp h,
    (List.takeWhile_append_dropWhile).symm⟩

/-- Behind a character that white space may come before there is less. -/
theorem length_lt_of_skip {c : Char} {text rest : List Char} (h : skip text = c :: rest) :
    rest.length < text.length := by
  have hle : (skip text).length ≤ text.length := (List.dropWhile_sublist _).length_le
  rw [h, List.length_cons] at hle
  exact hle

/-! ## Strings -/

/-- A character that stands for itself. -/
theorem inside?_cons {c : Char} (hquote : c ≠ '"') (hslash : c ≠ '\\') (hplain : 0x20 ≤ c.toNat)
    (text : List Char) :
    inside? (c :: text) = (inside? text).map fun (inside, after) => (c :: inside, after) := by
  have hnot : ¬ (c = '\\' ∨ c.toNat < 0x20) := by
    rw [not_or, Nat.not_lt]
    exact ⟨hslash, hplain⟩
  rw [inside?, if_neg hnot]
  · exact hquote
  · exact fun _ _ _ _ _ heq => absurd heq hslash
  · exact fun _ _ heq => absurd heq hslash

theorem of_inside?_cons {c : Char} {text inside rest : List Char} (hslash : c ≠ '\\')
    (h : inside? (c :: text) = some (c :: inside, rest)) :
    c ≠ '"' ∧ 0x20 ≤ c.toNat ∧ inside? text = some (inside, rest) := by
  have hquote : c ≠ '"' := by
    rintro rfl
    cases h
  have hlow : 0x20 ≤ c.toNat := by
    by_contra hlow
    rw [inside?, if_pos (.inr (Nat.not_le.1 hlow))] at h
    · cases h
    · exact hquote
    · exact fun _ _ _ _ _ heq => absurd heq hslash
    · exact fun _ _ heq => absurd heq hslash
  rw [inside?_cons hquote hslash hlow] at h
  obtain ⟨⟨inside', rest'⟩, hread, heq⟩ := Option.map_eq_some_iff.1 h
  cases heq
  exact ⟨hquote, hlow, hread⟩

/-- A string ends with its closing quote, whatever follows. -/
theorem of_inside? {text inside rest : List Char} (h : inside? text = some (inside, rest)) :
    text = inside ++ '"' :: rest ∧
      ∀ rest', inside? (inside ++ '"' :: rest') = some (inside, rest') := by
  fun_induction inside? text generalizing inside rest with
  | case1 => cases h
  | case2 rest' =>
    cases h
    exact ⟨rfl, fun _ => rfl⟩
  | case3 a b c d text hhex ih =>
    obtain ⟨⟨inside', rest'⟩, hrest, heq⟩ := Option.map_eq_some_iff.1 h
    cases heq
    obtain ⟨htext, hread⟩ := ih hrest
    refine ⟨by rw [htext]; rfl, fun rest'' => ?_⟩
    simp [inside?, hhex, hread rest'']
  | case4 a b c d text hhex => cases h
  | case5 c text hno hescaped ih =>
    obtain ⟨⟨inside', rest'⟩, hrest, heq⟩ := Option.map_eq_some_iff.1 h
    cases heq
    obtain ⟨htext, hread⟩ := ih hrest
    have hc : c ≠ 'u' := by
      rintro rfl
      exact absurd hescaped (by decide)
    refine ⟨by rw [htext]; rfl, fun rest'' => ?_⟩
    rw [List.cons_append, List.cons_append, inside?, if_pos hescaped, hread rest'']
    · rfl
    · rintro a b c d rest heq -
      exact absurd heq hc
  | case6 c text hno hescaped => cases h
  | case7 c text => cases h
  | case8 c text hquote hunicode hescape hplain ih =>
    obtain ⟨⟨inside', rest'⟩, hrest, heq⟩ := Option.map_eq_some_iff.1 h
    cases heq
    obtain ⟨htext, hread⟩ := ih hrest
    refine ⟨by rw [htext]; rfl, fun rest'' => ?_⟩
    rw [not_or, Nat.not_lt] at hplain
    rw [List.cons_append, inside?_cons hquote hplain.1 hplain.2, hread rest'']
    rfl

/-! ## Numbers -/

/-- Whether a part of a number that is read is the front of the text, and depends on nothing behind
it but on the next character. -/
def Local (read : List Char → Option (List Char × List Char)) : Prop :=
  ∀ {text front rest}, read text = some (front, rest) → text = front ++ rest ∧
    ∀ rest', rest'.head? = rest.head? → read (front ++ rest') = some (front, rest')

theorem local_digits? : Local digits? := by
  intro text digits rest h
  rw [digits?] at h
  split at h
  · cases h
  · next hne =>
    cases h
    refine ⟨(List.takeWhile_append_dropWhile).symm, fun rest' hhead => ?_⟩
    have hdigits : ∀ c ∈ text.takeWhile Char.isDigit, c.isDigit := fun _ => List.mem_takeWhile_imp
    have hstop : rest'.takeWhile Char.isDigit = [] ∧ rest'.dropWhile Char.isDigit = rest' := by
      have hnot := List.head?_dropWhile_not Char.isDigit text
      rw [← hhead] at hnot
      cases rest' with
      | nil => exact ⟨rfl, rfl⟩
      | cons c rest' =>
        have hc : c.isDigit = false := by simpa using hnot
        exact ⟨List.takeWhile_cons_of_neg (by simp [hc]), List.dropWhile_cons_of_neg (by simp [hc])⟩
    rw [digits?, List.takeWhile_append_of_pos hdigits, List.dropWhile_append_of_pos hdigits,
      hstop.1, hstop.2, List.append_nil]
    exact if_neg hne

theorem local_whole? : Local whole? := by
  intro text whole rest h
  rw [whole?, Option.bind_eq_bind, Option.bind_eq_some_iff] at h
  obtain ⟨⟨digits, rest₁⟩, hdigits, h⟩ := h
  obtain ⟨htext, hread⟩ := local_digits? hdigits
  dsimp only at h
  split at h
  · cases h
  · next hzero =>
    cases h
    refine ⟨htext, fun rest' hhead => ?_⟩
    rw [whole?, hread rest' hhead, Option.bind_eq_bind, Option.bind_some]
    dsimp only
    split
    · next heq => exact absurd rfl (hzero _ _)
    · rfl

theorem local_fraction? : Local fraction? := by
  intro text fraction rest h
  rw [fraction?.eq_def] at h
  split at h
  · next text =>
    rw [Option.bind_eq_bind, Option.bind_eq_some_iff] at h
    obtain ⟨⟨digits, rest₁⟩, hdigits, h⟩ := h
    obtain ⟨htext, hread⟩ := local_digits? hdigits
    cases h
    refine ⟨by rw [htext]; rfl, fun rest' hhead => ?_⟩
    rw [List.cons_append, fraction?, hread rest' hhead]
    rfl
  · next hpoint =>
    cases h
    refine ⟨rfl, fun rest' hhead => ?_⟩
    cases rest' with
    | nil => rfl
    | cons c rest' =>
      have hc : c ≠ '.' := by
        rintro rfl
        cases text with
        | nil => cases hhead
        | cons c' text =>
          cases hhead
          exact hpoint text rfl
      rw [List.nil_append, fraction?.eq_def]
      split
      · next heq => exact absurd (List.cons.inj heq).1 hc
      · rfl

theorem exponent?_of_not {c : Char} (h : ¬ (c = 'e' ∨ c = 'E')) (text : List Char) :
    exponent? (c :: text) = some ([], c :: text) := by
  cases text with
  | nil => exact if_neg h
  | cons c' text => exact if_neg h

theorem local_exponent? : Local exponent? := by
  intro text exponent rest h
  cases text with
  | nil =>
    cases h
    refine ⟨rfl, fun rest' hhead => ?_⟩
    cases rest' with
    | nil => rfl
    | cons c rest' => cases hhead
  | cons e text =>
    by_cases he : e = 'e' ∨ e = 'E'
    · cases text with
      | nil =>
        rw [exponent?, if_pos he] at h
        cases h
      | cons sign text =>
        rw [exponent?, if_pos he] at h
        split at h
        · next hsign =>
          obtain ⟨⟨digits, rest₁⟩, hdigits, heq⟩ := Option.map_eq_some_iff.1 h
          cases heq
          obtain ⟨htext, hread⟩ := local_digits? hdigits
          refine ⟨by rw [htext]; rfl, fun rest' hhead => ?_⟩
          rw [List.cons_append, List.cons_append, exponent?, if_pos he, if_pos hsign,
            hread rest' hhead]
          rfl
        · next hsign =>
          obtain ⟨⟨digits, rest₁⟩, hdigits, heq⟩ := Option.map_eq_some_iff.1 h
          cases heq
          obtain ⟨htext, hread⟩ := local_digits? hdigits
          refine ⟨by rw [htext]; rfl, fun rest' hhead => ?_⟩
          cases digits with
          | nil => exact absurd hdigits (by rw [digits?]; split <;> simp_all)
          | cons digit digits =>
            obtain ⟨rfl, -⟩ := List.cons.inj htext
            have hread' := hread rest' hhead
            rw [List.cons_append] at hread'
            rw [List.cons_append, List.cons_append, exponent?, if_pos he, if_neg hsign, hread']
            rfl
    · rw [exponent?_of_not he] at h
      cases h
      refine ⟨rfl, fun rest' hhead => ?_⟩
      cases rest' with
      | nil => cases hhead
      | cons c rest' =>
        cases hhead
        exact exponent?_of_not he rest'

/-- The part of a number behind its sign. -/
def unsigned? (text : List Char) : Option (List Char × List Char) := do
  let (whole, rest) ← whole? text
  let (fraction, rest) ← fraction? rest
  let (exponent, rest) ← exponent? rest
  return (whole ++ fraction ++ exponent, rest)

theorem unsigned?_eq_some_iff {text number rest : List Char} :
    unsigned? text = some (number, rest) ↔
      ∃ whole rest₁ fraction rest₂ exponent, whole? text = some (whole, rest₁) ∧
        fraction? rest₁ = some (fraction, rest₂) ∧ exponent? rest₂ = some (exponent, rest) ∧
        number = whole ++ fraction ++ exponent := by
  simp only [unsigned?, Option.bind_eq_bind, Option.bind_eq_some_iff, Prod.exists]
  constructor
  · rintro ⟨whole, rest₁, hwhole, fraction, rest₂, hfraction, exponent, rest₃, hexponent, h⟩
    cases h
    exact ⟨whole, rest₁, fraction, rest₂, exponent, hwhole, hfraction, hexponent, rfl⟩
  · rintro ⟨whole, rest₁, fraction, rest₂, exponent, hwhole, hfraction, hexponent, rfl⟩
    exact ⟨whole, rest₁, hwhole, fraction, rest₂, hfraction, exponent, rest, hexponent, rfl⟩

theorem local_unsigned? : Local unsigned? := by
  intro text number rest h
  obtain ⟨whole, rest₁, fraction, rest₂, exponent, hwhole, hfraction, hexponent, rfl⟩ :=
    unsigned?_eq_some_iff.1 h
  obtain ⟨rfl, hwhole'⟩ := local_whole? hwhole
  obtain ⟨rfl, hfraction'⟩ := local_fraction? hfraction
  obtain ⟨rfl, hexponent'⟩ := local_exponent? hexponent
  refine ⟨by simp, fun rest' hhead => unsigned?_eq_some_iff.2
    ⟨whole, fraction ++ (exponent ++ rest'), fraction, exponent ++ rest', exponent, ?_,
      hfraction' _ ?_, hexponent' rest' hhead, rfl⟩⟩
  · rw [List.append_assoc, List.append_assoc]
    refine hwhole' _ ?_
    simp only [List.head?_append, hhead]
  · simp only [List.head?_append, hhead]

theorem number?_minus (text : List Char) :
    number? ('-' :: text) = (unsigned? text).map fun (number, rest) => ('-' :: number, rest) := by
  rw [number?, unsigned?]
  rcases whole? text with _ | ⟨whole, rest⟩
  · rfl
  rcases hfraction : fraction? rest with _ | ⟨fraction, rest₁⟩
  · simp [hfraction]
  rcases hexponent : exponent? rest₁ with _ | ⟨exponent, rest₂⟩
  · simp [hfraction, hexponent]
  · simp [hfraction, hexponent]

theorem number?_of_ne {text : List Char} (h : text.head? ≠ some '-') :
    number? text = unsigned? text := by
  have hsign : ∀ rest, text ≠ '-' :: rest := fun rest heq => h (heq ▸ rfl)
  rw [number?, unsigned?]
  · rfl
  · exact hsign

theorem number?_eq_none {c : Char} (hminus : c ≠ '-') (hdigit : c.isDigit = false)
    (text : List Char) : number? (c :: text) = none := by
  have hdigits : digits? (c :: text) = none := by
    rw [digits?, List.takeWhile_cons_of_neg (by simp [hdigit])]
    rfl
  rw [number?_of_ne (by simpa using hminus), unsigned?, whole?, hdigits]
  rfl

theorem exists_digit_of_unsigned? {text number rest : List Char}
    (h : unsigned? text = some (number, rest)) :
    ∃ c more, number = c :: more ∧ c.isDigit := by
  obtain ⟨whole, rest₁, fraction, rest₂, exponent, hwhole, -, -, rfl⟩ :=
    unsigned?_eq_some_iff.1 h
  have hdigits : digits? text = some (whole, rest₁) := by
    rw [whole?, Option.bind_eq_bind, Option.bind_eq_some_iff] at hwhole
    obtain ⟨⟨digits, rest₃⟩, hdigits, hwhole⟩ := hwhole
    dsimp only at hwhole
    split at hwhole
    · cases hwhole
    · cases hwhole
      exact hdigits
  rw [digits?] at hdigits
  split at hdigits
  · cases hdigits
  · next hne =>
    cases hdigits
    cases hfront : text.takeWhile Char.isDigit with
    | nil => simp [hfront] at hne
    | cons c more =>
      have hc : c ∈ text.takeWhile Char.isDigit := by simp [hfront]
      exact ⟨c, _, rfl, List.mem_takeWhile_imp hc⟩

/-- A number starts with its sign or a digit, and so like nothing else in a document. -/
theorem exists_head_of_number? {text number rest : List Char}
    (h : number? text = some (number, rest)) :
    ∃ c more, number = c :: more ∧ isSpace c = false ∧
      c ∉ ['"', '[', ']', '\x7b', '\x7d', 'n', 't', 'f'] := by
  have hstart : ∀ c, c = '-' ∨ c.isDigit → isSpace c = false ∧
      c ∉ ['"', '[', ']', '\x7b', '\x7d', 'n', 't', 'f'] := by
    intro c hc
    have hnot : c ∉ [' ', '\n', '\t', '\x0d', '"', '[', ']', '\x7b', '\x7d', 'n', 't', 'f'] := by
      intro hmem
      have hall : [' ', '\n', '\t', '\x0d', '"', '[', ']', '\x7b', '\x7d', 'n', 't', 'f'].all
          fun c => !(c = '-' || c.isDigit) := by decide
      have hnot := List.all_eq_true.1 hall c hmem
      rw [Bool.not_eq_true', Bool.or_eq_false_iff, decide_eq_false_iff_not] at hnot
      exact hc.elim hnot.1 (by simp [hnot.2])
    simp only [List.mem_cons, not_or] at hnot ⊢
    exact ⟨by simp [isSpace, hnot], hnot.2.2.2.2⟩
  by_cases hsign : text.head? = some '-'
  · obtain ⟨text, rfl⟩ : ∃ more, text = '-' :: more := List.head?_eq_some_iff.1 hsign
    rw [number?_minus] at h
    obtain ⟨⟨number', rest'⟩, -, heq⟩ := Option.map_eq_some_iff.1 h
    cases heq
    exact ⟨'-', number', rfl, hstart '-' (.inl rfl)⟩
  · rw [number?_of_ne hsign] at h
    obtain ⟨c, more, hnumber, hc⟩ := exists_digit_of_unsigned? h
    exact ⟨c, more, hnumber, hstart c (.inr hc)⟩

theorem local_number? : Local number? := by
  intro text number rest h
  by_cases hsign : text.head? = some '-'
  · obtain ⟨text, rfl⟩ : ∃ more, text = '-' :: more := List.head?_eq_some_iff.1 hsign
    rw [number?_minus] at h
    obtain ⟨⟨number', rest'⟩, hunsigned, heq⟩ := Option.map_eq_some_iff.1 h
    cases heq
    obtain ⟨htext, hread⟩ := local_unsigned? hunsigned
    refine ⟨by rw [htext]; rfl, fun rest' hhead => ?_⟩
    rw [List.cons_append, number?_minus, hread rest' hhead]
    rfl
  · rw [number?_of_ne hsign] at h
    obtain ⟨htext, hread⟩ := local_unsigned? h
    refine ⟨htext, fun rest' hhead => ?_⟩
    have hsign' : (number ++ rest').head? ≠ some '-' := by
      rwa [List.head?_append, hhead, ← List.head?_append, ← htext]
    rw [number?_of_ne hsign', hread rest' hhead]

/-! ## Values -/

/-- What a text can start with. -/
inductive Part where
  | value (v : Value)
  /-- Items up to the bracket that closes their array. -/
  | items (items : List Value)
  | member (key : List Char) (v : Value)
  /-- Members up to the brace that closes their object. -/
  | members (members : List (List Char × Value))

/-- Whether a text starts with a part of a document, and what is behind it. -/
inductive Reads : List Char → Part → List Char → Prop where
  | blank {c : Char} {text rest : List Char} {part : Part} (hc : isSpace c)
    (h : Reads text part rest) : Reads (c :: text) part rest
  | null {rest : List Char} : Reads ('n' :: 'u' :: 'l' :: 'l' :: rest) (.value .null) rest
  | true {rest : List Char} : Reads ('t' :: 'r' :: 'u' :: 'e' :: rest) (.value (.bool true)) rest
  | false {rest : List Char} :
    Reads ('f' :: 'a' :: 'l' :: 's' :: 'e' :: rest) (.value (.bool false)) rest
  | number {text number rest : List Char} (h : number? text = some (number, rest)) :
    Reads text (.value (.number number)) rest
  | string {text inside rest : List Char} (h : inside? text = some (inside, rest)) :
    Reads ('"' :: text) (.value (.string inside)) rest
  | noItems {text rest : List Char} (h : skip text = ']' :: rest) :
    Reads ('[' :: text) (.value (.array [])) rest
  | array {text rest : List Char} {items : List Value} (h : Reads text (.items items) rest) :
    Reads ('[' :: text) (.value (.array items)) rest
  | noMembers {text rest : List Char} (h : skip text = '\x7d' :: rest) :
    Reads ('\x7b' :: text) (.value (.object [])) rest
  | object {text rest : List Char} {members : List (List Char × Value)}
    (h : Reads text (.members members) rest) :
    Reads ('\x7b' :: text) (.value (.object members)) rest
  | lastItem {text more rest : List Char} {v : Value} (h : Reads text (.value v) more)
    (hclose : skip more = ']' :: rest) : Reads text (.items [v]) rest
  | item {text more next rest : List Char} {v : Value} {items : List Value}
    (h : Reads text (.value v) more) (hcomma : skip more = ',' :: next)
    (hitems : Reads next (.items items) rest) : Reads text (.items (v :: items)) rest
  | member {text key more next rest : List Char} {v : Value}
    (hkey : inside? text = some (key, more)) (hcolon : skip more = ':' :: next)
    (h : Reads next (.value v) rest) : Reads ('"' :: text) (.member key v) rest
  | lastMember {text key more rest : List Char} {v : Value}
    (h : Reads text (.member key v) more) (hclose : skip more = '\x7d' :: rest) :
    Reads text (.members [(key, v)]) rest
  | members {text key more next rest : List Char} {v : Value}
    {members : List (List Char × Value)} (h : Reads text (.member key v) more)
    (hcomma : skip more = ',' :: next) (hmembers : Reads next (.members members) rest) :
    Reads text (.members ((key, v) :: members)) rest

theorem Reads.of_blanks {blanks text rest : List Char} {part : Part}
    (hblanks : ∀ c ∈ blanks, isSpace c) (h : Reads text part rest) :
    Reads (blanks ++ text) part rest := by
  induction blanks with
  | nil => exact h
  | cons c blanks ih =>
    rw [List.forall_mem_cons] at hblanks
    exact .blank hblanks.1 (ih hblanks.2)

theorem Reads.of_skip {text rest : List Char} {part : Part} (h : Reads (skip text) part rest) :
    Reads text part rest := by
  obtain ⟨blanks, hblanks, htext⟩ := exists_blanks text
  rw [htext]
  exact h.of_blanks hblanks

theorem length_lt_of_key {text key more next : List Char} (hkey : inside? text = some (key, more))
    (hcolon : skip more = ':' :: next) : next.length < ('"' :: text).length := by
  have hnext := length_lt_of_skip hcolon
  rw [(of_inside? hkey).1]
  simp only [List.length_cons, List.length_append]
  omega

/-- What is behind a part is shorter than the text. -/
theorem Reads.length_lt {text rest : List Char} {part : Part} (h : Reads text part rest) :
    rest.length < text.length := by
  induction h with
  | blank hc h ih => exact ih.trans (Nat.lt_succ_self _)
  | null | true | false =>
    simp only [List.length_cons]
    omega
  | number h =>
    obtain ⟨c, more, rfl, -⟩ := exists_head_of_number? h
    rw [(local_number? h).1, List.length_append, List.length_cons]
    omega
  | string h =>
    rw [(of_inside? h).1]
    simp only [List.length_cons, List.length_append]
    omega
  | noItems h | noMembers h => exact (length_lt_of_skip h).trans (Nat.lt_succ_self _)
  | array h ih | object h ih => exact ih.trans (Nat.lt_succ_self _)
  | lastItem h hclose ih | lastMember h hclose ih => exact (length_lt_of_skip hclose).trans ih
  | item h hcomma hmore ih ih' | members h hcomma hmore ih ih' =>
    exact ih'.trans ((length_lt_of_skip hcomma).trans ih)
  | member hkey hcolon h ih => exact ih.trans (length_lt_of_key hkey hcolon)

/-! ## What the parser reads -/

/-- Whether all that the parser reads with some depth is there. -/
structure Sound (depth : Nat) : Prop where
  value : ∀ {text v rest}, value? depth text = some (v, rest) → Reads text (.value v) rest
  items : ∀ {text items rest}, items? depth text = some (items, rest) →
    Reads text (.items items) rest
  members : ∀ {text members rest}, members? depth text = some (members, rest) →
    Reads text (.members members) rest

namespace Sound

variable {depth : Nat} {text rest : List Char}

theorem value_succ (h : Sound depth) {v : Value}
    (hread : value? (depth + 1) text = some (v, rest)) : Reads text (.value v) rest := by
  refine .of_skip ?_
  rw [value?] at hread
  split at hread
  · next text' heq =>
    obtain ⟨⟨inside, rest'⟩, hinside, hv⟩ := Option.map_eq_some_iff.1 hread
    cases hv
    rw [heq]
    exact .string hinside
  · next text' heq =>
    rw [heq]
    split at hread
    · next hclose =>
      cases hread
      exact .noItems hclose
    · obtain ⟨⟨items, rest'⟩, hitems, hv⟩ := Option.map_eq_some_iff.1 hread
      cases hv
      exact .array (.of_skip (h.items hitems))
  · next text' heq =>
    rw [heq]
    split at hread
    · next hclose =>
      cases hread
      exact .noMembers hclose
    · obtain ⟨⟨members, rest'⟩, hmembers, hv⟩ := Option.map_eq_some_iff.1 hread
      cases hv
      exact .object (.of_skip (h.members hmembers))
  · next heq =>
    cases hread
    rw [heq]
    exact .null
  · next heq =>
    cases hread
    rw [heq]
    exact .true
  · next heq =>
    cases hread
    rw [heq]
    exact .false
  · obtain ⟨⟨number, rest'⟩, hnumber, hv⟩ := Option.map_eq_some_iff.1 hread
    cases hv
    exact .number hnumber

theorem items_succ (h : Sound depth) {items : List Value}
    (hread : items? (depth + 1) text = some (items, rest)) : Reads text (.items items) rest := by
  rw [items?, Option.bind_eq_bind, Option.bind_eq_some_iff] at hread
  obtain ⟨⟨v, more⟩, hv, hread⟩ := hread
  dsimp only at hread
  split at hread
  · next hclose =>
    cases hread
    exact .lastItem (h.value hv) hclose
  · next next hcomma =>
    rw [Option.bind_eq_bind, Option.bind_eq_some_iff] at hread
    obtain ⟨⟨items', rest'⟩, hitems, heq⟩ := hread
    cases heq
    exact .item (h.value hv) hcomma (h.items hitems)
  · cases hread

theorem members_succ (h : Sound depth) {members : List (List Char × Value)}
    (hread : members? (depth + 1) text = some (members, rest)) :
    Reads text (.members members) rest := by
  refine .of_skip ?_
  rw [members?] at hread
  split at hread
  · next text' heq =>
    rw [heq]
    simp only [Option.bind_eq_bind, Option.bind_eq_some_iff, Prod.exists] at hread
    obtain ⟨key, more, hkey, hread⟩ := hread
    split at hread
    · next next hcolon =>
      simp only [Option.bind_eq_some_iff, Prod.exists] at hread
      obtain ⟨v, more', hv, hread⟩ := hread
      have hmember := Reads.member hkey hcolon (h.value hv)
      split at hread
      · next hclose =>
        cases hread
        exact .lastMember hmember hclose
      · next hcomma =>
        simp only [Option.bind_eq_some_iff, Prod.exists] at hread
        obtain ⟨members', rest', hmembers, hread⟩ := hread
        cases hread
        exact .members hmember hcomma (h.members hmembers)
      · cases hread
    · cases hread
  · cases hread

end Sound

/-- What the parser reads is there. -/
theorem sound (depth : Nat) : Sound depth := by
  induction depth with
  | zero => exact ⟨by simp [value?], by simp [items?], by simp [members?]⟩
  | succ depth ih => exact ⟨ih.value_succ, ih.items_succ, ih.members_succ⟩

/-- Whether the parser reads a part of a document with the given depth. -/
def Parses (depth : Nat) (text : List Char) (part : Part) (rest : List Char) : Prop :=
  match part with
  | .value v => value? depth text = some (v, rest)
  | .items items => items? depth text = some (items, rest)
  | .member key v => ∃ inner more next, skip text = '"' :: inner ∧
      inside? inner = some (key, more) ∧ skip more = ':' :: next ∧
      value? depth next = some (v, rest)
  | .members members => members? depth text = some (members, rest)

/-- The depth with which the parser reads any part. -/
def enough (text : List Char) : Part → Nat
  | .value _ => 2 * text.length + 1
  | .member .. => 2 * text.length
  | _ => 2 * text.length + 2

theorem enough_le_cons (c : Char) (text : List Char) (part : Part) :
    enough text part ≤ enough (c :: text) part := by
  cases part <;> simp only [enough, List.length_cons] <;> omega

theorem value?_congr {depth : Nat} {text text' : List Char} (h : skip text = skip text') :
    value? depth text = value? depth text' := by
  cases depth with
  | zero => rfl
  | succ depth => rw [value?, value?, h]

theorem items?_congr {depth : Nat} {text text' : List Char} (h : skip text = skip text') :
    items? depth text = items? depth text' := by
  cases depth with
  | zero => rfl
  | succ depth => rw [items?, items?, value?_congr h]

theorem members?_congr {depth : Nat} {text text' : List Char} (h : skip text = skip text') :
    members? depth text = members? depth text' := by
  cases depth with
  | zero => rfl
  | succ depth => rw [members?, members?, h]

theorem Parses.congr {depth : Nat} {text text' rest : List Char} {part : Part}
    (h : Parses depth text part rest) (hskip : skip text = skip text') :
    Parses depth text' part rest := by
  cases part with
  | value v => exact (value?_congr hskip).symm.trans h
  | items items => exact (items?_congr hskip).symm.trans h
  | members members => exact (members?_congr hskip).symm.trans h
  | member key v => rwa [Parses, ← hskip]

/-! The parser on each kind of value, and on items and members. -/

theorem value?_eq_none {c : Char} (hspace : isSpace c = false) (hminus : c ≠ '-')
    (hdigit : c.isDigit = false) (hstart : c ∉ ['"', '[', '\x7b', 'n', 't', 'f']) (depth : Nat)
    (text : List Char) : value? depth (c :: text) = none := by
  cases depth with
  | zero => rfl
  | succ depth =>
    rw [value?, skip_cons_of_not hspace]
    split
    case h_7 =>
      rw [number?_eq_none hminus hdigit]
      rfl
    all_goals
      next heq =>
      rw [(List.cons.inj heq).1] at hstart
      exact absurd hstart (by decide)

theorem value?_of_number? {text number rest : List Char} (h : number? text = some (number, rest))
    (depth : Nat) : value? (depth + 1) text = some (.number number, rest) := by
  obtain ⟨c, more, rfl, hspace, hstart⟩ := exists_head_of_number? h
  obtain ⟨rfl, -⟩ := local_number? h
  rw [List.cons_append, value?, skip_cons_of_not hspace]
  split
  case h_7 =>
    rw [← List.cons_append, h]
    rfl
  all_goals
    next heq =>
    rw [(List.cons.inj heq).1] at hstart
    exact absurd hstart (by decide)

theorem value?_bracket (depth : Nat) (text : List Char) :
    value? (depth + 1) ('[' :: text) = match skip text with
      | ']' :: rest => some (.array [], rest)
      | rest => (items? depth rest).map fun (items, rest) => (.array items, rest) := by
  rw [value?, skip_cons_of_not rfl]
  rfl

theorem value?_brace (depth : Nat) (text : List Char) :
    value? (depth + 1) ('\x7b' :: text) = match skip text with
      | '\x7d' :: rest => some (.object [], rest)
      | rest => (members? depth rest).map fun (members, rest) => (.object members, rest) := by
  rw [value?, skip_cons_of_not rfl]
  rfl

theorem value?_of_items? {depth : Nat} {text rest : List Char} {items : List Value}
    (h : items? depth text = some (items, rest)) :
    value? (depth + 1) ('[' :: text) = some (.array items, rest) := by
  have hskip : items? depth (skip text) = some (items, rest) := by
    rwa [items?_congr (skip_skip text)]
  rw [value?_bracket]
  split
  · next rest' heq =>
    -- an item cannot start with the closing bracket
    rw [heq] at hskip
    cases depth with
    | zero => cases hskip
    | succ depth =>
      rw [items?, value?_eq_none rfl (by decide) rfl (by decide)] at hskip
      cases hskip
  · rw [hskip]
    rfl

theorem value?_of_members? {depth : Nat} {text rest : List Char}
    {members : List (List Char × Value)} (h : members? depth text = some (members, rest)) :
    value? (depth + 1) ('\x7b' :: text) = some (.object members, rest) := by
  have hskip : members? depth (skip text) = some (members, rest) := by
    rwa [members?_congr (skip_skip text)]
  rw [value?_brace]
  split
  · next rest' heq =>
    -- a member cannot start with the closing brace
    rw [heq] at hskip
    cases depth with
    | zero => cases hskip
    | succ depth =>
      rw [members?, skip_cons_of_not rfl] at hskip
      cases hskip
  · rw [hskip]
    rfl

theorem value?_of_inside? {text inside rest : List Char} (h : inside? text = some (inside, rest))
    (depth : Nat) : value? (depth + 1) ('"' :: text) = some (.string inside, rest) := by
  rw [value?, skip_cons_of_not rfl]
  simp only [h, Option.map_some]

theorem items?_of_last {depth : Nat} {text more rest : List Char} {v : Value}
    (h : value? depth text = some (v, more)) (hclose : skip more = ']' :: rest) :
    items? (depth + 1) text = some ([v], rest) := by
  rw [items?, h, Option.bind_eq_bind, Option.bind_some]
  simp only [hclose]
  rfl

theorem items?_of_comma {depth : Nat} {text more next rest : List Char} {v : Value}
    {items : List Value} (h : value? depth text = some (v, more)) (hcomma : skip more = ',' :: next)
    (hitems : items? depth next = some (items, rest)) :
    items? (depth + 1) text = some (v :: items, rest) := by
  rw [items?, h, Option.bind_eq_bind, Option.bind_some]
  simp only [hcomma, hitems]
  rfl

theorem members?_of_last {depth : Nat} {text key more rest : List Char} {v : Value}
    (h : Parses depth text (.member key v) more) (hclose : skip more = '\x7d' :: rest) :
    members? (depth + 1) text = some ([(key, v)], rest) := by
  obtain ⟨inner, more', next, hquote, hkey, hcolon, hread⟩ := h
  rw [members?, hquote]
  simp only [hkey, hcolon, hread, hclose, Option.bind_eq_bind, Option.bind_some]
  rfl

theorem members?_of_comma {depth : Nat} {text key more next rest : List Char} {v : Value}
    {members : List (List Char × Value)} (h : Parses depth text (.member key v) more)
    (hcomma : skip more = ',' :: next) (hmembers : members? depth next = some (members, rest)) :
    members? (depth + 1) text = some ((key, v) :: members, rest) := by
  obtain ⟨inner, more', next', hquote, hkey, hcolon, hread⟩ := h
  rw [members?, hquote]
  simp only [hkey, hcolon, hread, hcomma, hmembers, Option.bind_eq_bind, Option.bind_some]
  rfl

/-- A positive depth, as the parser matches on it. -/
theorem exists_succ {n depth : Nat} (h : n + 1 ≤ depth) :
    ∃ depth', depth = depth' + 1 ∧ n ≤ depth' :=
  ⟨depth - 1, by omega, by omega⟩

/-- The parser reads what is there. A step costs one level of the depth, and of two steps in a row
one passes over a character, which gives two levels back. -/
theorem Reads.parses {text rest : List Char} {part : Part} (h : Reads text part rest) :
    ∀ depth, enough text part ≤ depth → Parses depth text part rest := by
  induction h with
  | blank hc h ih =>
    intro depth hdepth
    exact (ih depth ((enough_le_cons ..).trans hdepth)).congr (skip_cons hc _).symm
  | null | true | false =>
    intro depth hdepth
    obtain ⟨depth, rfl, -⟩ := exists_succ hdepth
    rfl
  | number h =>
    intro depth hdepth
    obtain ⟨depth, rfl, -⟩ := exists_succ hdepth
    exact value?_of_number? h depth
  | string h =>
    intro depth hdepth
    obtain ⟨depth, rfl, -⟩ := exists_succ hdepth
    exact value?_of_inside? h depth
  | noItems h =>
    intro depth hdepth
    obtain ⟨depth, rfl, -⟩ := exists_succ hdepth
    simp only [Parses, value?_bracket, h]
  | noMembers h =>
    intro depth hdepth
    obtain ⟨depth, rfl, -⟩ := exists_succ hdepth
    simp only [Parses, value?_brace, h]
  | array h ih =>
    intro depth hdepth
    obtain ⟨depth, rfl, hbound⟩ := exists_succ hdepth
    exact value?_of_items? (ih depth hbound)
  | object h ih =>
    intro depth hdepth
    obtain ⟨depth, rfl, hbound⟩ := exists_succ hdepth
    exact value?_of_members? (ih depth hbound)
  | lastItem h hclose ih =>
    intro depth hdepth
    obtain ⟨depth, rfl, hbound⟩ := exists_succ hdepth
    exact items?_of_last (ih depth hbound) hclose
  | item h hcomma hitems ih ih' =>
    intro depth hdepth
    obtain ⟨depth, rfl, hbound⟩ := exists_succ hdepth
    have hlength := (length_lt_of_skip hcomma).trans h.length_lt
    exact items?_of_comma (ih depth hbound) hcomma (ih' depth (by simp only [enough]; omega))
  | member hkey hcolon h ih =>
    intro depth hdepth
    have hlength := length_lt_of_key hkey hcolon
    have hbound : 2 * ('"' :: _).length ≤ depth := hdepth
    exact ⟨_, _, _, skip_cons_of_not rfl _, hkey, hcolon, ih depth (by simp only [enough]; omega)⟩
  | lastMember h hclose ih =>
    intro depth hdepth
    obtain ⟨depth, rfl, hbound⟩ := exists_succ hdepth
    exact members?_of_last (ih depth (Nat.le_of_succ_le hbound)) hclose
  | members h hcomma hmembers ih ih' =>
    intro depth hdepth
    obtain ⟨depth, rfl, hbound⟩ := exists_succ hdepth
    have hlength := (length_lt_of_skip hcomma).trans h.length_lt
    exact members?_of_comma (ih depth (Nat.le_of_succ_le hbound)) hcomma
      (ih' depth (by simp only [enough]; omega))

theorem Reads.value_unique {text rest rest' : List Char} {v v' : Value}
    (h : Reads text (.value v) rest) (h' : Reads text (.value v') rest') :
    v = v' ∧ rest = rest' := by
  have hparse : value? (2 * text.length + 1) text = some (v, rest) := h.parses _ (Nat.le_refl _)
  have hparse' : value? (2 * text.length + 1) text = some (v', rest') :=
    h'.parses _ (Nat.le_refl _)
  rw [hparse] at hparse'
  cases hparse'
  exact ⟨rfl, rfl⟩

/-- A document is one value with nothing but white space around it. -/
theorem parse?_eq_some_iff {text : List Char} {v : Value} :
    Value.parse? text = some v ↔ ∃ rest, Reads text (.value v) rest ∧ skip rest = [] := by
  rw [Value.parse?]
  constructor
  · intro h
    split at h
    · next v' rest hread =>
      split at h
      · next hrest =>
        cases h
        exact ⟨rest, (sound _).value hread, List.isEmpty_iff.1 hrest⟩
      · cases h
    · cases h
  · rintro ⟨rest, hread, hrest⟩
    have hparse : value? (2 * text.length + 1) text = some (v, rest) :=
      hread.parses _ (Nat.le_refl _)
    rw [hparse]
    simp only [hrest, List.isEmpty_nil, if_true]

/-! ## What is behind a part -/

/-- A character that is found behind white space is found with anything behind it. -/
theorem exists_blanks_of_skip {text next : List Char} {c : Char} (h : skip text = c :: next) :
    ∃ blanks, text = blanks ++ c :: next ∧ ∀ next', skip (blanks ++ c :: next') = c :: next' := by
  obtain ⟨blanks, hblanks, htext⟩ := exists_blanks text
  rw [h] at htext
  have hc : isSpace c = false := by
    have hnot := List.head?_dropWhile_not isSpace text
    rw [show text.dropWhile isSpace = c :: next from h] at hnot
    exact hnot
  exact ⟨blanks, htext, fun next' => by rw [skip_append hblanks, skip_cons_of_not hc]⟩

/-- Of what is behind a part only the next character counts. -/
theorem Reads.exists_front {text rest : List Char} {part : Part} (h : Reads text part rest) :
    ∃ front, text = front ++ rest ∧
      ∀ rest', rest'.head? = rest.head? → Reads (front ++ rest') part rest' := by
  induction h with
  | @blank c text rest part hc h ih =>
    obtain ⟨front, rfl, hread⟩ := ih
    exact ⟨c :: front, rfl, fun rest' hhead => .blank hc (hread rest' hhead)⟩
  | null => exact ⟨['n', 'u', 'l', 'l'], rfl, fun _ _ => .null⟩
  | true => exact ⟨['t', 'r', 'u', 'e'], rfl, fun _ _ => .true⟩
  | false => exact ⟨['f', 'a', 'l', 's', 'e'], rfl, fun _ _ => .false⟩
  | @number text number rest h =>
    obtain ⟨rfl, hread⟩ := local_number? h
    exact ⟨number, rfl, fun rest' hhead => .number (hread rest' hhead)⟩
  | @string text inside rest h =>
    obtain ⟨rfl, hread⟩ := of_inside? h
    exact ⟨'"' :: (inside ++ ['"']), by simp, fun rest' _ => .string (by simpa using hread rest')⟩
  | @noItems text rest h =>
    obtain ⟨blanks, rfl, hskip⟩ := exists_blanks_of_skip h
    exact ⟨'[' :: (blanks ++ [']']), by simp, fun rest' _ => .noItems (by simpa using hskip rest')⟩
  | @array text rest items h ih =>
    obtain ⟨front, rfl, hread⟩ := ih
    exact ⟨'[' :: front, rfl, fun rest' hhead => .array (hread rest' hhead)⟩
  | @noMembers text rest h =>
    obtain ⟨blanks, rfl, hskip⟩ := exists_blanks_of_skip h
    exact ⟨'\x7b' :: (blanks ++ ['\x7d']), by simp,
      fun rest' _ => .noMembers (by simpa using hskip rest')⟩
  | @object text rest members h ih =>
    obtain ⟨front, rfl, hread⟩ := ih
    exact ⟨'\x7b' :: front, rfl, fun rest' hhead => .object (hread rest' hhead)⟩
  | @lastItem text more rest v h hclose ih =>
    obtain ⟨front, rfl, hread⟩ := ih
    obtain ⟨blanks, rfl, hskip⟩ := exists_blanks_of_skip hclose
    refine ⟨front ++ (blanks ++ [']']), by simp, fun rest' _ => ?_⟩
    have hread' := hread (blanks ++ ']' :: rest') (by simp [List.head?_append])
    simpa using Reads.lastItem hread' (hskip rest')
  | @item text more next rest v items h hcomma hitems ih ih' =>
    obtain ⟨front, rfl, hread⟩ := ih
    obtain ⟨blanks, rfl, hskip⟩ := exists_blanks_of_skip hcomma
    obtain ⟨front', rfl, hnext⟩ := ih'
    refine ⟨front ++ (blanks ++ ',' :: front'), by simp, fun rest' hhead => ?_⟩
    have hread' := hread (blanks ++ ',' :: (front' ++ rest')) (by simp [List.head?_append])
    simpa using Reads.item hread' (hskip _) (hnext rest' hhead)
  | @member text key more next rest v hkey hcolon h ih =>
    obtain ⟨rfl, hinside⟩ := of_inside? hkey
    obtain ⟨blanks, rfl, hskip⟩ := exists_blanks_of_skip hcolon
    obtain ⟨front, rfl, hread⟩ := ih
    refine ⟨'"' :: (key ++ '"' :: (blanks ++ ':' :: front)), by simp, fun rest' hhead => ?_⟩
    simpa using Reads.member (hinside _) (hskip _) (hread rest' hhead)
  | @lastMember text key more rest v h hclose ih =>
    obtain ⟨front, rfl, hread⟩ := ih
    obtain ⟨blanks, rfl, hskip⟩ := exists_blanks_of_skip hclose
    refine ⟨front ++ (blanks ++ ['\x7d']), by simp, fun rest' _ => ?_⟩
    have hread' := hread (blanks ++ '\x7d' :: rest') (by simp [List.head?_append])
    simpa using Reads.lastMember hread' (hskip rest')
  | @members text key more next rest v members h hcomma hmembers ih ih' =>
    obtain ⟨front, rfl, hread⟩ := ih
    obtain ⟨blanks, rfl, hskip⟩ := exists_blanks_of_skip hcomma
    obtain ⟨front', rfl, hnext⟩ := ih'
    refine ⟨front ++ (blanks ++ ',' :: front'), by simp, fun rest' hhead => ?_⟩
    have hread' := hread (blanks ++ ',' :: (front' ++ rest')) (by simp [List.head?_append])
    simpa using Reads.members hread' (hskip _) (hnext rest' hhead)

end StubManager.Json
