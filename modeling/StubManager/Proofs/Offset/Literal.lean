import StubManager.Proofs.ListText.Lexing
import StubManager.Proofs.Offset.Anchor

/-!
# String literals by offsets

`skipString?_eq`: from its opening quote a string closes in the bytes of a text where it closes in
the characters. What carries the proof is that no byte of a character behind the first is a quote,
a backslash or a line feed. Main statement: `literal_read_back`, a literal that is written into any
text is skipped as a whole and read as its value.
-/

namespace StubManager

/-- The literal of a value is scanned to its closing quote, unless the value has a line feed. -/
theorem Literal.scan?_escape (style : QuoteStyle) (value after : List Char) :
    scan? style.mark (style.escape value ++ style.mark :: after)
      = if '\n' ∈ value then none else some (style.escape value, after) := by
  split
  · next h => exact scan?_encode_eq_none style h after
  · next h => exact scan?_encode style value after h

namespace Offset

/-! ## Strings in bytes -/

/-- The bytes of a character behind the first are none of ASCII. -/
theorem exists_encode (c : Char) : ∃ b more, String.utf8EncodeChar c = b :: more ∧
    more.length + 1 = c.utf8Size ∧ (∀ b' ∈ more, 128 ≤ b'.toNat) := by
  obtain ⟨b, more, hbytes⟩ := List.exists_cons_of_ne_nil (encode_ne_nil c)
  have hlength := String.length_utf8EncodeChar c
  rw [hbytes, List.length_cons] at hlength
  refine ⟨b, more, hbytes, hlength, fun b' hb' => ?_⟩
  by_cases hc : c.toNat < 128
  · rw [encode_of_ascii hc] at hbytes
    obtain ⟨-, rfl⟩ := List.cons.inj hbytes
    cases hb'
  · exact high_of_mem_encode (Nat.not_lt.1 hc) (hbytes ▸ List.mem_cons_of_mem _ hb')

theorem closeFrom?_of_ne {b : UInt8} (h : b ≠ sign '\\') (quote : UInt8) (i : Nat)
    (bytes : List UInt8) :
    closeFrom? quote i (b :: bytes)
      = if b = sign '\n' then none else if b = quote then some (i + 1)
        else closeFrom? quote (i + 1) bytes := by
  rw [closeFrom?.eq_def]
  exact if_neg h

theorem closeFrom?_high {mark : Char} (hmark : mark.toNat < 128) {high : List UInt8}
    (h : ∀ b ∈ high, 128 ≤ b.toNat) (i : Nat) (bytes : List UInt8) :
    closeFrom? (sign mark) i (high ++ bytes) = closeFrom? (sign mark) (i + high.length) bytes := by
  induction high generalizing i with
  | nil => rfl
  | cons b high ih =>
    rw [List.forall_mem_cons] at h
    have hne : ∀ c : Char, c.toNat < 128 → b ≠ sign c := fun c => ne_sign_of_high h.1
    rw [List.cons_append, closeFrom?_of_ne (hne '\\' (by decide)),
      if_neg (hne '\n' (by decide)), if_neg (hne mark hmark), ih h.2, List.length_cons,
      Nat.add_right_comm, Nat.add_assoc]

/-- A character that neither escapes nor closes is passed over. -/
theorem closeFrom?_cons {mark c : Char} (hmark : mark.toNat < 128) (hescape : c ≠ '\\')
    (hbreak : c ≠ '\n') (hc : c ≠ mark) (i : Nat) (text : List Char) :
    closeFrom? (sign mark) i (bytesOf (c :: text))
      = closeFrom? (sign mark) (i + c.utf8Size) (bytesOf text) := by
  rw [bytesOf_cons]
  by_cases hascii : c.toNat < 128
  · have hne : ∀ sought : Char, sought.toNat < 128 → c ≠ sought → sign c ≠ sign sought :=
      fun sought hsought => mt (sign_eq_sign_iff hascii hsought).1
    have hsize : c.utf8Size = 1 := by
      rw [← String.length_utf8EncodeChar, encode_of_ascii hascii]
      rfl
    rw [encode_of_ascii hascii, List.singleton_append,
      closeFrom?_of_ne (hne '\\' (by decide) hescape), if_neg (hne '\n' (by decide) hbreak),
      if_neg (hne mark hmark hc), hsize]
  · rw [closeFrom?_high hmark fun b hb => high_of_mem_encode (Nat.not_lt.1 hascii) hb,
      String.length_utf8EncodeChar]

/-- The bytes of a string close where its characters do. -/
theorem closeFrom?_bytesOf {mark : Char} (hmark : mark.toNat < 128) (hescape : mark ≠ '\\')
    (i : Nat) (text : List Char) :
    closeFrom? (sign mark) i (bytesOf text)
      = (Literal.scan? mark text).map fun (inside, _) => i + byteLength inside + 1 := by
  fun_induction Literal.scan? mark text generalizing i with
  | case1 => rfl
  | case2 => rfl
  | case3 c rest ih =>
    obtain ⟨b, more, hbytes, hlength, hhigh⟩ := exists_encode c
    rw [bytesOf_cons, encode_of_ascii (by decide), bytesOf_cons, hbytes]
    change closeFrom? (sign mark) (i + 2) (more ++ bytesOf rest) = _
    rw [closeFrom?_high hmark hhigh, ih, Option.map_map]
    congr 1
    funext pair
    simp only [Function.comp, byteLength_cons, ← hlength, show '\\'.utf8Size = 1 from rfl]
    omega
  | case4 rest hnot =>
    rw [bytesOf_cons, encode_of_ascii (by decide), List.singleton_append,
      closeFrom?_of_ne (by decide), if_pos rfl]
    rfl
  | case5 rest hnot hbreak =>
    have hne : sign mark ≠ sign '\\' := mt (sign_eq_sign_iff hmark (by decide)).1 hescape
    have hne' : sign mark ≠ sign '\n' := mt (sign_eq_sign_iff hmark (by decide)).1 hbreak
    rw [bytesOf_cons, encode_of_ascii hmark, List.singleton_append, closeFrom?_of_ne hne,
      if_neg hne', if_pos rfl]
    rfl
  | case6 c rest hnot hbreak hc ih =>
    have hplain : c ≠ '\\' := fun heq => hnot heq
    rw [closeFrom?_cons hmark hplain hbreak hc, ih, Option.map_map]
    congr 1
    funext pair
    simp only [Function.comp, byteLength_cons, Nat.add_assoc]

/-- A string at an offset. -/
theorem skipString?_eq {quote : Char} {style : QuoteStyle}
    (h : QuoteStyle.ofMark? quote = some style)
    (before text : List Char) :
    skipString? (bytesOf (before ++ quote :: text)) (byteLength before)
      = some ((Literal.scan? quote text).map fun (inside, _) =>
          byteLength before + byteLength inside + 2) := by
  obtain rfl := QuoteStyle.mark_of_ofMark? h
  have hmark := ascii_mark style
  have hescape : style.mark ≠ '\\' := by cases style <;> decide
  have htext : bytesOf (before ++ style.mark :: text)
      = bytesOf before ++ sign style.mark :: bytesOf text := by
    rw [bytesOf_append, bytesOf_cons, encode_of_ascii hmark, List.singleton_append]
  have hdrop : (bytesOf before ++ sign style.mark :: bytesOf text).drop (byteLength before + 1)
      = bytesOf text := by
    rw [← List.drop_drop, drop_bytesOf_append]
    rfl
  rw [skipString?, htext, getElem?_bytesOf_append, hdrop]
  refine congrArg some ((closeFrom?_bytesOf hmark hescape _ text).trans ?_)
  congr 1
  funext pair
  simp only
  omega

/-! ## Literals of a value -/

theorem utf8Size_mark (style : QuoteStyle) : style.mark.utf8Size = 1 := by
  cases style <;> rfl

theorem byteLength_encode (style : QuoteStyle) (value : List Char) :
    byteLength (style.encode value) = byteLength (style.escape value) + 2 := by
  rw [QuoteStyle.encode, byteLength_cons, byteLength_append, byteLength_cons, byteLength_nil,
    utf8Size_mark]
  omega

/-- The string at the opening quote of a literal is the literal. -/
theorem skipString?_encode (style : QuoteStyle) (before value behind : List Char) :
    skipString? (bytesOf (before ++ (style.encode value ++ behind))) (byteLength before)
      = some (if '\n' ∈ value then none
          else some (byteLength before + byteLength (style.encode value))) := by
  have htext : style.encode value ++ behind
      = style.mark :: (style.escape value ++ style.mark :: behind) := by
    simp [QuoteStyle.encode]
  rw [htext, skipString?_eq (QuoteStyle.ofMark?_mark style), Literal.scan?_escape,
    byteLength_encode]
  split
  · rfl
  · rfl

/-- Between the quotes of a literal stands the value, escaped. -/
theorem slice?_encode (style : QuoteStyle) (before value behind : List Char) :
    slice? (before ++ (style.encode value ++ behind)) (byteLength before + 1)
        (byteLength before + byteLength (style.encode value) - 1)
      = some (style.escape value) := by
  refine slice?_eq_some_iff.2 ⟨before ++ [style.mark], style.mark :: behind, ?_, ?_, ?_⟩
  · simp [QuoteStyle.encode]
  · rw [byteLength_append, byteLength_cons, byteLength_nil, utf8Size_mark]
  · rw [byteLength_encode, byteLength_append, byteLength_cons, byteLength_nil, utf8Size_mark]
    omega

/-- A literal that is written into any text is read back. The string at its opening quote is closed
right behind the literal, or on no line if the value has a line feed; what stands between the
quotes stands for the value; and in the characters the same value is found, and the same text
behind it. -/
theorem literal_read_back (style : QuoteStyle) (before value behind : List Char) :
    skipString? (bytesOf (before ++ (style.encode value ++ behind))) (byteLength before)
        = some (if '\n' ∈ value then none
            else some (byteLength before + byteLength (style.encode value))) ∧
      (slice? (before ++ (style.encode value ++ behind)) (byteLength before + 1)
          (byteLength before + byteLength (style.encode value) - 1)).map Literal.unescape
        = some value ∧
      (Literal.scan? style.mark (style.escape value ++ style.mark :: behind)).map
          (Prod.map Literal.unescape id)
        = if '\n' ∈ value then none else some (value, behind) := by
  refine ⟨skipString?_encode style before value behind, ?_, ?_⟩
  · rw [slice?_encode, Option.map_some, Literal.unescape_escape]
  · rw [Literal.scan?_escape]
    split
    · rfl
    · rw [Option.map_some, Prod.map_apply, Literal.unescape_escape, id_eq]

/-- Behind a character of two bytes, a value that ends with a backslash and a quote. -/
example :
    skipString? (bytesOf ("é = ".toList ++ (QuoteStyle.single.encode "ü\\'".toList ++ [']']))) 5
      = some (some 13) := by
  decide

end Offset

end StubManager
