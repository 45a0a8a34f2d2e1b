import StubManager.ListText.Scan
import StubManager.Proofs.ListText.Gap

/-!
# Texts by byte offsets

Offsets into a text count the bytes of its encoding. A slice is taken only between two offsets in
order at which characters start (`slice?`); `none` stands for an access that stops the program.
The lemmas say what is cut from a text that is known in parts.
-/

namespace StubManager

@[simp] theorem byteLength_nil : byteLength [] = 0 := rfl

@[simp] theorem byteLength_cons (c : Char) (text : List Char) :
    byteLength (c :: text) = c.utf8Size + byteLength text := rfl

@[simp] theorem byteLength_append (before behind : List Char) :
    byteLength (before ++ behind) = byteLength before + byteLength behind := by
  induction before with
  | nil => simp
  | cons c before ih => simp [ih, Nat.add_assoc]

namespace Offset

open Text

/-! ## Slices -/

/-- What stands before an offset and what stands behind it; none where no character starts. -/
def cutAt? : List Char → Nat → Option (List Char × List Char)
  | text, 0 => some ([], text)
  | [], _ + 1 => none
  | c :: text, offset + 1 =>
    if c.utf8Size ≤ offset + 1 then
      (cutAt? text (offset + 1 - c.utf8Size)).map fun (before, behind) => (c :: before, behind)
    else none

/-- The text up to an offset. -/
def sliceTo? (text : List Char) (stop : Nat) : Option (List Char) := (cutAt? text stop).map (·.1)

/-- The text from an offset on. -/
def sliceFrom? (text : List Char) (start : Nat) : Option (List Char) :=
  (cutAt? text start).map (·.2)

/-- The text between two offsets that are in order. -/
def slice? (text : List Char) (start stop : Nat) : Option (List Char) :=
  if start ≤ stop then (sliceTo? text stop).bind (sliceFrom? · start) else none

/-- A difference that is not negative. -/
def sub? (a b : Nat) : Option Nat := if b ≤ a then some (a - b) else none

theorem cutAt?_eq_some_iff {text before behind : List Char} {offset : Nat} :
    cutAt? text offset = some (before, behind) ↔
      text = before ++ behind ∧ byteLength before = offset := by
  fun_induction cutAt? text offset generalizing before with
  | case1 text =>
    rw [Option.some.injEq, Prod.mk.injEq]
    constructor
    · rintro ⟨rfl, rfl⟩
      exact ⟨rfl, rfl⟩
    · rintro ⟨rfl, hlength⟩
      cases before with
      | nil => exact ⟨rfl, rfl⟩
      | cons c before =>
        have := c.utf8Size_pos
        rw [byteLength_cons] at hlength
        omega
  | case2 offset =>
    refine iff_of_false nofun ?_
    rintro ⟨htext, hlength⟩
    rw [(List.append_eq_nil_iff.1 htext.symm).1] at hlength
    cases hlength
  | case3 c text offset hle ih =>
    rw [Option.map_eq_some_iff]
    constructor
    · rintro ⟨⟨before, behind⟩, hcut, heq⟩
      cases heq
      obtain ⟨rfl, hlength⟩ := ih.1 hcut
      refine ⟨rfl, ?_⟩
      rw [byteLength_cons, hlength]
      omega
    · rintro ⟨htext, hlength⟩
      cases before with
      | nil => cases hlength
      | cons first before =>
        obtain ⟨rfl, rfl⟩ := List.cons.inj htext
        rw [byteLength_cons] at hlength
        exact ⟨(before, behind), ih.2 ⟨rfl, by omega⟩, rfl⟩
  | case4 c text offset hle =>
    refine iff_of_false nofun ?_
    rintro ⟨htext, hlength⟩
    cases before with
    | nil => cases hlength
    | cons first before =>
      obtain ⟨rfl, rfl⟩ := List.cons.inj htext
      rw [byteLength_cons] at hlength
      omega

/-- A text is cut in one way at an offset. -/
theorem append_inj_of_byteLength {before before' behind behind' : List Char}
    (h : before ++ behind = before' ++ behind') (hlength : byteLength before = byteLength before') :
    before = before' ∧ behind = behind' := by
  have hcut := cutAt?_eq_some_iff.2 ⟨h, hlength.symm⟩
  rw [cutAt?_eq_some_iff.2 ⟨rfl, rfl⟩, Option.some.injEq, Prod.mk.injEq] at hcut
  exact hcut

theorem sliceTo?_eq {text before behind : List Char} {stop : Nat} (h : text = before ++ behind)
    (hstop : stop = byteLength before) : sliceTo? text stop = some before := by
  rw [sliceTo?, cutAt?_eq_some_iff.2 ⟨h, hstop.symm⟩]
  rfl

theorem sliceFrom?_eq {text before behind : List Char} {start : Nat} (h : text = before ++ behind)
    (hstart : start = byteLength before) : sliceFrom? text start = some behind := by
  rw [sliceFrom?, cutAt?_eq_some_iff.2 ⟨h, hstart.symm⟩]
  rfl

/-- A slice is taken exactly where its ends are in order, within the text and at characters. -/
theorem slice?_eq_some_iff {text inside : List Char} {start stop : Nat} :
    slice? text start stop = some inside ↔ ∃ before behind,
      text = before ++ inside ++ behind ∧ start = byteLength before ∧
        stop = byteLength before + byteLength inside := by
  constructor
  · intro h
    unfold slice? at h
    split at h
    · obtain ⟨front, hfront, hinside⟩ := Option.bind_eq_some_iff.1 h
      obtain ⟨⟨_, behind⟩, hcut, rfl⟩ := Option.map_eq_some_iff.1 hfront
      obtain ⟨⟨before, _⟩, hcut', rfl⟩ := Option.map_eq_some_iff.1 hinside
      obtain ⟨rfl, hstop⟩ := cutAt?_eq_some_iff.1 hcut
      obtain ⟨rfl, hstart⟩ := cutAt?_eq_some_iff.1 hcut'
      exact ⟨before, behind, rfl, hstart.symm, by rw [← hstop, byteLength_append]⟩
    · cases h
  · rintro ⟨before, behind, htext, rfl, rfl⟩
    rw [slice?, if_pos (Nat.le_add_right ..), sliceTo?_eq htext (byteLength_append ..).symm]
    exact sliceFrom?_eq rfl rfl

theorem slice?_eq {text before inside behind : List Char} {start stop : Nat}
    (h : text = before ++ inside ++ behind) (hstart : start = byteLength before)
    (hstop : stop = byteLength before + byteLength inside) :
    slice? text start stop = some inside :=
  slice?_eq_some_iff.2 ⟨before, behind, h, hstart, hstop⟩

theorem sub?_add (a b : Nat) : sub? (a + b) b = some a := by
  rw [sub?, if_pos (Nat.le_add_left ..), Nat.add_sub_cancel]

theorem sub?_zero (a : Nat) : sub? a 0 = some a := sub?_add a 0

/-! ## Line feeds -/

/-- The offset of the first line feed. -/
def findBreak? : List Char → Option Nat
  | [] => none
  | c :: text => if c = '\n' then some 0 else (findBreak? text).map (c.utf8Size + ·)

/-- The offset of the last line feed. -/
def findLastBreak? : List Char → Option Nat
  | [] => none
  | c :: text =>
    match findLastBreak? text with
    | some offset => some (c.utf8Size + offset)
    | none => if c = '\n' then some 0 else none

/-- Where the line of an offset starts. -/
def lineStart? (text : List Char) (offset : Nat) : Option Nat := do
  let before ← sliceTo? text offset
  return match findLastBreak? before with
    | none => 0
    | some offset => offset + 1

theorem findBreak?_of_not_mem {text : List Char} (h : '\n' ∉ text) : findBreak? text = none := by
  induction text with
  | nil => rfl
  | cons c text ih =>
    rw [List.mem_cons, not_or] at h
    rw [findBreak?, if_neg (Ne.symm h.1), ih h.2]
    rfl

theorem findBreak?_of_mem {text : List Char} (h : '\n' ∈ text) :
    findBreak? text = some (byteLength (firstLine text)) := by
  induction text with
  | nil => cases h
  | cons c text ih =>
    by_cases hc : c = '\n'
    · rw [findBreak?, if_pos hc, firstLine, List.takeWhile_cons_of_neg (by simpa using hc)]
      rfl
    · have htext : '\n' ∈ text := (List.mem_cons.1 h).resolve_left (Ne.symm hc)
      have hline : firstLine (c :: text) = c :: firstLine text :=
        List.takeWhile_cons_of_pos (by simpa using hc)
      rw [findBreak?, if_neg hc, ih htext, hline]
      rfl

theorem findLastBreak?_of_not_mem {text : List Char} (h : '\n' ∉ text) :
    findLastBreak? text = none := by
  induction text with
  | nil => rfl
  | cons c text ih =>
    rw [List.mem_cons, not_or] at h
    rw [findLastBreak?, ih h.2]
    exact if_neg (Ne.symm h.1)

theorem findLastBreak?_append_break (front : List Char) {line : List Char} (h : '\n' ∉ line) :
    findLastBreak? (front ++ '\n' :: line) = some (byteLength front) := by
  induction front with
  | nil =>
    rw [List.nil_append, findLastBreak?, findLastBreak?_of_not_mem h]
    rfl
  | cons c front ih =>
    rw [List.cons_append, findLastBreak?, ih]
    rfl

theorem throughLastBreak_of_not_mem {text : List Char} (h : '\n' ∉ text) :
    throughLastBreak text = [] := by
  have hall : ∀ c ∈ text.reverse, decide (c ≠ '\n') := fun c hc =>
    decide_eq_true fun heq => h (heq ▸ List.mem_reverse.1 hc)
  rw [throughLastBreak, ← List.append_nil text.reverse, List.dropWhile_append_of_pos hall]
  rfl

/-- The line of an offset starts behind the last line feed before it. -/
theorem lineStart?_eq {text before behind : List Char} {offset : Nat} (h : text = before ++ behind)
    (hoffset : offset = byteLength before) :
    lineStart? text offset = some (byteLength (throughLastBreak before)) := by
  rw [lineStart?, sliceTo?_eq h hoffset]
  refine congrArg some ?_
  have hsplit := throughLastBreak_append_lastLine before
  have hlast := not_mem_lastLine before
  by_cases hbreak : '\n' ∈ before
  · have hfront := throughLastBreak_eq_append hbreak
    generalize (throughLastBreak before).dropLast = front at hfront
    rw [hfront, List.append_assoc, List.singleton_append] at hsplit
    rw [hfront, ← hsplit, findLastBreak?_append_break front hlast, byteLength_append]
    rfl
  · rw [findLastBreak?_of_not_mem hbreak, throughLastBreak_of_not_mem hbreak]
    rfl

/-- From there to the offset goes the last line of what stands before it. -/
theorem slice?_lastLine {text before behind : List Char} {offset : Nat}
    (h : text = before ++ behind) (hoffset : offset = byteLength before) :
    slice? text (byteLength (throughLastBreak before)) offset = some (lastLine before) := by
  have hbefore := throughLastBreak_append_lastLine before
  refine slice?_eq_some_iff.2 ⟨throughLastBreak before, behind, ?_, rfl, ?_⟩
  · rw [hbefore, h]
  · rw [hoffset, ← byteLength_append, hbefore]

/-! ## Bytes -/

/-- The bytes of a text. -/
def bytesOf (text : List Char) : List UInt8 := text.flatMap String.utf8EncodeChar

/-- The byte of an ASCII character. -/
def sign (c : Char) : UInt8 := .ofNat c.toNat

/-- The offset of the next byte that does not satisfy a condition. -/
def skipWhile (p : UInt8 → Bool) (bytes : List UInt8) (i : Nat) : Nat :=
  i + ((bytes.drop i).takeWhile p).length

/-- The bytes between two offsets that are in order. -/
def byteSlice? (bytes : List UInt8) (start stop : Nat) : Option (List UInt8) :=
  if start ≤ stop ∧ stop ≤ bytes.length then some ((bytes.drop start).take (stop - start))
  else none

theorem bytesOf_nil : bytesOf [] = [] := rfl

theorem bytesOf_cons (c : Char) (text : List Char) :
    bytesOf (c :: text) = String.utf8EncodeChar c ++ bytesOf text := rfl

theorem bytesOf_append (before behind : List Char) :
    bytesOf (before ++ behind) = bytesOf before ++ bytesOf behind := List.flatMap_append ..

@[simp] theorem length_bytesOf (text : List Char) : (bytesOf text).length = byteLength text := by
  induction text with
  | nil => rfl
  | cons c text ih => rw [bytesOf_cons, List.length_append, String.length_utf8EncodeChar, ih]; rfl

theorem encode_ne_nil (c : Char) : String.utf8EncodeChar c ≠ [] := by
  rw [← List.length_pos_iff, String.length_utf8EncodeChar]
  exact c.utf8Size_pos

theorem encode_of_ascii {c : Char} (h : c.toNat < 128) : String.utf8EncodeChar c = [sign c] :=
  if_pos (Nat.le_of_lt_succ h)

/-- The bytes of other characters are none of ASCII. -/
theorem high_of_mem_encode {c : Char} (h : 128 ≤ c.toNat) {b : UInt8}
    (hb : b ∈ String.utf8EncodeChar c) : 128 ≤ b.toNat := by
  have hvalue : ¬ c.val.toNat ≤ 127 := by
    rw [Nat.not_le]
    exact h
  unfold String.utf8EncodeChar at hb
  simp only [hvalue, ↓reduceIte] at hb
  split at hb
  · simp only [List.mem_cons, List.not_mem_nil, or_false] at hb
    obtain rfl | rfl := hb <;> simp only [UInt8.toNat_ofNat'] <;> omega
  · split at hb
    · simp only [List.mem_cons, List.not_mem_nil, or_false] at hb
      obtain rfl | rfl | rfl := hb <;> simp only [UInt8.toNat_ofNat'] <;> omega
    · simp only [List.mem_cons, List.not_mem_nil, or_false] at hb
      obtain rfl | rfl | rfl | rfl := hb <;> simp only [UInt8.toNat_ofNat'] <;> omega

theorem ne_sign_of_high {b : UInt8} (h : 128 ≤ b.toNat) {c : Char} (hc : c.toNat < 128) :
    b ≠ sign c := by
  rintro rfl
  rw [sign, UInt8.toNat_ofNat'] at h
  omega

theorem sign_eq_sign_iff {c c' : Char} (h : c.toNat < 128) (h' : c'.toNat < 128) :
    sign c = sign c' ↔ c = c' := by
  constructor
  · intro heq
    have := congrArg UInt8.toNat heq
    rw [sign, sign, UInt8.toNat_ofNat', UInt8.toNat_ofNat'] at this
    exact Char.toNat_inj.1 (by omega)
  · rintro rfl
    rfl

/-- A byte of a character is an ASCII sign exactly if the character is. -/
theorem eq_sign_iff {sought c : Char} (h : sought.toNat < 128) {b : UInt8}
    (hb : b ∈ String.utf8EncodeChar c) : b = sign sought ↔ c = sought := by
  by_cases hc : c.toNat < 128
  · rw [encode_of_ascii hc, List.mem_singleton] at hb
    rw [hb, sign_eq_sign_iff hc h]
  · refine iff_of_false (ne_sign_of_high (high_of_mem_encode (Nat.not_lt.1 hc) hb) h) ?_
    rintro rfl
    exact hc h

/-- A byte after the encoding of the text before it. -/
theorem getElem?_bytesOf_append (before : List Char) (bytes : List UInt8) :
    (bytesOf before ++ bytes)[byteLength before]? = bytes.head? := by
  rw [List.getElem?_append_right (by simp), length_bytesOf, Nat.sub_self,
    List.head?_eq_getElem?]

theorem drop_bytesOf_append (before : List Char) (bytes : List UInt8) :
    (bytesOf before ++ bytes).drop (byteLength before) = bytes := by
  rw [← length_bytesOf before, List.drop_left]

/-- Bytes that are passed over alike in every character of a kind. -/
theorem skipWhile_eq {p : UInt8 → Bool} {q : Char → Bool}
    (h : ∀ {c b}, b ∈ String.utf8EncodeChar c → (p b ↔ q c)) (before text : List Char) :
    skipWhile p (bytesOf (before ++ text)) (byteLength before)
      = byteLength (before ++ text.takeWhile q) := by
  rw [skipWhile, bytesOf_append, drop_bytesOf_append, byteLength_append, Nat.add_left_cancel_iff]
  induction text with
  | nil => rfl
  | cons c text ih =>
    by_cases hc : q c
    · rw [bytesOf_cons, List.takeWhile_append_of_pos fun b hb => (h hb).2 hc, List.length_append,
        ih, List.takeWhile_cons_of_pos hc, String.length_utf8EncodeChar, byteLength_cons]
    · rw [List.takeWhile_cons_of_neg hc, bytesOf_cons]
      obtain ⟨b, more, hbytes⟩ := List.exists_cons_of_ne_nil (encode_ne_nil c)
      have hb : b ∈ String.utf8EncodeChar c := by simp [hbytes]
      rw [hbytes, List.cons_append, List.takeWhile_cons_of_neg (mt (h hb).1 hc)]
      rfl

end Offset

end StubManager
