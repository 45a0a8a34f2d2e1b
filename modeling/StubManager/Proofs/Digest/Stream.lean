import StubManager.Digest.Directory
import StubManager.Proofs.FileTree.Places

/-!
# The stream of bytes behind a digest

Each file adds its path, a zero byte, its contents and a zero byte to the stream. Main statement:
`stream_inj`, files whose paths hold no backslash and whose paths and contents hold no zero can be
told apart in the stream.
-/

namespace StubManager.Digest

/-! ## Zero bytes -/

theorem zero_not_mem_utf8EncodeChar {c : Char} (h : c ≠ '\x00') :
    0 ∉ String.utf8EncodeChar c := by
  have hval : c.val.toNat ≠ 0 := fun hzero => h (Char.ext (UInt32.toNat_inj.1 hzero))
  have hbyte : ∀ n, 0 < n → n < 256 → 0 ≠ UInt8.ofNat n := by
    intro n hpos hlt heq
    have := congrArg UInt8.toNat heq
    rw [UInt8.toNat_ofNat_of_lt' hlt] at this
    exact absurd this.symm (Nat.pos_iff_ne_zero.1 hpos)
  -- The high bits of each byte of a longer encoding are set.
  unfold String.utf8EncodeChar
  dsimp only
  split_ifs <;> simp only [List.mem_cons, List.not_mem_nil, or_false, not_or]
  · exact hbyte _ (by omega) (by omega)
  all_goals
    refine ⟨?_, ?_⟩
    · exact hbyte _ (by omega) (by omega)
    · first
      | exact hbyte _ (by omega) (by omega)
      | exact ⟨hbyte _ (by omega) (by omega), hbyte _ (by omega) (by omega)⟩
      | exact ⟨hbyte _ (by omega) (by omega), hbyte _ (by omega) (by omega),
          hbyte _ (by omega) (by omega)⟩

theorem zero_not_mem_toUTF8 {text : String} (h : '\x00' ∉ text.toList) :
    0 ∉ text.toUTF8.data.toList := by
  have hbytes : text.toUTF8.data.toList = text.toList.flatMap String.utf8EncodeChar := by
    rw [String.toUTF8, ← String.ofList_toList (s := text), String.toByteArray_ofList]
    simp [List.utf8Encode]
  rw [hbytes, List.mem_flatMap]
  rintro ⟨c, hc, hzero⟩
  exact zero_not_mem_utf8EncodeChar (fun heq => h (heq ▸ hc)) hzero

/-! ## Paths -/

theorem mem_of_mem_intercalate {sep c : Char} {parts : List (List Char)}
    (h : c ∈ [sep].intercalate parts) : c = sep ∨ ∃ part ∈ parts, c ∈ part := by
  induction parts with
  | nil => cases h
  | cons part parts ih =>
    cases parts with
    | nil => exact .inr ⟨part, List.mem_singleton_self part, by simpa [List.intercalate] using h⟩
    | cons second parts =>
      have hcat : [sep].intercalate (part :: second :: parts)
          = part ++ sep :: [sep].intercalate (second :: parts) := by
        simp [List.intercalate]
      rw [hcat, List.mem_append, List.mem_cons] at h
      obtain h | rfl | h := h
      · exact .inr ⟨part, List.mem_cons_self .., h⟩
      · exact .inl rfl
      · obtain heq | ⟨part', hpart', hc⟩ := ih h
        · exact .inl heq
        · exact .inr ⟨part', List.mem_cons_of_mem _ hpart', hc⟩

theorem toList_relativePath {names : List String} (h : ∀ name ∈ names, '\\' ∉ name.toList) :
    (relativePath names).toList = ['/'].intercalate (names.map String.toList) := by
  rw [relativePath, String.toList_map, String.toList_intercalate]
  refine (List.map_congr_left fun c hc => if_neg ?_).trans (List.map_id _)
  rintro rfl
  obtain heq | ⟨part, hpart, hc⟩ := mem_of_mem_intercalate hc
  · cases heq
  · obtain ⟨name, hname, rfl⟩ := List.mem_map.1 hpart
    exact h name hname hc

/-- Without backslashes a path tells the names on it apart. -/
theorem relativePath_inj {names names' : List String} (hne : names ≠ []) (hne' : names' ≠ [])
    (hslash : ∀ name ∈ names ++ names', '/' ∉ name.toList)
    (hbackslash : ∀ name ∈ names ++ names', '\\' ∉ name.toList)
    (h : relativePath names = relativePath names') : names = names' := by
  rw [List.forall_mem_append] at hslash hbackslash
  have hsplit : ∀ {names : List String}, names ≠ [] → (∀ name ∈ names, '/' ∉ name.toList) →
      Text.splitAt '/' (['/'].intercalate (names.map String.toList)) = names.map String.toList := by
    intro names hne hslash
    obtain ⟨first, more, rfl⟩ := List.exists_cons_of_ne_nil hne
    refine Text.splitAt_intercalate ?_
    rw [← List.map_cons, List.forall_mem_map]
    exact hslash
  have htext : Text.splitAt '/' (relativePath names).toList
      = Text.splitAt '/' (relativePath names').toList := by rw [h]
  rw [toList_relativePath hbackslash.1, toList_relativePath hbackslash.2, hsplit hne hslash.1,
    hsplit hne' hslash.2] at htext
  exact (List.map_inj_right fun _ _ => String.toList_inj.1).1 htext

/-! ## Files in the stream -/

/-- Whether the stream can tell a file apart from others: its path holds no backslash and neither
its path nor its contents hold a zero. -/
def Framed (file : List String × ByteArray) : Prop :=
  (∀ name ∈ file.1, '\\' ∉ name.toList ∧ '\x00' ∉ name.toList) ∧ 0 ∉ file.2.data

instance (file : List String × ByteArray) : Decidable (Framed file) :=
  inferInstanceAs (Decidable (_ ∧ _))

/-- A file of a tree has a path of proper names. -/
def IsPath (names : List String) : Prop := names ≠ [] ∧ ∀ name ∈ names, IsName name

theorem toList_filePart (file : List String × ByteArray) :
    (filePart file).data.toList
      = (relativePath file.1).toUTF8.data.toList ++ 0 :: (file.2.data.toList ++ [0]) := by
  simp [filePart]

theorem toList_stream (files : List (List String × ByteArray)) :
    (stream files).data.toList = files.flatMap fun file => (filePart file).data.toList := by
  have hfold : ∀ bytes : ByteArray,
      (files.foldl (fun bytes file => bytes ++ filePart file) bytes).data.toList
        = bytes.data.toList ++ files.flatMap fun file => (filePart file).data.toList := by
    induction files with
    | nil => simp
    | cons file files ih => simp [ih]
  simpa [stream] using hfold ByteArray.empty

theorem zero_not_mem_relativePath {names : List String}
    (h : ∀ name ∈ names, '\\' ∉ name.toList ∧ '\x00' ∉ name.toList) :
    0 ∉ (relativePath names).toUTF8.data.toList := by
  refine zero_not_mem_toUTF8 fun hzero => ?_
  rw [toList_relativePath fun name hname => (h name hname).1] at hzero
  obtain heq | ⟨part, hpart, hc⟩ := mem_of_mem_intercalate hzero
  · cases heq
  · obtain ⟨name, hname, rfl⟩ := List.mem_map.1 hpart
    exact (h name hname).2 hc

/-- A first zero is at one place. -/
theorem append_zero_inj {front front' back back' : List UInt8} (h : 0 ∉ front) (h' : 0 ∉ front')
    (heq : front ++ 0 :: back = front' ++ 0 :: back') : front = front' ∧ back = back' := by
  induction front generalizing front' with
  | nil =>
    cases front' with
    | nil => exact ⟨rfl, (List.cons.inj heq).2⟩
    | cons byte front' =>
      obtain ⟨rfl, -⟩ := List.cons.inj heq
      exact absurd (List.mem_cons_self ..) h'
  | cons byte front ih =>
    cases front' with
    | nil =>
      obtain ⟨rfl, -⟩ := List.cons.inj heq
      exact absurd (List.mem_cons_self ..) h
    | cons byte' front' =>
      rw [List.mem_cons, not_or] at h h'
      obtain ⟨rfl, htail⟩ := List.cons.inj heq
      obtain ⟨rfl, hback⟩ := ih h.2 h'.2 htail
      exact ⟨rfl, hback⟩

/-- The first zero byte ends the path of the first file, and the next one its contents. -/
theorem stream_inj {files files' : List (List String × ByteArray)}
    (h : ∀ file ∈ files, IsPath file.1 ∧ Framed file)
    (h' : ∀ file ∈ files', IsPath file.1 ∧ Framed file) (heq : stream files = stream files') :
    files = files' := by
  replace heq := congrArg (·.data.toList) heq
  simp only [toList_stream] at heq
  induction files generalizing files' with
  | nil =>
    cases files' with
    | nil => rfl
    | cons file files' => simp [toList_filePart] at heq
  | cons file files ih =>
    cases files' with
    | nil => simp [toList_filePart] at heq
    | cons file' files' =>
      rw [List.forall_mem_cons] at h h'
      obtain ⟨⟨hpath, hnames, hcontents⟩, hfiles⟩ := h
      obtain ⟨⟨hpath', hnames', hcontents'⟩, hfiles'⟩ := h'
      rw [List.flatMap_cons, List.flatMap_cons, toList_filePart, toList_filePart] at heq
      simp only [List.append_assoc, List.cons_append, List.nil_append] at heq
      obtain ⟨hpaths, htail⟩ := append_zero_inj (zero_not_mem_relativePath hnames)
        (zero_not_mem_relativePath hnames') heq
      obtain ⟨hdata, hrest⟩ := append_zero_inj (by simpa using hcontents)
        (by simpa using hcontents') htail
      have hname : file.1 = file'.1 := by
        refine relativePath_inj hpath.1 hpath'.1 ?_ ?_ (String.toByteArray_inj.1 ?_)
        · exact List.forall_mem_append.2
            ⟨fun name hname => (hpath.2 name hname).2.2.2,
              fun name hname => (hpath'.2 name hname).2.2.2⟩
        · exact List.forall_mem_append.2
            ⟨fun name hname => (hnames name hname).1, fun name hname => (hnames' name hname).1⟩
        · exact ByteArray.ext (Array.toList_inj.1 hpaths)
      have hcontents : file.2 = file'.2 := ByteArray.ext (Array.toList_inj.1 hdata)
      rw [Prod.ext hname hcontents, ih hfiles hfiles' hrest]

end StubManager.Digest
