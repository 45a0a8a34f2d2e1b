import StubManager.Proofs.Registry.Saving
import StubManager.Proofs.Timestamp
import StubManager.Proofs.Yaml.Entry
import StubManager.Proofs.Yaml.Node
import StubManager.Registry.Record

/-!
# Reading an index that was written

An index is a mapping with one sequence of mappings, so its tokens are those of its records one
after the other (`tokens?_render`), and these are put together and taken apart as they are. Main
statement: `Registry.load_of_rendered`, a registry is loaded as the records that its index was
written for, but for leap seconds within a minute.
-/

namespace StubManager.Index

open Yaml Yaml.Layout

/-- The keys and texts of a record, in the order in which they are written. -/
def fields (record : Record) : List (String × String) :=
  [("name", record.name), ("firmware", record.firmware)]
    ++ record.version.toList.map ("firmware_version", ·)
    ++ [("source", record.source), ("installed_at", record.installed.render)]

theorem recordText_eq (record : Record) :
    recordText record = '-' :: ' ' :: [' ', ' '].intercalate
      ((fields record).map fun (key, text) => Scalar.entry key text) := rfl

theorem isKey_of_mem_fields {record : Record} : ∀ field ∈ fields record, isKey field.1.toList := by
  intro field hfield
  have hkeys : field.1 ∈ ["name", "firmware", "firmware_version", "source", "installed_at"] := by
    simp only [fields, List.mem_append, List.mem_cons, List.mem_map, List.not_mem_nil, or_false]
      at hfield
    rcases hfield with ((rfl | rfl) | ⟨version, -, rfl⟩) | rfl | rfl <;> simp
  have hall : ∀ key ∈ ["name", "firmware", "firmware_version", "source", "installed_at"],
      isKey key.toList := by decide
  exact hall _ hkeys

theorem fields_ne_nil (record : Record) : fields record ≠ [] := by simp [fields]

/-! ## Tokens -/

/-- The tokens of a record. -/
def recordTokens (record : Record) : List Token :=
  [.blockEntry, .blockMappingStart] ++ (fields record).flatMap entryTokens ++ [.blockEnd]

variable {c : Cursor} {tokens : List Token} {rest : List Char}

/-- The blocks that are open at the start of a line. `within` says that a record comes before. -/
def outerBlocks (within : Bool) : List Nat := if within then [2, 0] else [0]

/-- The tokens that close a record before the line. -/
def closed (within : Bool) : List Token := if within then [.blockEnd] else []

theorem closeBlocks_of_margin (hcolumn : c.column = 0) (within : Bool) :
    (between c tokens (outerBlocks within) true).closeBlocks (· ≤ c.column)
      = between c (closed within ++ tokens) [0] true := by
  cases within <;> simp [closeBlocks, between, outerBlocks, closed, inFlow, hcolumn]

theorem step?_of_hyphen (hcolumn : c.column = 0) (hc : c.rest = '-' :: ' ' :: rest) :
    (between c tokens [0] true).step?
      = some (between (c.skip 1) (.blockEntry :: tokens) [0] true) := by
  have hmark : c.atDocumentMark = false := by simp [Cursor.atDocumentMark, hc]
  have hspaced : c.spacedAfter 1 := by simp [Cursor.spacedAfter, hc]
  simp [step?, between, hc, hmark, hspaced, hcolumn, blockItem?, inFlow, openBlock, contentColumn,
    dropKey?, sign, push, guard]

theorem finishes_of_end (hc : c.rest = []) (hcolumn : c.column = 0) (within : Bool) :
    (between c tokens (outerBlocks within) true).Finishes
      (tokens.reverse ++ closed within ++ [.blockEnd]) := by
  have hspaced : (between c tokens (outerBlocks within) true).spaced
      = between c tokens (outerBlocks within) true :=
    spaced_of_begins (by simp [between, hc, Begins])
  have hmargin : (between c (closed within ++ tokens) [0] true).atMargin?
      = some (between c (.blockEnd :: (closed within ++ tokens)) [] false) := by
    simp [between, atMargin?, closeBlocks, inFlow, dropKey?]
  have hfinishes := Finishes.of_end hspaced (dropStale?_of_none rfl rfl)
    (closeBlocks_of_margin hcolumn within) (by simp [between, Cursor.atEnd, hc]) hmargin
  have htokens : (between c (.blockEnd :: (closed within ++ tokens)) [] false).tokens.reverse
      = tokens.reverse ++ closed within ++ [.blockEnd] := by
    cases within <;> simp [between, closed]
  rwa [htokens] at hfinishes

theorem begins_of_records (records : List Record) : Begins (records.flatMap recordText) := by
  cases records with
  | nil => simp [Begins]
  | cons record records => simp [Begins, recordText_eq, isSpacing, isGap, isBreak]

/-- The hyphen of a record is read, behind the end of the record before. -/
theorem finishes_of_hyphen {all : List Token} {within : Bool} (hcolumn : c.column = 0)
    (hc : c.rest = '-' :: ' ' :: rest) (hrest : Begins rest)
    (h : (between (c.skip 2) (.blockEntry :: (closed within ++ tokens)) [0] true).Finishes all) :
    (between c tokens (outerBlocks within) true).Finishes all := by
  have hbegins : Begins c.rest := by simp [hc, Begins, isSpacing, isGap, isBreak]
  have hskip : (c.skip 1).rest = List.replicate 1 ' ' ++ rest := by simp [hc]
  have hentry : (between (c.skip 1) (.blockEntry :: (closed within ++ tokens)) [0] true).Finishes
      all := by
    refine Finishes.of_spaced h ?_ (by simp [between, hc])
    rw [spaced_of_spaces hrest hskip, spaced_of_begins (by simpa [between, hc] using hrest)]
    simp [between]
  exact Finishes.of_step hentry (spaced_of_begins hbegins) (dropStale?_of_none rfl rfl)
    (closeBlocks_of_margin hcolumn within) (by simp [between, Cursor.atEnd, hc])
    (step?_of_hyphen hcolumn hc) (by simp [between, hc])

/-- The records up to the end of the text. -/
theorem finishes_of_records (records : List Record) (within : Bool)
    (hc : c.rest = records.flatMap recordText) (hcolumn : c.column = 0) :
    (between c tokens (outerBlocks within) true).Finishes
      (tokens.reverse ++ closed within ++ records.flatMap recordTokens ++ [.blockEnd]) := by
  induction records generalizing c tokens within with
  | nil => simpa using finishes_of_end hc hcolumn within
  | cons record records ih =>
    rw [List.flatMap_cons, recordText_eq, List.cons_append, List.cons_append] at hc
    refine finishes_of_hyphen hcolumn hc
      (begins_of_entries (fields_ne_nil record) isKey_of_mem_fields _) ?_
    have hopening : opening 2 [0] = ([.blockMappingStart], [2, 0]) := rfl
    refine Finishes.of_entries (fields_ne_nil record) isKey_of_mem_fields (by simp [hc])
      (begins_of_records records) (by simp [hcolumn]) (by simp) (by rw [hopening])
      fun c' hrest' hcolumn' => ?_
    have htokens : (((fields record).flatMap entryTokens).reverse
          ++ (opening 2 [0]).1 ++ .blockEntry :: (closed within ++ tokens)).reverse ++ closed true
          ++ records.flatMap recordTokens ++ [.blockEnd]
        = tokens.reverse ++ closed within ++ (record :: records).flatMap recordTokens
          ++ [.blockEnd] := by
      cases within <;> simp [hopening, closed, recordTokens]
    rw [← htokens]
    exact ih true hrest' hcolumn'

theorem isAllowed_of_mem_recordText {record : Record} : ∀ ch ∈ recordText record, isAllowed ch := by
  rw [recordText_eq]
  simp only [List.mem_cons]
  rintro ch (rfl | rfl | hch)
  · rfl
  · rfl
  · exact isAllowed_of_mem_entries isKey_of_mem_fields ch hch

/-- The tokens of an index of at least one record. -/
theorem tokens?_render {records : List Record} (hne : records ≠ []) :
    tokens? (render records).toList
      = some ([.blockMappingStart, .key, .scalar "stubs".toList true, .value]
          ++ records.flatMap recordTokens ++ [.blockEnd]) := by
  have htext : (render records).toList
      = "stubs".toList ++ ':' :: '\n' :: records.flatMap recordText := by
    simp [render, hne]
  have hallowed : (render records).toList.all isAllowed := by
    rw [htext, List.all_eq_true]
    have hkey := List.all_eq_true.1 (by decide : "stubs".toList.all isAllowed)
    simp only [List.mem_append, List.mem_cons, List.mem_flatMap]
    rintro ch (hch | rfl | rfl | ⟨record, -, hch⟩)
    · exact hkey ch hch
    · rfl
    · rfl
    · exact isAllowed_of_mem_recordText ch hch
  have hfinishes : (between (.ofText (render records).toList) [] [] true).Finishes
      ([.blockMappingStart, .key, .scalar "stubs".toList true, .value]
        ++ records.flatMap recordTokens ++ [.blockEnd]) := by
    have hkey : isKey "stubs".toList := by decide
    have hskip : ((Cursor.ofText (render records).toList).skip ("stubs".toList.length + 1)).rest
        = '\n' :: (List.replicate 0 ' ' ++ records.flatMap recordText) := by
      rw [Cursor.skip_rest]
      change (render records).toList.drop _ = _
      rw [htext]
      rfl
    refine Finishes.of_key hkey (by rfl) htext (by simp) ?_
    generalize (Cursor.ofText (render records).toList).skip ("stubs".toList.length + 1) = c at hskip
    have hline : (c.nextLine 1).rest = records.flatMap recordText := by simp [hskip]
    have hrecords : (between (c.nextLine 1) [.value, .scalar "stubs".toList true, .key,
        .blockMappingStart] (outerBlocks false) true).Finishes _ :=
      finishes_of_records records false hline rfl
    refine Finishes.of_spaced hrecords ?_ (by simp [between, hskip])
    rw [spaced_of_break rfl (begins_of_records records) hskip,
      spaced_of_begins (by simpa [between, hskip] using begins_of_records records)]
    rfl
  rw [tokens?, if_pos hallowed]
  exact hfinishes _ (Nat.lt_succ_self _)

/-! ## Nodes -/

/-- The scalars of a record. -/
def scalars (record : Record) : List (List Char × List Char × Bool) :=
  (fields record).map fun (key, text) =>
    (key.toList, text.toList, Scalar.style text.toList = .plain)

theorem recordTokens_eq : recordTokens = fun record => Compose.mappingItem (scalars record) := by
  funext record
  rw [recordTokens, Compose.mappingItem, scalars, List.flatMap_map]
  rfl

/-- The document of an index of at least one record. -/
def document (records : List Record) : Document where
  root := some (.mapping none [(.scalar none none "stubs".toList true,
    .sequence none ((records.map scalars).map Compose.mappingNode))])

theorem documentParse?_render {records : List Record} (hne : records ≠ []) :
    Document.parse? (render records) = some (document records) := by
  have htokens := tokens?_render hne
  rw [recordTokens_eq, ← List.flatMap_map] at htokens
  rw [Document.parse?, htokens]
  simp only [Option.bind_eq_bind, Option.bind_some,
    Compose.ofTokens?_of_mappings (mt List.map_eq_nil_iff.1 hne)]
  rfl

/-! ## Records -/

section

variable {document : Document}

theorem entries?_mappingNode (entries : List (List Char × List Char × Bool)) :
    document.entries? (Compose.mappingNode entries)
      = some (entries.map fun (key, text, plain) =>
          (String.ofList key, .scalar none none text plain)) := by
  have hentry : ∀ entry : List Char × List Char × Bool,
      (document.text? (Compose.entryNode entry).1).map (·, (Compose.entryNode entry).2)
        = some (String.ofList entry.1, .scalar none none entry.2.1 entry.2.2) := fun _ => rfl
  change (entries.map Compose.entryNode).mapM _ = _
  induction entries with
  | nil => rfl
  | cons entry entries ih =>
    rw [List.map_cons, List.mapM_cons, ih]
    rfl

/-- A text that was written is not taken for nothing. -/
theorem optionalMember?_of_member {key : String} {entries : List (String × Yaml.Node)}
    {text : List Char}
    (h : Document.member? key entries
      = some (some (.scalar none none text (Scalar.style text = .plain)))) :
    document.optionalMember? key entries = some (some (String.ofList text)) := by
  have hthing : document.isNothing? (.scalar none none text (Scalar.style text = .plain))
      = some false := by
    by_cases hstyle : Scalar.style text = .plain
    · have hother := (plain_of_style hstyle).1
      simp only [Scalar.looksOther, Bool.or_eq_false_iff] at hother
      have hword : ∀ word ∈ ["", "null", "Null", "NULL", "~"], String.ofList text ≠ word := by
        rintro word hword heq
        have hwords : ∀ word ∈ ["", "null", "Null", "NULL", "~"], Scalar.words.contains word := by
          decide
        rw [heq, hwords word hword] at hother
        exact absurd hother.1.1.1 (by decide)
      have hne : text ≠ [] := (plainText_of_style hstyle).ne_nil
      simp only [List.mem_cons, List.not_mem_nil, or_false, forall_eq_or_imp, forall_eq] at hword
      simp [Document.isNothing?, Document.resolve, hstyle, hne, Document.isNull, hword]
    · simp [Document.isNothing?, Document.resolve, hstyle]
  simp [Document.optionalMember?, h, Document.optional?, hthing, Document.text?, Document.resolve]

theorem recordOf?_mappingNode {record : Record} (h : record.installed.isValid) :
    recordOf? document (Compose.mappingNode (scalars record)) = some record := by
  have htime := Timestamp.parse?_render h
  obtain ⟨name, firmware, version, source, installed⟩ := record
  rw [recordOf?, entries?_mappingNode, Option.bind_eq_bind, Option.bind_some]
  cases version with
  | none =>
    simp [scalars, fields, Document.required?, Document.optionalMember?, Document.member?,
      Document.text?, Document.resolve, htime]
  | some version =>
    have hmember : Document.member? "firmware_version"
          ((scalars ⟨name, firmware, some version, source, installed⟩).map fun (key, text, plain) =>
            (String.ofList key, Yaml.Node.scalar none none text plain))
        = some (some (.scalar none none version.toList
            (Scalar.style version.toList = .plain))) := by
      simp [scalars, fields, Document.member?]
    rw [optionalMember?_of_member hmember]
    simp [scalars, fields, Document.required?, Document.member?, Document.text?, Document.resolve,
      htime]

end

/-- An index is read as the records it was written for, if texts have their times. -/
theorem parse?_render {records : List Record} (h : ∀ record ∈ records, record.installed.isValid) :
    parse? (render records) = some records := by
  by_cases hne : records = []
  · subst hne
    decide +kernel
  have hrecords : ∀ document, ((records.map scalars).map Compose.mappingNode).mapM
      (recordOf? document) = some records := by
    intro document
    clear hne
    induction records with
    | nil => rfl
    | cons record records ih =>
      rw [List.forall_mem_cons] at h
      rw [List.map_cons, List.map_cons, List.mapM_cons, recordOf?_mappingNode h.1, ih h.2]
      rfl
  rw [parse?, documentParse?_render hne, Option.bind_eq_bind, Option.bind_some]
  exact hrecords (document records)

/-! ## Leap seconds within a minute -/

/-- What is read of a record. -/
def reread (record : Record) : Record := { record with installed := record.installed.reread }

theorem recordText_reread (record : Record) : recordText (reread record) = recordText record := by
  have hfields : fields (reread record) = fields record := by
    simp only [fields, reread, Timestamp.render_reread]
  rw [recordText_eq, recordText_eq, hfields]

theorem render_reread (records : List Record) : render (records.map reread) = render records := by
  simp only [render, List.isEmpty_map, List.flatMap_map, recordText_reread]

theorem isValid_of_mem_reread {records : List Record}
    (h : ∀ record ∈ records, record.installed.isHeld) :
    ∀ record ∈ records.map reread, record.installed.isValid :=
  List.forall_mem_map.2 fun record hrecord => Timestamp.isValid_reread (h record hrecord)

/-- Every index is read, with leap seconds within a minute taken for the seconds behind them. -/
theorem parse?_render_of_isHeld {records : List Record}
    (h : ∀ record ∈ records, record.installed.isHeld) :
    parse? (render records) = some (records.map reread) := by
  rw [← render_reread, parse?_render (isValid_of_mem_reread h)]

theorem map_reread_eq_iff {records : List Record}
    (h : ∀ record ∈ records, record.installed.isHeld) :
    records.map reread = records ↔ ∀ record ∈ records, record.installed.isValid := by
  induction records with
  | nil => simp
  | cons record records ih =>
    rw [List.forall_mem_cons] at h
    have htime : reread record = record ↔ record.installed.reread = record.installed :=
      ⟨congrArg Record.installed,
        fun heq => congrArg (fun time => { record with installed := time }) heq⟩
    rw [List.map_cons, List.cons.injEq, ih h.2, htime, Timestamp.reread_eq_iff h.1,
      List.forall_mem_cons]

end StubManager.Index

namespace StubManager.Registry

open Node

/-- Whatever the texts of the records are, an index that was written for them is loaded, and so are
they after they were saved. The records are the same exactly if texts have their times, that is if
no leap second is within a minute; such a one is taken for the second behind it. -/
theorem load_of_rendered {records : List Record}
    (h : ∀ record ∈ records, record.installed.isHeld) :
    (∀ home w, w.contents? (home.join fileName) = some (Index.render records).toUTF8 →
      load home w = (.ok { home, records := records.map Index.reread }, w)) ∧
    (∀ home w w', Settled home w → ({ home, records } : Registry).save w = (.ok (), w') →
      load home w' = (.ok { home, records := records.map Index.reread }, w')) ∧
    (records.map Index.reread = records ↔ ∀ record ∈ records, record.installed.isValid) := by
  have hread := Index.parse?_render_of_isHeld h
  have hload : ∀ home w, w.contents? (home.join fileName) = some (Index.render records).toUTF8 →
      load home w = (.ok { home, records := records.map Index.reread }, w) := by
    intro home w hindex
    have hsaved : Saved ⟨w, { home, records := records.map Index.reread }⟩ := by
      rw [← Index.render_reread] at hindex
      exact hindex
    exact hsaved.load (Index.render_reread records ▸ hread)
  refine ⟨hload, fun home w w' hsettled hsave => ?_, Index.map_reread_eq_iff h⟩
  obtain ⟨result, w'', hrun, hresult⟩ := @save_cases _ { home, records } hsettled
  obtain ⟨rfl, rfl⟩ : (.ok () : Except Failure Unit) = result ∧ w' = w'' :=
    Prod.mk.inj (hsave.symm.trans hrun)
  exact hload home w' hresult.2

/-- Texts that other readers take for something else, and a leap second. -/
def oddRecords : List Record :=
  let leap : Timestamp :=
    { year := 2016, month := 12, day := 31, hour := 23, minute := 59, second := 59,
      nanosecond := 1500000000 }
  [{ name := "it's: \"x\" # y", firmware := "~", version := some "1.20", source := " a\n\n  b\n",
     installed := leap },
   { name := "2024-01-01", firmware := "0x1f", version := some "", source := "no",
     installed := { leap with year := 0, nanosecond := 1000 } },
   { name := "- a", firmware := "\u00e9\t", source := "\u2028",
     installed := { leap with year := 9999, nanosecond := 0 } }]

/-- A directory to keep an index in. -/
def bareWorld : World where
  root := .directory [("h", .directory [])]
  cwd := []
  tempDir := ⟨"t"⟩
  clock := default

/-- Such records are saved and loaded. -/
theorem load_of_rendered_odd :
    ∃ w, ({ home := ⟨"h"⟩, records := oddRecords } : Registry).save bareWorld = (.ok (), w) ∧
      load ⟨"h"⟩ w = (.ok { home := ⟨"h"⟩, records := oddRecords }, w) := by
  have hplain : bareWorld.root.Plain := by
    refine plain_directory_iff.2 ⟨?_, by decide +kernel⟩
    simp [plain_directory_iff, IsName]
  have hvalid : ∀ record ∈ oddRecords, record.installed.isHeld ∧ record.installed.isValid := by
    decide +kernel
  have hsettled : Settled ⟨"h"⟩ bareWorld := .of_straight hplain (by decide +kernel) ⟨_, rfl⟩
  obtain ⟨result, w, hsave, hresult⟩ :=
    @save_cases _ { home := ⟨"h"⟩, records := oddRecords } hsettled
  have hok : (({ home := ⟨"h"⟩, records := oddRecords } : Registry).save bareWorld).1 = .ok () := by
    decide +kernel
  obtain rfl : result = .ok () := by
    rwa [hsave] at hok
  obtain ⟨-, hloaded, hsame⟩ := load_of_rendered fun record hrecord => (hvalid record hrecord).1
  have hload := hloaded _ _ _ hsettled hsave
  rw [hsame.2 fun record hrecord => (hvalid record hrecord).2] at hload
  exact ⟨w, hsave, hload⟩

/-- A leap second behind the fifth second of a minute. -/
def leapRecord : Record :=
  { name := "x", firmware := "f", source := "s"
    installed := ⟨2015, 6, 30, 23, 56, 4, 1333333333⟩ }

/-- It can be held, but after it was saved the second behind it is loaded. -/
theorem load_of_rendered_ne :
    leapRecord.installed.isHeld ∧
      (({ home := ⟨"h"⟩, records := [leapRecord] } : Registry).save bareWorld).1 = .ok () ∧
      (load ⟨"h"⟩ (({ home := ⟨"h"⟩, records := [leapRecord] } : Registry).save bareWorld).2).1
        = .ok { home := ⟨"h"⟩, records :=
            [{ leapRecord with installed := ⟨2015, 6, 30, 23, 56, 5, 333333333⟩ }] } ∧
      [{ leapRecord with installed := ⟨2015, 6, 30, 23, 56, 5, 333333333⟩ }] ≠ [leapRecord] := by
  decide +kernel

end StubManager.Registry
