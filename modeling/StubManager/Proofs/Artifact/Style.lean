import Mathlib.Data.List.Infix
import StubManager.Proofs.Artifact.Application
import StubManager.Proofs.ListText.Style

/-!
# Style under a change set

The style of a list is found anew before every single edit. Main statement: `apply_style`, a change
set keeps the comma behind the last element, and all that it adds goes by the quotes, the lines and
the separator that the list has after the removals.
-/

namespace StubManager

open Text

namespace ListText

variable {list : ListText}

theorem quotes_congr {elements elements' : List Element}
    (h : elements.map Element.raw = elements'.map Element.raw) :
    quotes elements = quotes elements' := by
  have hstyle : ∀ elements : List Element, elements.findSome? Element.style?
      = (elements.map Element.raw).findSome? fun raw =>
          Element.style? { raw, comma := false } := by
    intro elements
    rw [List.findSome?_map]
    rfl
  rw [quotes, quotes, hstyle, hstyle, h]

/-- What a run of additions makes of a list whose last element is known. -/
structure Extended (list : ListText) (before : List Element) (last : Element)
    (list' : ListText) (last' : Element) (added : List Element) : Prop where
  head : list'.head = list.head
  elements : list'.elements = before ++ last' :: added
  lead : last'.lead = last.lead
  raw : last'.raw = last.raw
  comma : list'.lastComma? = some last.comma
  /-- Above a bracket with a line of its own nothing but a comma is put behind the last element, and
  what is added starts behind the end of its line. -/
  below : '\n' ∈ list.trail → last'.tail = last.tail ∧
    ∃ more, gapAfter added list'.trail = firstLine list.trail ++ '\n' :: more
  quotes : ∀ front e back, added = front ++ e :: back →
    e.raw = (quotes (before ++ last' :: front)).encode e.value.toList
  follows : ∀ front e back, added = front ++ e :: back →
    ∃ others previous, before ++ last' :: front = others ++ [previous] ∧
      ('\n' ∈ list.trail → FollowsBelow list' others previous e back) ∧
      ('\n' ∉ list.trail → FollowsBeside (inlineSeparator before last) previous e)

namespace Extended

variable {before : List Element} {last : Element} {name : String}

theorem nil (helements : list.elements = before ++ [last]) :
    Extended list before last list last [] where
  head := rfl
  elements := helements
  lead := rfl
  raw := rfl
  comma := by simp [lastComma?, helements]
  below hbreak := ⟨rfl, _, (firstLine_append_break hbreak).symm⟩
  quotes := by simp
  follows := by simp

/-- One addition before a run of them. -/
theorem cons {middle list' : ListText} {closed e e' : Element} {added : List Element}
    (hname : '\n' ∉ name.toList) (helements : list.elements = before ++ [last])
    (h : Extended middle (before ++ [closed]) e list' e' added)
    (hclosed : closed.lead = last.lead ∧ closed.raw = last.raw)
    (hraw : e.raw = list.style.encode name.toList) (hcomma : e.comma = last.comma)
    (hhead : middle.head = list.head) (hbreak : '\n' ∈ middle.trail ↔ '\n' ∈ list.trail)
    (hbelow : '\n' ∈ list.trail → closed.tail = last.tail ∧
      (∃ more, e.lead = firstLine list.trail ++ '\n' :: more) ∧
      FollowsBelow list' before closed e' added)
    (hbeside : '\n' ∉ list.trail →
      inlineSeparator (before ++ [closed]) e = inlineSeparator before last ∧
      FollowsBeside (inlineSeparator before last) closed e') :
    Extended list before last list' closed (e' :: added) := by
  have hquotes : ListText.quotes (before ++ [closed]) = list.style := by
    have hraws : (before ++ [closed]).map Element.raw = list.elements.map Element.raw := by
      simp [helements, hclosed.2]
    exact quotes_congr hraws
  have hsplit : ∀ front, (before ++ [closed]) ++ e' :: front = before ++ closed :: e' :: front :=
    fun front => by simp
  refine ⟨h.head.trans hhead, h.elements.trans (hsplit added), hclosed.1, hclosed.2,
    hcomma ▸ h.comma, fun hlines => ⟨(hbelow hlines).1, ?_⟩, ?_, ?_⟩
  · obtain ⟨more, hlead⟩ := (hbelow hlines).2.1
    exact ⟨more, h.lead.trans hlead⟩
  · rintro (_ | ⟨first, front⟩) x back heq
    · obtain ⟨rfl, rfl⟩ := List.cons.inj heq
      have hvalue : e'.value = name := by
        rw [← valueOf_raw, h.raw, hraw, valueOf_encode list.style hname]
      rw [hquotes, hvalue, h.raw, hraw]
    · obtain ⟨rfl, rfl⟩ := List.cons.inj heq
      rw [← hsplit]
      exact h.quotes front x back rfl
  · rintro (_ | ⟨first, front⟩) x back heq
    · obtain ⟨rfl, rfl⟩ := List.cons.inj heq
      exact ⟨before, closed, rfl, fun hlines => (hbelow hlines).2.2,
        fun hline => (hbeside hline).2⟩
    · obtain ⟨rfl, rfl⟩ := List.cons.inj heq
      obtain ⟨others, previous, hothers, hlines, hline⟩ := h.follows front x back rfl
      rw [hsplit] at hothers
      exact ⟨others, previous, hothers, fun hmem => hlines (hbreak.2 hmem),
        fun hmem => (hbeside hmem).1 ▸ hline (mt hbreak.1 hmem)⟩

/-- An addition above a bracket with a line of its own. -/
theorem cons_of_lines {list' : ListText} {e' : Element} {added : List Element}
    (hname : '\n' ∉ name.toList) (helements : list.elements = before ++ [last])
    (hbreak : '\n' ∈ list.trail)
    (h : Extended (list.append (list.style.encode name.toList))
      (before ++ [{ last with comma := true }])
      { lead := firstLine list.trail ++ '\n' :: list.itemIndentation before last,
        raw := list.style.encode name.toList, comma := last.comma } list' e' added) :
    Extended list before last list' { last with comma := true } (e' :: added) := by
  have happend := append_of_lines helements hbreak (list.style.encode name.toList)
  have htrail : (list.append (list.style.encode name.toList)).trail = fromFirstBreak list.trail := by
    rw [happend]
  have hmem : '\n' ∈ (list.append (list.style.encode name.toList)).trail := by
    rw [htrail, fromFirstBreak_eq_cons hbreak]
    exact List.mem_cons_self
  have hindent := list.isBlankText_itemIndentation before last
  have hline : list'.lineBefore (before ++ [{ last with comma := true }]) e'
      = list.itemIndentation before last := by
    rw [lineBefore, h.lead, ← List.append_assoc]
    exact (lastLine_append_break _ (not_mem_of_isBlankText hindent)).1
  obtain ⟨htail, more, hgap⟩ := h.below hmem
  refine h.cons hname helements ⟨rfl, rfl⟩ rfl rfl (head_append ..) (iff_of_true hmem hbreak)
    (fun _ => ⟨rfl, ⟨_, rfl⟩, hline ▸ hindent, fun hblank => ?_, htail, ?_⟩)
    (fun hnot => absurd hbreak hnot)
  · rw [lineBefore, h.head, head_append] at hblank
    rw [hline, lineBefore, h.head, head_append]
    exact if_pos hblank
  · rw [hgap, htrail, fromFirstBreak_eq_cons hbreak]
    rfl

/-- An addition on the line of the last element. -/
theorem cons_of_line {list' : ListText} {e' : Element} {added : List Element}
    (hname : '\n' ∉ name.toList) (helements : list.elements = before ++ [last])
    (hbreak : '\n' ∉ list.trail)
    (h : Extended (list.append (list.style.encode name.toList))
      (before ++ [{ last with tail := [], comma := true }])
      { lead := inlineSeparator before last, raw := list.style.encode name.toList,
        tail := last.tail, comma := last.comma } list' e' added) :
    Extended list before last list' { last with tail := [], comma := true } (e' :: added) := by
  have hseparator := not_mem_inlineSeparator before last
  have htrail : (list.append (list.style.encode name.toList)).trail = list.trail := by
    rw [append_of_line helements hbreak]
  refine h.cons hname helements ⟨rfl, rfl⟩ rfl rfl (head_append ..) (by rw [htrail])
    (fun hmem => absurd hmem hbreak) (fun _ => ⟨?_, rfl, h.lead, hseparator⟩)
  simp [inlineSeparator.eq_def (before ++ _), hseparator]

end Extended

/-- A run of additions of names without line feeds goes by the style of the list. -/
theorem extended_foldl {before : List Element} {last : Element} {names : List String}
    (helements : list.elements = before ++ [last]) (hnames : ∀ name ∈ names, '\n' ∉ name.toList) :
    ∃ last' added, Extended list before last (names.foldl extend list) last' added := by
  induction names generalizing list before last with
  | nil => exact ⟨last, [], .nil helements⟩
  | cons name names ih =>
    rw [List.forall_mem_cons] at hnames
    rw [List.foldl_cons]
    by_cases hmem : name ∈ list.values
    · rw [extend_of_mem hmem]
      exact ih helements hnames.2
    rw [extend, if_neg hmem]
    by_cases hbreak : '\n' ∈ list.trail
    · obtain ⟨e', added, h⟩ := ih (congrArg ListText.elements
        (append_of_lines helements hbreak (list.style.encode name.toList))) hnames.2
      exact ⟨_, _, h.cons_of_lines hnames.1 helements hbreak⟩
    · obtain ⟨e', added, h⟩ := ih (congrArg ListText.elements
        (append_of_line helements hbreak (list.style.encode name.toList))) hnames.2
      exact ⟨_, _, h.cons_of_line hnames.1 helements hbreak⟩

/-- Removals keep the comma behind the last element, as long as there is one. -/
theorem lastComma?_foldl_remove (h : list.Tiled) {names : List String}
    (hstays : ∀ front, front <+: names → (front.foldl ListText.remove list).elements ≠ []) :
    (names.foldl ListText.remove list).lastComma? = list.lastComma? := by
  induction names generalizing list with
  | nil => rfl
  | cons name names ih =>
    have hfirst := hstays [name] (List.prefix_cons_iff.2 (.inr ⟨[], rfl, List.nil_prefix⟩))
    rw [List.foldl_cons, ih (h.remove name).1 fun front hfront =>
      hstays (name :: front) ((List.prefix_cons_inj name).2 hfront), lastComma?_remove h name hfirst]

theorem break_mem_foldl_remove (hbreak : '\n' ∈ list.trail) (names : List String) :
    '\n' ∈ (names.foldl ListText.remove list).trail := by
  induction names generalizing list with
  | nil => exact hbreak
  | cons name names ih => exact ih (break_mem_remove hbreak name)

end ListText

namespace Artifact

open ListText

/-- As long as the list has elements, a change set of names without line feeds keeps the comma
behind the last element. What it adds has the quotes of the first string literal that is there when
it comes. If the list has a line feed behind its last element when the additions start, as it has
if it had one before the removals, each stands alone on a line, indented like the element before it
if that starts its line; otherwise all stand on one line with one separator between them. -/
theorem apply_style {artifact : Artifact} {list : ListText} {add remove : List String}
    (h : artifact.locate = .ok list) (hvalid : (ChangeSet.ofNames add remove).validate = .ok ())
    (hadd : ∀ name ∈ add, '\n' ∉ name.toList)
    (hstays : ∀ front, front <+: remove → (front.foldl ListText.remove list).elements ≠ []) :
    ∃ result list' reduced before last kept added,
      artifact.apply (.ofNames add remove) = .ok result ∧ result.locate = .ok list' ∧
      list'.lastComma? = list.lastComma? ∧
      remove.foldl ListText.remove list = reduced ∧ reduced.elements = before ++ [last] ∧
      ('\n' ∈ list.trail → '\n' ∈ reduced.trail) ∧
      list'.elements = kept ++ added ∧ kept.map Element.raw = reduced.items ∧
      ∀ front e back, added = front ++ e :: back →
        e.raw = (quotes (kept ++ front)).encode e.value.toList ∧
        ∃ others previous, kept ++ front = others ++ [previous] ∧
          ('\n' ∈ reduced.trail → FollowsBelow list' others previous e back) ∧
          ('\n' ∉ reduced.trail → ∃ separator, FollowsBeside separator previous e ∧
            (before ≠ [] → '\n' ∉ last.lead → separator = last.lead) ∧
            (before = [] ∨ '\n' ∈ last.lead → separator = [' '])) := by
  obtain ⟨htiled, -⟩ := locate_eq_ok_iff.1 h
  obtain ⟨-, hlocate⟩ := foldlM_removeValue h remove
  obtain ⟨hrun, hlocate'⟩ := foldlM_addNode hlocate fun name hname hbreak =>
    absurd hbreak (hadd name hname)
  have happly := apply_ofNames h hvalid
  have hcomma := lastComma?_foldl_remove htiled hstays
  have htrail : '\n' ∈ list.trail → '\n' ∈ (remove.foldl ListText.remove list).trail :=
    fun hbreak => break_mem_foldl_remove hbreak remove
  have hne := hstays remove (List.prefix_refl _)
  rw [← hcomma]
  generalize remove.foldl ListText.remove list = reduced at *
  obtain ⟨before, last, helements⟩ : ∃ before last, reduced.elements = before ++ [last] := by
    rcases List.eq_nil_or_concat reduced.elements with hnil | ⟨before, last, hlast⟩
    · exact absurd hnil hne
    · exact ⟨before, last, by rw [hlast, List.concat_eq_append]⟩
  obtain ⟨last', added, hextended⟩ := extended_foldl helements hadd
  have hsplit : ∀ back, (before ++ [last']) ++ back = before ++ last' :: back := fun back => by simp
  refine ⟨_, _, reduced, before, last, before ++ [last'], added,
    happly.trans hrun, hlocate', ?_, rfl, helements, htrail, ?_, ?_, ?_⟩
  · rw [hextended.comma, lastComma?, helements, List.getLast?_concat, Option.map_some]
  · rw [hextended.elements, hsplit]
  · simp [items, helements, hextended.raw]
  · intro front e back heq
    obtain ⟨others, previous, hothers, hlines, hline⟩ := hextended.follows front e back heq
    rw [hsplit]
    refine ⟨hextended.quotes front e back heq, others, previous, hothers, hlines, fun hbreak =>
      ⟨_, hline hbreak, fun hbefore hlead => ?_, fun hlead => ?_⟩⟩
    · simp [inlineSeparator, hbefore, hlead]
    · rcases hlead with rfl | hlead <;> simp [inlineSeparator, *]

/-- Two elements on one line, with the bracket on another. -/
def twoOnLine : ListText where
  head := "x = [".toList
  elements :=
    [{ lead := "\n  ".toList, raw := "'a'".toList, comma := true },
     { lead := " ".toList, raw := "\"b\"".toList, comma := true }]
  trail := " # two\n".toList
  rest := "]\n".toList

/-- The second of two elements on one line and a new one below it. -/
def oneBelow : ListText where
  head := "x = [".toList
  elements :=
    [{ lead := "\n  ".toList, raw := "\"b\"".toList, comma := true },
     { lead := " # two\n  ".toList, raw := "\"c\"".toList, comma := true }]
  trail := "\n".toList
  rest := "]\n".toList

/-- The quotes of the new element are those of the first string literal that the removal leaves,
and it stands alone on its line. -/
theorem apply_style_of_lines :
    apply { text := "x = [\n  'a', \"b\", # two\n]\n", anchor := "x", origin := "file" }
        (.ofNames ["c"] ["a"])
      = .ok { text := "x = [\n  \"b\", # two\n  \"c\",\n]\n", anchor := "x", origin := "file" } ∧
    ∃ previous e, oneBelow.elements = [previous, e] ∧ e.raw = "\"c\"".toList ∧
      FollowsBelow oneBelow [] previous e [] := by
  have hlocate : locate { text := "x = [\n  'a', \"b\", # two\n]\n", anchor := "x",
                          origin := "file" } = .ok twoOnLine := by decide +kernel
  have happly :
      apply { text := "x = [\n  'a', \"b\", # two\n]\n", anchor := "x", origin := "file" }
        (.ofNames ["c"] ["a"])
        = .ok { text := "x = [\n  \"b\", # two\n  \"c\",\n]\n", anchor := "x", origin := "file" } := by
    decide +kernel
  have hlocate' : locate { text := "x = [\n  \"b\", # two\n  \"c\",\n]\n", anchor := "x",
                           origin := "file" } = .ok oneBelow := by decide +kernel
  have hstays : ∀ front ∈ ["a"].inits, (front.foldl ListText.remove twoOnLine).elements ≠ [] := by
    decide +kernel
  obtain ⟨result, list', reduced, before, last, kept, added, hresult, hfound, -, hreduced, -,
    hbreak, helements, hkept, hadded⟩ := apply_style hlocate
      (show (ChangeSet.ofNames ["c"] ["a"]).validate = .ok () by decide +kernel) (by decide)
      fun front hfront => hstays front ((List.mem_inits ..).2 hfront)
  cases happly.symm.trans hresult
  cases hlocate'.symm.trans hfound
  have hitems : reduced.items = ["\"b\"".toList] := by
    rw [← hreduced]
    decide +kernel
  obtain ⟨previous, rfl⟩ : ∃ previous, kept = [previous] := by
    rw [← List.length_eq_one_iff]
    simpa [hitems] using congrArg List.length hkept
  obtain ⟨e, rfl⟩ : ∃ e, added = [e] := by
    rw [← List.length_eq_one_iff]
    simpa [oneBelow] using congrArg List.length helements
  obtain ⟨hquotes, others, previous', hothers, hlines, -⟩ := hadded [] e [] rfl
  obtain ⟨rfl, rfl⟩ : others = [] ∧ previous' = previous := by
    simpa [List.append_eq_singleton_iff] using hothers.symm
  refine ⟨happly, previous', e, helements, ?_, hlines (hbreak (by decide +kernel))⟩
  cases helements
  rfl

end Artifact

end StubManager
