import Mathlib.Data.List.Flatten
import StubManager.Proofs.Artifact.Application
import StubManager.Proofs.ListText.Comments

/-!
# Comments under a change set

Main statement: `comments_apply_iff`, a change set keeps every comment of the list that is not
inside of a removed element, in order, exactly if no removal takes a comment along that stands
between the element and its comma.
-/

namespace StubManager

namespace ListText

variable {list : ListText}

/-! ## Runs of edits -/

/-- A run of removals takes nothing but the items and comments. -/
theorem marks_foldl_remove_sublist (h : list.Tiled) (names : List String) :
    (names.foldl ListText.remove list).marks.Sublist (Mark.kept names list.marks) := by
  induction names generalizing list with
  | nil => exact List.Sublist.refl _
  | cons name names ih =>
    exact (ih (h.remove name).1).trans (Mark.kept_sublist (marks_remove h name).1 names)

theorem marks_foldl_remove_of_keeps (h : list.Tiled) {names : List String}
    (hkeeps : ∀ front name back, names = front ++ name :: back →
      ¬ (front.foldl ListText.remove list).LosesComment name) :
    (names.foldl ListText.remove list).marks = Mark.kept names list.marks := by
  induction names generalizing list with
  | nil => rfl
  | cons name names ih =>
    have hfirst := (marks_remove h name).2.1 (hkeeps [] name names rfl)
    rw [List.foldl_cons, ih (h.remove name).1 fun front other back heq =>
      hkeeps (name :: front) other back (by rw [heq]; rfl), hfirst]
    rfl

theorem length_words_foldl_remove_le (h : list.Tiled) (names : List String) :
    ((names.foldl ListText.remove list).marks.filterMap Mark.words?).length
      ≤ (list.marks.filterMap Mark.words?).length := by
  rw [← Mark.filterMap_words?_kept names list.marks]
  exact ((marks_foldl_remove_sublist h names).filterMap _).length_le

theorem length_words_foldl_remove_lt (h : list.Tiled) {front : List String} {name : String}
    (hloses : (front.foldl ListText.remove list).LosesComment name) (back : List String) :
    (((front ++ name :: back).foldl ListText.remove list).marks.filterMap Mark.words?).length
      < (list.marks.filterMap Mark.words?).length := by
  have hfront := (h.foldl_remove front).1
  rw [List.foldl_append, List.foldl_cons]
  exact ((length_words_foldl_remove_le (hfront.remove name).1 back).trans_lt
    ((marks_remove hfront name).2.2 hloses)).trans_le (length_words_foldl_remove_le h front)

/-- A run of removals keeps all comments beside the items that go exactly if no single one loses
a comment. -/
theorem comments_foldl_remove_iff (h : list.Tiled) (names : List String) :
    (names.foldl ListText.remove list).comments = list.commentsBeside names ↔
      ∀ front name back, names = front ++ name :: back →
        ¬ (front.foldl ListText.remove list).LosesComment name := by
  constructor
  · rintro hsame front name back rfl hloses
    have hitems : (((front ++ name :: back).foldl ListText.remove list).marks.filterMap Mark.item?)
        = (Mark.kept (front ++ name :: back) list.marks).filterMap Mark.item? := by
      rw [filterMap_item?_marks, (h.foldl_remove _).2, Mark.filterMap_item?_kept,
        filterMap_item?_marks]
    have hlength := congrArg List.length hsame
    rw [comments, commentsBeside, Mark.length_comments, Mark.length_comments, hitems,
      Mark.filterMap_words?_kept] at hlength
    have := length_words_foldl_remove_lt h hloses back
    omega
  · intro hkeeps
    rw [comments, marks_foldl_remove_of_keeps h hkeeps, commentsBeside]

theorem comments_foldl_remove_sublist (h : list.Tiled) (names : List String) :
    (names.foldl ListText.remove list).comments.Sublist (list.commentsBeside names) := by
  rw [comments, commentsBeside]
  exact (marks_foldl_remove_sublist h names).flatMap _

/-- Additions keep all comments, whatever the names are. -/
theorem comments_foldl_extend (h : list.Gapped) (names : List String) :
    (names.foldl ListText.extend list).comments = list.comments := by
  induction names generalizing list with
  | nil => rfl
  | cons name names ih =>
    rw [List.foldl_cons]
    by_cases hname : name ∈ list.values
    · rw [extend_of_mem hname]
      exact ih h
    · obtain ⟨hcomments, hgapped⟩ := comments_append h (commentsIn_encode list.style name.toList)
      rw [extend, if_neg hname, ih hgapped, hcomments]

end ListText

namespace Artifact

open ListText

/-- The comments between the brackets after a change set was applied are, in order, comments that
were there and are not inside of a removed element, and all of these exactly if no removal takes a
comment before a comma along. The list is read again if no name with a line feed was added. -/
theorem comments_apply_iff {artifact result : Artifact} {list : ListText} {add remove : List String}
    (h : artifact.locate = .ok list) (happly : artifact.apply (.ofNames add remove) = .ok result) :
    ∃ list', result = artifact.withList list' ∧ list'.head = list.head ∧ list'.rest = list.rest ∧
      list'.comments.Sublist (list.commentsBeside remove) ∧
      (list'.comments = list.commentsBeside remove ↔
        ∀ front name back, remove = front ++ name :: back →
          ¬ (front.foldl ListText.remove list).LosesComment name) ∧
      ((∀ name ∈ add, '\n' ∉ name.toList) → result.locate = .ok list' ∧
        list'.comments = commentsIn (list'.inner ++ list'.rest)) := by
  obtain ⟨htiled, -⟩ := locate_eq_ok_iff.1 h
  obtain ⟨hvalid, -⟩ := of_apply_eq_ok happly
  rw [apply_ofNames h hvalid] at happly
  obtain ⟨-, hlocate⟩ := foldlM_removeValue h remove
  obtain ⟨rfl, -⟩ := foldlM_addNode_cases hlocate happly
  obtain ⟨hhead, hrest⟩ := list.foldl_remove_frame remove
  obtain ⟨hhead', hrest'⟩ := foldl_frame extend_frame (remove.foldl ListText.remove list) add
  have hadded := comments_foldl_extend (htiled.foldl_remove remove).1.gapped add
  refine ⟨add.foldl extend (remove.foldl ListText.remove list), rfl, hhead'.trans hhead,
    hrest'.trans hrest, ?_, ?_, fun hadd => ?_⟩
  · rw [hadded]
    exact comments_foldl_remove_sublist htiled remove
  · rw [hadded]
    exact comments_foldl_remove_iff htiled remove
  · have hlocate' := (foldlM_addNode hlocate fun name hname hbreak =>
      absurd hbreak (hadd name hname)).2
    exact ⟨hlocate', (locate_eq_ok_iff.1 hlocate').1.comments_eq⟩

/-- Comments above an element that goes with its line, behind the last element and inside of one
that stays. -/
theorem comments_apply_of_lines :
    ∃ list',
      locate { text := "x = [\n  # one\n  [1, # two\n  ], # three\n  \"b\"\n]\n", anchor := "x",
               origin := "file" } = .ok list' ∧
      list'.comments = [" one".toList, " two".toList, " three".toList] := by
  have hlocate :
      locate { text := "x = [\n  # one\n  'a',\n  [1, # two\n  ] # three\n]\n", anchor := "x",
               origin := "file" }
        = .ok {
          head := "x = [".toList
          elements :=
            [{ lead := "\n  # one\n  ".toList, raw := "'a'".toList, comma := true },
             { lead := "\n  ".toList, raw := "[1, # two\n  ]".toList, comma := false }]
          trail := " # three\n".toList
          rest := "]\n".toList } := by decide +kernel
  have happly :
      apply { text := "x = [\n  # one\n  'a',\n  [1, # two\n  ] # three\n]\n", anchor := "x",
              origin := "file" } (.ofNames ["b"] ["a"])
        = .ok { text := "x = [\n  # one\n  [1, # two\n  ], # three\n  \"b\"\n]\n", anchor := "x",
                origin := "file" } := by decide +kernel
  obtain ⟨list', -, -, -, -, hkeeps, hread⟩ := comments_apply_iff hlocate happly
  refine ⟨list', (hread (by decide)).1, (hkeeps.2 ?_).trans (by decide +kernel)⟩
  rintro front name back heq ⟨before, e, after, helements, -, -, htail, -⟩
  cases front with
  | cons => simp at heq
  | nil =>
    have hmem : e ∈ before ++ e :: after := by simp
    rw [List.foldl_nil] at helements
    rw [← helements] at hmem
    refine htail (?_ : commentsIn e.tail = [])
    simp only [List.mem_cons, List.not_mem_nil, or_false] at hmem
    rcases hmem with rfl | rfl <;> exact IsGap.commentsIn_of_blanks (by simp)

/-- A comment between an element and its comma goes with the element. -/
theorem comments_apply_ne_of_tail :
    ∃ list, locate { text := "x = ['a' # one\n , 'b']\n", anchor := "x", origin := "file" }
        = .ok list ∧ list.commentsBeside ["a"] = [" one".toList] ∧
      apply { text := "x = ['a' # one\n , 'b']\n", anchor := "x", origin := "file" }
        (.ofNames [] ["a"])
        = .ok { text := "x = [ 'b']\n", anchor := "x", origin := "file" } :=
  ⟨{ head := "x = [".toList
     elements :=
       [{ raw := "'a'".toList, tail := " # one\n ".toList, comma := true },
        { lead := " ".toList, raw := "'b'".toList, comma := false }]
     trail := []
     rest := "]\n".toList },
    by decide +kernel, by decide +kernel, by decide +kernel⟩

end Artifact

end StubManager
