import StubManager.Proofs.ListText.Scopes

/-!
# The leftmost assignment

`Names` says of one occurrence of an anchor that a list is assigned to it: it is no part of a
longer name, it starts outside of strings and comments of its line, and an assignment and the
bracket follow. An anchor is searched without overlaps, but an occurrence that starts inside of
another one stands behind a character of a name. Main statement: `anchoredList?_eq_leftmost`, the
search finds the list of the leftmost occurrence, overlapping ones included.
-/

namespace StubManager

open Text

/-! ## Code of a line -/

/-- The start of a line that ends outside of strings and comments: string literals that end, and
characters that start neither. -/
inductive InCode : List Char → Prop where
  | nil : InCode []
  | plain {c : Char} {line : List Char} :
      QuoteStyle.ofMark? c = none → c ≠ '#' → InCode line → InCode (c :: line)
  | literal {style : QuoteStyle} {inside line : List Char} :
      Literal.Inside style.mark inside → InCode line →
      InCode (style.mark :: (inside ++ style.mark :: line))

namespace InCode

theorem append {front back : List Char} (h : InCode front) (h' : InCode back) :
    InCode (front ++ back) := by
  induction h with
  | nil => exact h'
  | plain hquote hhash _ ih => exact .plain hquote hhash ih
  | literal hinside _ ih =>
    rw [List.cons_append, List.append_assoc, List.cons_append]
    exact .literal hinside ih

theorem of_forall {line : List Char}
    (h : ∀ c ∈ line, QuoteStyle.ofMark? c = none ∧ c ≠ '#') : InCode line := by
  induction line with
  | nil => exact .nil
  | cons c line ih =>
    rw [List.forall_mem_cons] at h
    exact .plain h.1.1 h.1.2 (ih h.2)

end InCode

namespace LineState

theorem foldl_comment (line : List Char) : line.foldl step comment = comment := by
  induction line with
  | nil => rfl
  | cons c line ih => exact ih

theorem step_mark (style : QuoteStyle) : code.step style.mark = quoted style false := by
  rw [step, QuoteStyle.ofMark?_mark]

/-- A literal is left by its closing quote only. -/
theorem foldl_inside {style : QuoteStyle} {inside : List Char}
    (h : Literal.Inside style.mark inside) (line : List Char) :
    (inside ++ style.mark :: line).foldl step (quoted style false) = line.foldl step code := by
  induction h with
  | nil => simp [step, style.mark_ne.1]
  | escape _ ih => exact ih
  | plain hescape hquote _ _ ih =>
    rw [List.cons_append, List.foldl_cons, step, if_neg hescape, if_neg hquote, ih]

theorem exists_inside {style : QuoteStyle} {line : List Char} (hbreak : '\n' ∉ line)
    (h : line.foldl step (quoted style false) = code) :
    ∃ inside more, line = inside ++ style.mark :: more ∧ Literal.Inside style.mark inside ∧
      more.foldl step code = code := by
  fun_induction Literal.scan? style.mark line with
  | case1 => cases h
  | case2 => cases h
  | case3 c rest ih =>
    simp only [List.mem_cons, not_or] at hbreak
    obtain ⟨inside, more, rfl, hinside, hmore⟩ := ih hbreak.2.2 h
    exact ⟨'\\' :: c :: inside, more, rfl, .escape hinside, hmore⟩
  | case4 => simp at hbreak
  | case5 rest hescape _ =>
    rw [List.foldl_cons, step, if_neg style.mark_ne.1, if_pos rfl] at h
    exact ⟨[], rest, rfl, .nil, h⟩
  | case6 c rest hescape hc hmark ih =>
    rw [List.foldl_cons, step, if_neg hescape, if_neg hmark] at h
    obtain ⟨inside, more, rfl, hinside, hmore⟩ := ih (fun hmem => hbreak (.tail _ hmem)) h
    exact ⟨c :: inside, more, rfl, .plain hescape hmark hc hinside, hmore⟩

/-- A line is read as code exactly if it is made up of ended literals and plain characters. -/
theorem foldl_eq_code_iff {line : List Char} (hbreak : '\n' ∉ line) :
    line.foldl step code = code ↔ InCode line := by
  constructor
  · intro h
    cases line with
    | nil => exact .nil
    | cons c line =>
      cases hquote : QuoteStyle.ofMark? c with
      | some style =>
        obtain rfl := QuoteStyle.mark_of_ofMark? hquote
        rw [List.foldl_cons, step_mark] at h
        obtain ⟨inside, more, rfl, hinside, hmore⟩ :=
          exists_inside (fun hmem => hbreak (.tail _ hmem)) h
        refine .literal hinside ((foldl_eq_code_iff fun hmem => hbreak ?_).1 hmore)
        simp [hmem]
      | none =>
        by_cases hhash : c = '#'
        · subst hhash
          rw [List.foldl_cons, show code.step '#' = comment from rfl, foldl_comment] at h
          cases h
        · rw [List.foldl_cons, step, hquote] at h
          dsimp only at h
          rw [if_neg hhash] at h
          exact .plain hquote hhash
            ((foldl_eq_code_iff fun hmem => hbreak (.tail _ hmem)).1 h)
  · intro h
    clear hbreak
    induction h with
    | nil => rfl
    | plain hquote hhash _ ih =>
      rw [List.foldl_cons, step, hquote]
      dsimp only
      rw [if_neg hhash, ih]
    | literal hinside _ ih => rw [List.foldl_cons, step_mark, foldl_inside hinside, ih]
termination_by line.length
decreasing_by all_goals simp_all <;> omega

theorem atEnd_reverse (before : List Char) :
    atEnd before.reverse = (lastLine before).foldl step code := rfl

end LineState

theorem LineState.atEnd_eq_code_iff (before : List Char) :
    atEnd before.reverse = code ↔ InCode (lastLine before) := by
  rw [atEnd_reverse, foldl_eq_code_iff (not_mem_lastLine before)]

/-! ## Assignments -/

/-- Spaces and tabs, a colon or a single equals sign, white space and an opening bracket start the
text; `list` is what stands behind the bracket. -/
def Assigned (text list : List Char) : Prop :=
  ∃ blanks sign white, text = blanks ++ sign :: (white ++ '[' :: list) ∧
    (∀ c ∈ blanks, isSpaceOrTab c) ∧
    (sign = ':' ∨ sign = '=' ∧ (white ++ '[' :: list).head? ≠ some '=') ∧
    ∀ c ∈ white, isListBlank c

private theorem dropWhile_white {white : List Char} (h : ∀ c ∈ white, isListBlank c)
    (list : List Char) : (white ++ '[' :: list).dropWhile isListBlank = '[' :: list := by
  rw [List.dropWhile_append_of_pos h]
  rfl

theorem assignedList?_eq_some_iff {text list : List Char} :
    assignedList? text = some list ↔ Assigned text list := by
  have hcut := List.takeWhile_append_dropWhile (p := isSpaceOrTab) (l := text)
  have hblanks : ∀ c ∈ text.takeWhile isSpaceOrTab, isSpaceOrTab c :=
    fun c hc => List.mem_takeWhile_imp hc
  constructor
  · intro h
    unfold assignedList? at h
    dsimp only at h
    split at h
    · next hvalue =>
      cases h
      obtain ⟨value, hsign, hlist⟩ := Option.map_eq_some_iff.1 hvalue
      have hwhite : value = value.takeWhile isListBlank ++ '[' :: list := by
        rw [← hlist, List.takeWhile_append_dropWhile]
      have hblank : ∀ c ∈ value.takeWhile isListBlank, isListBlank c :=
        fun c hc => List.mem_takeWhile_imp hc
      split at hsign
      · cases hsign
      · next hequals heq =>
        cases hsign
        refine ⟨_, '=', _, by rw [← hwhite, ← heq, hcut], hblanks, .inr ⟨rfl, ?_⟩, hblank⟩
        rw [← hwhite]
        intro hhead
        obtain ⟨more, rfl⟩ := List.head?_eq_some_iff.1 hhead
        exact hequals more rfl
      · next heq =>
        cases hsign
        exact ⟨_, ':', _, by rw [← hwhite, ← heq, hcut], hblanks, .inl rfl, hblank⟩
      · cases hsign
    · cases h
  · rintro ⟨blanks, sign, white, rfl, hblanks, hsign, hwhite⟩
    have hdrop : (blanks ++ sign :: (white ++ '[' :: list)).dropWhile isSpaceOrTab
        = sign :: (white ++ '[' :: list) := by
      rw [List.dropWhile_append_of_pos hblanks]
      obtain rfl | ⟨rfl, -⟩ := hsign <;> rfl
    have hlist := dropWhile_white hwhite list
    rw [assignedList?, hdrop]
    generalize white ++ '[' :: list = value at *
    obtain rfl | ⟨rfl, hequals⟩ := hsign
    · simp [hlist]
    · cases value with
      | nil => cases hlist
      | cons c value =>
        have hc : c ≠ '=' := fun hc => hequals (congrArg some hc)
        simp [hlist, hc]

/-! ## Occurrences -/

/-- The list before which the bracket stands is assigned to the occurrence of the anchor behind
`before`. A bare anchor is no part of a longer name and has no quote in front; a quoted one stands
between two quotes of one kind. -/
inductive Names (anchor text before list : List Char) : Prop where
  | bare {after : List Char} : text = before ++ (anchor ++ after) →
      (∀ c ∈ before.getLast?, ¬ isNameChar c ∧ QuoteStyle.ofMark? c = none) →
      (∀ c ∈ after.head?, ¬ isNameChar c) →
      InCode (lastLine before) → Assigned after list → Names anchor text before list
  | quoted {style : QuoteStyle} {front after : List Char} : before = front ++ [style.mark] →
      text = before ++ (anchor ++ style.mark :: after) →
      InCode (lastLine front) → Assigned after list → Names anchor text before list

theorem Names.exists_after {anchor text before list : List Char}
    (h : Names anchor text before list) : ∃ after, text = before ++ (anchor ++ after) := by
  cases h with
  | bare htext => exact ⟨_, htext⟩
  | quoted _ htext => exact ⟨_, htext⟩

private theorem bare_eq_some_iff (before after list : List Char) :
    listOfAnchor?.bare before.reverse after = some list ↔
      (∀ c ∈ after.head?, ¬ isNameChar c) ∧ InCode (lastLine before) ∧ Assigned after list := by
  have hcond : (after.head?.any isNameChar ∨ LineState.atEnd before.reverse ≠ .code) ↔
      ¬ ((∀ c ∈ after.head?, ¬ isNameChar c) ∧ InCode (lastLine before)) := by
    rw [Ne, LineState.atEnd_eq_code_iff, not_and_or]
    refine or_congr_left ?_
    cases after <;> simp
  rw [listOfAnchor?.bare, ← assignedList?_eq_some_iff, ← and_assoc]
  split
  · next h => exact iff_of_false (by simp) fun h' => hcond.1 h h'.1
  · next h => exact ⟨fun hlist => ⟨not_not.1 (mt hcond.2 h), hlist⟩, And.right⟩

/-- What the search makes of one occurrence. -/
theorem listOfAnchor?_eq_some_iff {anchor before after list : List Char} :
    listOfAnchor? anchor before.reverse (anchor ++ after) = some list ↔
      Names anchor (before ++ (anchor ++ after)) before list := by
  have hcancel : ∀ {before after' : List Char},
      before ++ (anchor ++ after) = before ++ (anchor ++ after') → after = after' :=
    fun heq => List.append_cancel_left (List.append_cancel_left heq)
  rw [listOfAnchor?.eq_def, List.drop_left]
  dsimp only
  rcases List.eq_nil_or_concat before with rfl | ⟨front, c, rfl⟩
  · have hbare := bare_eq_some_iff [] after list
    rw [List.reverse_nil] at hbare ⊢
    rw [hbare]
    constructor
    · rintro ⟨hafter, hcode, hlist⟩
      exact .bare rfl (by simp) hafter hcode hlist
    · rintro (⟨htext, -, hafter, hcode, hlist⟩ | ⟨hbefore, -⟩)
      · obtain rfl := hcancel htext
        exact ⟨hafter, hcode, hlist⟩
      · simp at hbefore
  rw [List.concat_eq_append, List.reverse_append, List.reverse_singleton, List.singleton_append]
  dsimp only
  cases hquote : QuoteStyle.ofMark? c with
  | some style =>
    obtain rfl := QuoteStyle.mark_of_ofMark? hquote
    dsimp only
    constructor
    · intro h
      split at h
      · next c after =>
        split at h
        · next hcond =>
          obtain ⟨rfl, hcode⟩ := hcond
          exact .quoted rfl rfl ((LineState.atEnd_eq_code_iff front).1 hcode)
            (assignedList?_eq_some_iff.1 h)
        · cases h
      · cases h
    · rintro (⟨-, hbefore, -⟩ | ⟨hbefore, htext, hcode, hlist⟩)
      · rw [List.getLast?_concat] at hbefore
        rw [(hbefore _ rfl).2] at hquote
        cases hquote
      · obtain ⟨rfl, heq⟩ := List.append_inj' hbefore rfl
        obtain rfl := hcancel htext
        rw [← (List.cons.inj heq).1]
        dsimp only
        rw [if_pos ⟨rfl, (LineState.atEnd_eq_code_iff front).2 hcode⟩]
        exact assignedList?_eq_some_iff.2 hlist
  | none =>
    dsimp only
    by_cases hc : isNameChar c
    · rw [if_pos hc]
      refine iff_of_false nofun ?_
      rintro (⟨-, hbefore, -⟩ | ⟨hbefore, -⟩)
      · rw [List.getLast?_concat] at hbefore
        exact (hbefore c rfl).1 hc
      · obtain ⟨-, heq⟩ := List.append_inj' hbefore rfl
        rw [(List.cons.inj heq).1, QuoteStyle.ofMark?_mark] at hquote
        cases hquote
    · have hbare := bare_eq_some_iff (front ++ [c]) after list
      rw [List.reverse_append, List.reverse_singleton, List.singleton_append] at hbare
      rw [if_neg hc, hbare]
      constructor
      · rintro ⟨hafter, hcode, hlist⟩
        refine .bare rfl ?_ hafter hcode hlist
        rw [List.getLast?_concat]
        rintro _ ⟨⟩
        exact ⟨hc, hquote⟩
      · rintro (⟨htext, -, hafter, hcode, hlist⟩ | ⟨hbefore, -⟩)
        · obtain rfl := hcancel htext
          exact ⟨hafter, hcode, hlist⟩
        · obtain ⟨-, heq⟩ := List.append_inj' hbefore rfl
          rw [(List.cons.inj heq).1, QuoteStyle.ofMark?_mark] at hquote
          cases hquote

theorem Names.unique {anchor text before list list' : List Char}
    (h : Names anchor text before list) (h' : Names anchor text before list') : list = list' := by
  obtain ⟨after, rfl⟩ := h.exists_after
  exact Option.some.inj
    ((listOfAnchor?_eq_some_iff.2 h).symm.trans (listOfAnchor?_eq_some_iff.2 h'))

/-! ## Characters of names -/

theorem plain_of_isNameChar {c : Char} (h : isNameChar c) :
    QuoteStyle.ofMark? c = none ∧ c ≠ '#' ∧ c ≠ '\\' ∧ c ≠ '\n' := by
  have hdouble : c ≠ '"' := by
    rintro rfl
    revert h
    decide
  have hsingle : c ≠ '\'' := by
    rintro rfl
    revert h
    decide
  refine ⟨by rw [QuoteStyle.ofMark?, if_neg hdouble, if_neg hsingle], ?_, ?_, ?_⟩
  all_goals
    rintro rfl
    revert h
    decide

/-- Behind a character of a name no list is named. -/
theorem not_names_of_isNameChar {anchor text before list : List Char} {c : Char}
    (hlast : before.getLast? = some c) (hc : isNameChar c) : ¬ Names anchor text before list := by
  rintro (⟨-, hbefore, -⟩ | ⟨rfl, -⟩)
  · exact (hbefore c hlast).1 hc
  · rw [List.getLast?_concat, Option.some.injEq] at hlast
    rw [← hlast] at hc
    have := (plain_of_isNameChar hc).1
    rw [QuoteStyle.ofMark?_mark] at this
    cases this

/-! ## The search -/

/-- The list is that of the leftmost occurrence that does not start before `start`. -/
def IsLeftmost (anchor text : List Char) (start : Nat) (list : List Char) : Prop :=
  ∃ before, start ≤ before.length ∧ Names anchor text before list ∧
    ∀ before' list', Names anchor text before' list' → start ≤ before'.length →
      before.length ≤ before'.length

/-- The answer of a search that starts behind `front`. -/
def Finds (anchor text : List Char) (start : Nat) : Option (List Char) → Prop
  | some list => IsLeftmost anchor text start list
  | none => ∀ before list, Names anchor text before list → before.length < start

/-- A place that names no list can be passed over. -/
theorem Finds.pass {anchor front rest : List Char} {found : Option (List Char)}
    (h : Finds anchor (front ++ rest) (front.length + 1) found)
    (hnot : ∀ list, ¬ Names anchor (front ++ rest) front list) :
    Finds anchor (front ++ rest) front.length found := by
  -- An occurrence at this place stands behind `front`.
  have hlater : ∀ before list, Names anchor (front ++ rest) before list →
      front.length ≤ before.length → front.length + 1 ≤ before.length := by
    intro before list hnames hle
    refine Nat.lt_of_le_of_ne hle fun heq => ?_
    obtain ⟨after, htext⟩ := hnames.exists_after
    obtain ⟨rfl, -⟩ := List.append_inj htext heq
    exact hnot list hnames
  cases found with
  | some list =>
    obtain ⟨before, hle, hnames, hleast⟩ := h
    exact ⟨before, by omega, hnames, fun before' list' hnames' hle' =>
      hleast before' list' hnames' (hlater before' list' hnames' hle')⟩
  | none =>
    intro before list hnames
    have := h before list hnames
    have := hlater before list hnames
    omega

/-- Where an occurrence was refused, the places inside of it stand behind characters of names. -/
theorem finds_anchoredListFrom? {anchor : List Char} (hne : anchor ≠ [])
    (hname : ∀ c ∈ anchor, isNameChar c) (front rest : List Char) (skip : Nat)
    (hskip : 0 < skip → (∃ c, front.getLast? = some c ∧ isNameChar c) ∧
      ∀ c ∈ rest.take (skip - 1), isNameChar c) :
    Finds anchor (front ++ rest) front.length
      (anchoredListFrom? anchor front.reverse skip rest) := by
  induction rest generalizing front skip with
  | nil =>
    rw [anchoredListFrom?]
    intro before list hnames
    obtain ⟨after, htext⟩ := hnames.exists_after
    have hlength := congrArg List.length htext
    have := List.length_pos_iff.2 hne
    simp only [List.length_append, List.length_nil] at hlength
    omega
  | cons c rest ih =>
    have hnext : ∀ skip, (0 < skip → isNameChar c ∧ ∀ c ∈ rest.take (skip - 1), isNameChar c) →
        Finds anchor (front ++ c :: rest) (front.length + 1)
          (anchoredListFrom? anchor (c :: front.reverse) skip rest) := by
      intro skip h
      have := ih (front ++ [c]) skip fun hpos =>
        ⟨⟨c, by rw [List.getLast?_concat], (h hpos).1⟩, (h hpos).2⟩
      simpa using this
    cases skip with
    | succ skip =>
      obtain ⟨⟨last, hlast, hlastname⟩, hrest⟩ := hskip (Nat.succ_pos skip)
      rw [anchoredListFrom?]
      refine (hnext skip fun hpos => ?_).pass fun list => not_names_of_isNameChar hlast hlastname
      obtain ⟨skip, rfl⟩ := Nat.exists_eq_succ_of_ne_zero hpos.ne'
      simp only [Nat.add_one_sub_one, Nat.succ_eq_add_one, List.take_succ_cons,
        List.forall_mem_cons] at hrest ⊢
      exact hrest
    | zero =>
      rw [anchoredListFrom?]
      split
      · next hprefix =>
        obtain ⟨after, htext⟩ := List.isPrefixOf_iff_prefix.1 hprefix
        cases hlist : listOfAnchor? anchor front.reverse (c :: rest) with
        | some list =>
          rw [← htext] at hlist ⊢
          exact ⟨front, Nat.le_refl _, listOfAnchor?_eq_some_iff.1 hlist, fun _ _ _ hle => hle⟩
        | none =>
          rw [Option.none_or]
          refine (hnext _ fun hpos => ?_).pass fun list hnames => ?_
          · obtain ⟨first, anchor, rfl⟩ := List.exists_cons_of_ne_nil hne
            obtain ⟨rfl, rfl⟩ := List.cons.inj htext
            rw [List.forall_mem_cons] at hname
            refine ⟨hname.1, fun c hc => hname.2 c ?_⟩
            rw [List.length_cons, Nat.add_one_sub_one, List.append_eq,
              List.take_append_of_le_length (Nat.sub_le _ _)] at hc
            exact List.mem_of_mem_take hc
          · rw [← htext] at hnames hlist
            rw [listOfAnchor?_eq_some_iff.2 hnames] at hlist
            cases hlist
      · next hprefix =>
        refine (hnext 0 fun hpos => absurd hpos (Nat.lt_irrefl 0)).pass fun list hnames => ?_
        obtain ⟨after, htext⟩ := hnames.exists_after
        rw [List.append_cancel_left htext] at hprefix
        exact hprefix (List.isPrefixOf_iff_prefix.2 (List.prefix_append _ _))

/-! ## The bracket -/

theorem plain_of_isListBlank {c : Char} (h : isListBlank c) :
    QuoteStyle.ofMark? c = none ∧ c ≠ '#' := by
  simp only [isListBlank, Bool.or_eq_true, decide_eq_true_eq] at h
  rcases h with (((rfl | rfl) | rfl) | rfl) | rfl <;> exact ⟨rfl, by decide⟩

/-- Behind code that ends with a name, the bracket of an assignment stands in code. -/
theorem inCode_of_assigned {before name after list : List Char}
    (hbefore : InCode (lastLine before)) (hname : InCode name) (hbreak : '\n' ∉ name)
    (h : Assigned after list) :
    ∃ front, before ++ (name ++ after) = front ++ '[' :: list ∧ InCode (lastLine front) := by
  obtain ⟨blanks, sign, white, rfl, hblanks, hsign, hwhite⟩ := h
  refine ⟨before ++ (name ++ (blanks ++ sign :: white)), by simp, ?_⟩
  have hblank : InCode (blanks ++ sign :: white) := by
    refine .of_forall fun c hc => ?_
    rw [List.mem_append, List.mem_cons] at hc
    obtain hc | rfl | hc := hc
    · have := hblanks c hc
      simp only [isSpaceOrTab, Bool.or_eq_true, decide_eq_true_eq] at this
      obtain rfl | rfl := this <;> exact ⟨rfl, by decide⟩
    · obtain rfl | ⟨rfl, -⟩ := hsign <;> exact ⟨rfl, by decide⟩
    · exact plain_of_isListBlank (hwhite c hc)
  by_cases hwhitebreak : '\n' ∈ white
  · -- The last line starts within the white space.
    have hthrough := throughLastBreak_eq_append hwhitebreak
    rw [← throughLastBreak_append_lastLine white, hthrough] at hwhite ⊢
    have hline := (lastLine_append_break (before ++ (name ++ (blanks ++ sign ::
      (throughLastBreak white).dropLast))) (not_mem_lastLine white)).1
    simp only [List.append_assoc, List.cons_append, List.nil_append] at hline ⊢
    rw [hline]
    exact .of_forall fun c hc =>
      plain_of_isListBlank (hwhite c (List.mem_append_right _ hc))
  · rw [lastLine_append_of_not_mem]
    · exact hbefore.append (hname.append hblank)
    · simp only [List.mem_append, List.mem_cons, not_or]
      refine ⟨hbreak, fun hmem => ?_, ?_, hwhitebreak⟩
      · exact absurd (hblanks _ hmem) (by decide)
      · rintro rfl
        simp at hsign

theorem inCode_of_name {anchor : List Char} (hname : ∀ c ∈ anchor, isNameChar c) :
    InCode anchor ∧ '\n' ∉ anchor :=
  ⟨.of_forall fun c hc => ⟨(plain_of_isNameChar (hname c hc)).1,
    (plain_of_isNameChar (hname c hc)).2.1⟩,
    fun hmem => (plain_of_isNameChar (hname _ hmem)).2.2.2 rfl⟩

/-- The bracket of the list that is named stands outside of strings and comments of its line. -/
theorem Names.inCode {anchor text before list : List Char} (hname : ∀ c ∈ anchor, isNameChar c)
    (h : Names anchor text before list) :
    ∃ front, text = front ++ '[' :: list ∧ InCode (lastLine front) := by
  obtain ⟨hanchor, hbreak⟩ := inCode_of_name hname
  cases h with
  | bare htext _ _ hcode hlist =>
    obtain ⟨front, hfront, hline⟩ := inCode_of_assigned hcode hanchor hbreak hlist
    exact ⟨front, htext.trans hfront, hline⟩
  | @quoted style before after hbefore htext hcode hlist =>
    have hinside : Literal.Inside style.mark anchor := by
      clear hanchor hbreak htext
      induction anchor with
      | nil => exact .nil
      | cons c anchor ih =>
        rw [List.forall_mem_cons] at hname
        obtain ⟨hquote, -, hescape, hc⟩ := plain_of_isNameChar hname.1
        refine .plain hescape ?_ hc (ih hname.2)
        rintro rfl
        rw [QuoteStyle.ofMark?_mark] at hquote
        cases hquote
    have hkey : InCode (style.mark :: (anchor ++ [style.mark])) := .literal hinside .nil
    have hkeybreak : '\n' ∉ style.mark :: (anchor ++ [style.mark]) := by
      simp [hbreak, Ne.symm style.mark_ne.2]
    obtain ⟨front, hfront, hline⟩ := inCode_of_assigned hcode hkey hkeybreak hlist
    refine ⟨front, ?_, hline⟩
    rw [htext, hbefore, ← hfront]
    simp

/-- An anchor of characters of names names the list of its leftmost occurrence that is no part of
a longer name, starts in code and is assigned a list, and no list if there is no such occurrence.
The bracket of the list stands in code. -/
theorem anchoredList?_eq_leftmost {anchor : List Char} (hne : anchor ≠ [])
    (hname : ∀ c ∈ anchor, isNameChar c) (text : List Char) :
    (∀ list, anchoredList? anchor text = some list ↔
      ∃ before, Names anchor text before list ∧
        ∀ before' list', Names anchor text before' list' → before.length ≤ before'.length) ∧
    (anchoredList? anchor text = none ↔ ∀ before list, ¬ Names anchor text before list) ∧
    ∀ list, anchoredList? anchor text = some list →
      ∃ front, text = front ++ '[' :: list ∧ InCode (lastLine front) := by
  have hfinds := finds_anchoredListFrom? hne hname [] text 0 (by simp)
  have hsearch : anchoredList? anchor text = anchoredListFrom? anchor [] 0 text :=
    if_neg (by simpa using hne)
  rw [List.nil_append, List.reverse_nil, ← hsearch] at hfinds
  cases hfound : anchoredList? anchor text with
  | none =>
    rw [hfound] at hfinds
    have hnone : ∀ before list, ¬ Names anchor text before list :=
      fun before list h => Nat.not_lt_zero _ (hfinds before list h)
    refine ⟨fun list => ⟨by simp, fun ⟨before, h, _⟩ => absurd h (hnone before list)⟩,
      iff_of_true rfl hnone, by simp⟩
  | some found =>
    rw [hfound] at hfinds
    obtain ⟨before, -, hnames, hleast⟩ := hfinds
    have hleast : ∀ before' list', Names anchor text before' list' →
        before.length ≤ before'.length :=
      fun before' list' h => hleast before' list' h (Nat.zero_le _)
    refine ⟨fun list => ⟨?_, ?_⟩, iff_of_false (by simp) fun h => h before found hnames, ?_⟩
    · rintro ⟨⟩
      exact ⟨before, hnames, hleast⟩
    · rintro ⟨before', hnames', hleast'⟩
      -- Two leftmost occurrences are the same.
      obtain ⟨after, htext⟩ := hnames.exists_after
      obtain ⟨after', htext'⟩ := hnames'.exists_after
      have hlength := Nat.le_antisymm (hleast before' list hnames')
        (hleast' before found hnames)
      obtain ⟨rfl, -⟩ := List.append_inj (htext.symm.trans htext') hlength
      rw [hnames.unique hnames']
    · rintro _ ⟨⟩
      exact hnames.inCode hname

/-- The second of three occurrences overlaps the first and is no part of the search, but it is a
part of a longer name. -/
theorem leftmost_of_overlap :
    ∃ before, Names "a.a".toList "a.a.a: [1]\na.a =\n [2]\n".toList before "2]\n".toList := by
  have hne : "a.a".toList ≠ [] := by decide
  have hname : ∀ c ∈ "a.a".toList, isNameChar c := List.all_eq_true.1 (by decide +kernel)
  obtain ⟨hfound, -⟩ := anchoredList?_eq_leftmost hne hname "a.a.a: [1]\na.a =\n [2]\n".toList
  obtain ⟨before, hnames, -⟩ := (hfound "2]\n".toList).1 (by decide +kernel)
  exact ⟨before, hnames⟩

end StubManager
