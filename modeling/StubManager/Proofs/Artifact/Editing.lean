import StubManager.Proofs.Artifact.Location

/-!
# Runs of edits

On a located artifact every edit of one element is an edit of its list (`removeValue_eq`,
`addNode_ofName_eq`), and so is a run of them as long as no name with a line feed is written
(`foldlM_removeValue`, `foldlM_addNode`). Where one is written the run cannot go on behind it:
`foldlM_addNode_cases`.
-/

namespace StubManager

namespace ListText

/-- Puts an element of the given name behind the last one unless there is one already. -/
def extend (list : ListText) (name : String) : ListText :=
  if name ∈ list.values then list else list.append (list.style.encode name.toList)

/-- The values with one more behind them, unless it is among them. -/
def withName (values : List String) (name : String) : List String :=
  if name ∈ values then values else values ++ [name]

theorem extend_of_mem {list : ListText} {name : String} (h : name ∈ list.values) :
    list.extend name = list := if_pos h

theorem extend_frame (list : ListText) (name : String) :
    (list.extend name).head = list.head ∧ (list.extend name).rest = list.rest := by
  unfold extend
  split
  · exact ⟨rfl, rfl⟩
  · exact ⟨head_append .., rest_append ..⟩

theorem Tiled.extend {list : ListText} (h : list.Tiled) {name : String}
    (hname : '\n' ∈ name.toList → name ∈ list.values) : (list.extend name).Tiled := by
  unfold ListText.extend
  split
  · exact h
  · next hnew => exact h.append (isItem_encode list.style (mt hname hnew))

theorem values_extend {list : ListText} {name : String}
    (hname : '\n' ∈ name.toList → name ∈ list.values) :
    (list.extend name).values = withName list.values name := by
  unfold extend withName
  split
  · rfl
  · next hnew =>
    rw [values_eq_map_items, items_append, List.map_append, ← values_eq_map_items,
      List.map_singleton, valueOf_encode list.style (mt hname hnew)]

theorem mem_withName {values : List String} {name value : String} :
    value ∈ withName values name ↔ value ∈ values ∨ value = name := by
  unfold withName
  split
  · next h => exact ⟨.inl, fun h' => h'.elim id fun heq => heq ▸ h⟩
  · rw [List.mem_append, List.mem_singleton]

/-! ## Runs on the list -/

/-- What a run of edits leaves alone if each of them does. -/
theorem foldl_frame {f : ListText → String → ListText}
    (h : ∀ list name, (f list name).head = list.head ∧ (f list name).rest = list.rest)
    (list : ListText) (names : List String) :
    (names.foldl f list).head = list.head ∧ (names.foldl f list).rest = list.rest := by
  induction names generalizing list with
  | nil => exact ⟨rfl, rfl⟩
  | cons name names ih =>
    obtain ⟨hhead, hrest⟩ := ih (f list name)
    exact ⟨hhead.trans (h list name).1, hrest.trans (h list name).2⟩

theorem foldl_remove_frame (list : ListText) (names : List String) :
    (names.foldl remove list).head = list.head ∧ (names.foldl remove list).rest = list.rest :=
  foldl_frame (fun list name => ⟨head_remove list name, rest_remove list name⟩) list names

/-- A run of removals takes out, of each value in turn, the first item that stands for it. -/
theorem Tiled.foldl_remove {list : ListText} (h : list.Tiled) (names : List String) :
    (names.foldl ListText.remove list).Tiled ∧
      (names.foldl ListText.remove list).items
        = names.foldl (fun items name => items.eraseP (valueOf · == name)) list.items := by
  induction names generalizing list with
  | nil => exact ⟨h, rfl⟩
  | cons name names ih =>
    obtain ⟨htiled, hitems⟩ := h.remove name
    rw [List.foldl_cons, List.foldl_cons, ← hitems]
    exact ih htiled

theorem map_eraseP_valueOf (items : List (List Char)) (name : String) :
    (items.eraseP (valueOf · == name)).map valueOf = (items.map valueOf).erase name := by
  induction items with
  | nil => rfl
  | cons item items ih =>
    by_cases h : valueOf item = name
    · simp [h]
    · simp [h, ih]

theorem Tiled.values_foldl_remove {list : ListText} (h : list.Tiled) (names : List String) :
    (names.foldl ListText.remove list).values = names.foldl List.erase list.values := by
  rw [values_eq_map_items, (h.foldl_remove names).2, values_eq_map_items]
  generalize list.items = items
  induction names generalizing items with
  | nil => rfl
  | cons name names ih => rw [List.foldl_cons, ih, map_eraseP_valueOf, List.foldl_cons]

/-- A run of additions that writes no line feed. Each new item is a string literal. -/
theorem Tiled.foldl_extend {list : ListText} (h : list.Tiled) {names : List String}
    (hnames : ∀ name ∈ names, '\n' ∈ name.toList → name ∈ list.values) :
    (names.foldl ListText.extend list).Tiled ∧
      (names.foldl ListText.extend list).values = names.foldl withName list.values ∧
      ∃ added, (names.foldl ListText.extend list).items = list.items ++ added ∧
        ∀ item ∈ added, ∃ name ∈ names, '\n' ∉ name.toList ∧
          ∃ style : QuoteStyle, item = style.encode name.toList := by
  induction names generalizing list with
  | nil => exact ⟨h, rfl, [], by simp, by simp⟩
  | cons name names ih =>
    rw [List.forall_mem_cons] at hnames
    have hvalues := values_extend hnames.1
    obtain ⟨htiled, hrun, added, hitems, hadded⟩ :=
      ih (h.extend hnames.1) fun other hother hbreak =>
        hvalues ▸ mem_withName.2 (.inl (hnames.2 other hother hbreak))
    rw [List.foldl_cons, List.foldl_cons, ← hvalues]
    refine ⟨htiled, hrun, ?_⟩
    have hadded' : ∀ item ∈ added, ∃ name' ∈ name :: names, '\n' ∉ name'.toList ∧
        ∃ style : QuoteStyle, item = style.encode name'.toList := fun item hitem =>
      have ⟨name', hname', hstyle⟩ := hadded item hitem
      ⟨name', List.mem_cons_of_mem _ hname', hstyle⟩
    by_cases hmem : name ∈ list.values
    · rw [extend_of_mem hmem] at hitems
      rw [extend_of_mem hmem]
      exact ⟨added, hitems, hadded'⟩
    · refine ⟨list.style.encode name.toList :: added, ?_, List.forall_mem_cons.2 ⟨?_, hadded'⟩⟩
      · rw [hitems, ListText.extend, if_neg hmem, items_append, List.append_assoc,
          List.singleton_append]
      · exact ⟨name, List.mem_cons_self .., mt hnames.1 hmem, list.style, rfl⟩

end ListText

namespace Artifact

/-! ## One edit -/

theorem removeValue_eq {artifact : Artifact} {list : ListText} (h : artifact.locate = .ok list)
    (value : String) :
    artifact.removeValue value = .ok (artifact.withList (list.remove value)) := by
  simp only [removeValue, h, bind, Except.bind]
  split
  · rfl
  · next hvalue =>
    rw [ListText.remove_of_not_mem (by simpa using hvalue), withList_of_locate h]
    rfl

theorem addNode_ofName_eq {artifact : Artifact} {list : ListText}
    (h : artifact.locate = .ok list) (name : String) :
    artifact.addNode (.ofName name) = .ok (artifact.withList (list.extend name)) := by
  simp only [addNode, h, bind, Except.bind, ChangeNode.render_ofName, ListText.extend]
  by_cases hname : name ∈ list.values
  · rw [if_pos (by simpa [ChangeNode.ofName] using hname), if_pos hname, withList_of_locate h]
    rfl
  · rw [if_neg (by simpa [ChangeNode.ofName] using hname), if_neg hname]
    rfl

theorem locate_remove {artifact : Artifact} {list : ListText} (h : artifact.locate = .ok list)
    (value : String) : (artifact.withList (list.remove value)).locate = .ok (list.remove value) :=
  locate_withList h ((locate_eq_ok_iff.1 h).1.remove value).1 (ListText.head_remove ..)

theorem locate_extend {artifact : Artifact} {list : ListText} (h : artifact.locate = .ok list)
    {name : String} (hname : '\n' ∈ name.toList → name ∈ list.values) :
    (artifact.withList (list.extend name)).locate = .ok (list.extend name) :=
  locate_withList h ((locate_eq_ok_iff.1 h).1.extend hname) (list.extend_frame name).1

/-- A new name with a line feed makes a list that is not located again. -/
theorem locate_extend_error {artifact : Artifact} {list : ListText}
    (h : artifact.locate = .ok list) {name : String} (hbreak : '\n' ∈ name.toList)
    (hnew : name ∉ list.values) :
    ∃ failure, (artifact.withList (list.extend name)).locate = .error failure := by
  obtain ⟨hhead, hrest⟩ := list.extend_frame name
  obtain ⟨fault, hfault⟩ :=
    ListText.scan_append_error (locate_eq_ok_iff.1 h).1 list.style hbreak
  have hscan : ListText.scan (list.extend name).head
      ((list.extend name).inner ++ (list.extend name).rest) = .error fault := by
    rw [hhead, hrest, ListText.extend, if_neg hnew, hfault]
  exact locate_withList_error h hhead hscan

/-! ## Runs of edits -/

theorem foldlM_removeValue {artifact : Artifact} {list : ListText}
    (h : artifact.locate = .ok list) (names : List String) :
    names.foldlM removeValue artifact = .ok (artifact.withList (names.foldl ListText.remove list))
      ∧ (artifact.withList (names.foldl ListText.remove list)).locate
        = .ok (names.foldl ListText.remove list) := by
  refine ⟨?_, locate_withList h ((locate_eq_ok_iff.1 h).1.foldl_remove names).1
    (list.foldl_remove_frame names).1⟩
  induction names generalizing artifact list with
  | nil => rw [List.foldl_nil, withList_of_locate h]; rfl
  | cons name names ih =>
    rw [List.foldlM_cons, removeValue_eq h]
    exact ih (locate_remove h name)

theorem foldlM_addNode {artifact : Artifact} {list : ListText} (h : artifact.locate = .ok list)
    {names : List String} (hnames : ∀ name ∈ names, '\n' ∈ name.toList → name ∈ list.values) :
    (names.map ChangeNode.ofName).foldlM addNode artifact
        = .ok (artifact.withList (names.foldl ListText.extend list))
      ∧ (artifact.withList (names.foldl ListText.extend list)).locate
        = .ok (names.foldl ListText.extend list) := by
  refine ⟨?_, locate_withList h ((locate_eq_ok_iff.1 h).1.foldl_extend hnames).1
    (ListText.foldl_frame ListText.extend_frame list names).1⟩
  induction names generalizing artifact list with
  | nil => rw [List.foldl_nil, withList_of_locate h]; rfl
  | cons name names ih =>
    rw [List.forall_mem_cons] at hnames
    rw [List.map_cons, List.foldlM_cons, addNode_ofName_eq h]
    refine ih (locate_extend h hnames.1) fun other hother hbreak => ?_
    rw [ListText.values_extend hnames.1]
    exact ListText.mem_withName.2 (.inl (hnames.2 other hother hbreak))

/-- A run of additions that returns either writes no line feed or ends with a name that has one,
behind which the list cannot be read. -/
theorem foldlM_addNode_cases {artifact result : Artifact} {list : ListText}
    (h : artifact.locate = .ok list) {names : List String}
    (hresult : (names.map ChangeNode.ofName).foldlM addNode artifact = .ok result) :
    result = artifact.withList (names.foldl ListText.extend list) ∧
      ((∀ name ∈ names, '\n' ∈ name.toList → name ∈ list.values) ∨
        (∃ name ∈ names, '\n' ∈ name.toList ∧ name ∉ list.values) ∧
          ∃ failure, result.locate = .error failure) := by
  induction names generalizing artifact list with
  | nil =>
    rw [List.foldl_nil, withList_of_locate h]
    exact ⟨(Except.ok.inj hresult).symm, .inl (by simp)⟩
  | cons name names ih =>
    rw [List.map_cons, List.foldlM_cons, addNode_ofName_eq h] at hresult
    by_cases hname : '\n' ∈ name.toList → name ∈ list.values
    · obtain ⟨heq, hcases⟩ := ih (locate_extend h hname) hresult
      refine ⟨heq, ?_⟩
      rw [ListText.values_extend hname] at hcases
      -- A name with a line feed is no new value of the list.
      have hmem : ∀ other, '\n' ∈ other.toList →
          (other ∈ ListText.withName list.values name ↔ other ∈ list.values) := by
        intro other hbreak
        rw [ListText.mem_withName]
        exact ⟨fun h' => h'.elim id fun heq => heq ▸ hname (heq ▸ hbreak), .inl⟩
      rcases hcases with hall | ⟨⟨other, hother, hbreak, hnew⟩, herror⟩
      · exact .inl (List.forall_mem_cons.2 ⟨hname, fun other hother hbreak =>
          (hmem other hbreak).1 (hall other hother hbreak)⟩)
      · exact .inr ⟨⟨other, List.mem_cons_of_mem _ hother, hbreak,
          mt (hmem other hbreak).2 hnew⟩, herror⟩
    · rw [Classical.not_imp] at hname
      obtain ⟨failure, hfailure⟩ := locate_extend_error h hname.1 hname.2
      cases names with
      | nil =>
        cases hresult
        exact ⟨rfl, .inr ⟨⟨name, List.mem_singleton_self name, hname⟩, failure, hfailure⟩⟩
      | cons other names =>
        have hstop : (artifact.withList (list.extend name)).addNode (.ofName other)
            = .error failure := by
          rw [addNode, hfailure]
          rfl
        change (artifact.withList (list.extend name)).addNode (.ofName other) >>= _ = _ at hresult
        rw [hstop] at hresult
        cases hresult

end Artifact

end StubManager
